import CbMpc.OtExtension
import CbMpc.EcdsaMp

/-!
# Multiplication over correlated transfers

The first message of a correlated transfer is a hash output that is not reduced, and
all the arithmetic built on it asserts that its operands are.
-/
namespace CbMpc

open BitString

section Run

variable {q n : ℕ}

/-- What the two parties get out of the transfers of a pair: the sender `i` has the first
hash outputs against the receiver `j`, and the receiver has them or the sums. -/
def Products.withPads (M : Products q n)
    (pads : Fin n → Fin n → ℕ → Fin 4 → List Byte × List Byte) : Products q n :=
  { M with
    X0 := fun i j l t => bytesToBn (pads i j l t).1
    X := fun j i l t =>
      if M.R j i l t then
        (bytesToBn (pads i j l t).1 + residue (M.senderFactor i t + M.senderFactor i t)) % q
      else bytesToBn (pads i j l t).1 }

/-- `step3_S2R` at the sender `i` against the receiver `j`. -/
def Products.transfers (M : Products q n)
    (pads : Fin n → Fin n → ℕ → Fin 4 → List Byte × List Byte) (i j : Fin n) :
    Outcome (List (List (List Byte × ℤ × ℤ))) :=
  (List.range M.theta).mapM fun l => (List.finRange 4).mapM fun t =>
    maskDifference q (8 * getBinSize q) (pads i j l t)
      (residue (M.senderFactor i t + M.senderFactor i t))

/-- The transfers and the multiplications of party `i`. -/
def Products.multiply (M : Products q n)
    (pads : Fin n → Fin n → ℕ → Fin 4 → List Byte × List Byte) (i : Fin n) :
    Outcome (ℤ × ℤ) := do
  forEach (fun j : Fin n => if roleAt M.roles i j = otSender then
    M.transfers pads i j >>= fun _ => .ok () else .ok ())
    (List.finRange n)
  (M.withPads pads).rhoShares i

end Run

variable {q n : ℕ} [hq : Fact q.Prime] {M : Products q n}

/-- A transfer goes through exactly when the first hash output is below the order. -/
theorem maskDifference_ok_iff {pads : List Byte × List Byte}
    (hpad : pads.2.length = getBinSize q) (a : ZMod q) :
    (∃ t, maskDifference q (8 * getBinSize q) pads (residue a) = .ok t) ↔ bytesToBn pads.1 < q := by
  have hnonneg : 0 ≤ bytesToBn pads.1 := Int.natCast_nonneg _
  constructor
  · rintro ⟨t, ht⟩
    obtain ⟨x1, hx1, -⟩ := bind_ok_iff.mp ht
    exact ((isInRange_iff _).mp ((modOp_ok_iff _ _ _ _).mp hx1).1).2
  · intro hlt
    have hrange : isInRange q (bytesToBn pads.1) = true := (isInRange_iff _).mpr ⟨hnonneg, hlt⟩
    have hadd := modOp_of_isInRange (· + ·) false hrange (isInRange_residue a)
    generalize (((bytesToBn pads.1 + residue a : ℤ) : ZMod q)) = z at hadd
    have hsize : getBinSize (residue z) ≤ getBinSize q := by
      have hz := (isInRange_iff _).mp (isInRange_residue z)
      exact getBinSize_le_of_lt (v := z.val) (ZMod.val_lt z)
    have hbin : bnToBytes (residue z) (bitsToBytes (8 * getBinSize q)) =
        .ok ((binPad (getBinSize q) (residue z).natAbs).map BitVec.ofFin) := by
      rw [bnToBytes, toBin, bitsToBytes_mul, decide_eq_true hsize]
      rfl
    have hlen : pads.2.length =
        ((binPad (getBinSize q) (residue z).natAbs).map BitVec.ofFin : List Byte).length := by
      rw [List.length_map, length_binPad, hpad]
    refine ⟨(xor pads.2 ((binPad (getBinSize q) (residue z).natAbs).map BitVec.ofFin),
      bytesToBn pads.1, residue z), ?_⟩
    rw [maskDifference, modAdd, hadd, ok_bind, hbin, ok_bind, xorBuf_eq hlen, ok_bind]

/-- With hash outputs below the order the transfers are correlated. -/
theorem withPads_correlated (hroles : validateRoleMap n M.roles = .ok ())
    {pads : Fin n → Fin n → ℕ → Fin 4 → List Byte × List Byte}
    (hpads : ∀ i j : Fin n, roleAt M.roles i j = otSender → ∀ l < M.theta, ∀ t,
      bytesToBn (pads i j l t).1 < q) :
    (M.withPads pads).Correlated where
  roles := hroles
  reduced0 i j hs l hl t := (isInRange_iff _).mpr ⟨Int.natCast_nonneg _, hpads i j hs l hl t⟩
  reduced j i hr l hl t := by
    have hne : (j : ℕ) ≠ i := by
      intro h
      have hdiag := validateRoleMap_diag hroles j.isLt
      rw [show roleAt M.roles j j =
        otReceiver by rw [← hr]; simp only [Products.withPads, h]] at hdiag
      exact absurd hdiag (by decide)
    have hs : roleAt M.roles i j = otSender := by
      rcases validateRoleMap_ok hroles j.isLt i.isLt hne with ⟨h, -⟩ | ⟨-, h⟩
      · exact absurd (h.symm.trans hr) (by decide)
      · exact h
    simp only [Products.withPads]
    split
    · rw [emod_eq_residue]
      exact isInRange_residue _
    · exact (isInRange_iff _).mpr ⟨Int.natCast_nonneg _, hpads i j hs l hl t⟩
  relation i j hs l hl t := by
    simp only [Products.withPads, Products.senderFactor]
    by_cases hR : M.R j i l t = true
    · simp [hR]
    · simp [hR]

/-- An honest run of the transfers and the multiplications ends without an abort at every
party exactly when every first hash output is below the order. -/
theorem multiply_ok_iff (hroles : validateRoleMap n M.roles = .ok ())
    {pads : Fin n → Fin n → ℕ → Fin 4 → List Byte × List Byte}
    (hsize : ∀ i j l t, (pads i j l t).2.length = getBinSize q) :
    (∀ i, ∃ out, M.multiply pads i = .ok out) ↔
      ∀ i j : Fin n, roleAt M.roles i j = otSender → ∀ l < M.theta, ∀ t,
        bytesToBn (pads i j l t).1 < q := by
  constructor
  · intro h i j hs l hl t
    obtain ⟨out, hout⟩ := h i
    obtain ⟨u, hloop, -⟩ := bind_ok_iff.mp hout
    have hturn := forEach_ok_iff.mp hloop j (List.mem_finRange j)
    rw [if_pos hs] at hturn
    obtain ⟨rows, hrows, -⟩ := bind_ok_iff.mp hturn
    obtain ⟨row, hrow⟩ := exists_mapM_ok_iff.mp ⟨rows, hrows⟩ l (List.mem_range.mpr hl)
    exact (maskDifference_ok_iff (hsize i j l t) _).mp
      (exists_mapM_ok_iff.mp ⟨row, hrow⟩ t (List.mem_finRange t))
  · intro hpads i
    have hloop : forEach (fun j : Fin n => if roleAt M.roles i j = otSender then
        M.transfers pads i j >>= fun _ => .ok ()
        else .ok ()) (List.finRange n) = .ok () := by
      refine forEach_ok_iff.mpr fun j _ => ?_
      split
      · rename_i hs
        obtain ⟨rows, hrows⟩ : ∃ rows, M.transfers pads i j = .ok rows := by
          refine exists_mapM_ok_iff.mpr fun l hl => exists_mapM_ok_iff.mpr fun t _ => ?_
          exact (maskDifference_ok_iff (hsize i j l t) _).mpr
            (hpads i j hs l (List.mem_range.mp hl) t)
        rw [hrows, ok_bind]
      · rfl
    exact ⟨_, bind_ok_iff.mpr ⟨(), hloop, rhoShares_eq (withPads_correlated hroles hpads) i⟩⟩

theorem multiply_ok_sample :
    (∃ out, (sampleProducts ![1, 1] ![3, 4] ![5, 6]).multiply (fun _ _ _ _ =>
      ([3, 240], [7, 7])) 0 = .ok out) ∧
    ∃ out, (sampleProducts ![1, 1] ![3, 4] ![5, 6]).multiply (fun _ _ _ _ => ([3, 240], [7, 7])) 1 =
      .ok out := by
  have hall : ∀ i, ∃ out, (sampleProducts ![1, 1] ![3, 4] ![5, 6]).multiply (fun _ _ _ _ =>
      ([3, 240], [7, 7])) i = .ok out :=
    (multiply_ok_iff (sampleProducts_correlated ![1, 1] ![3, 4] ![5, 6]).roles
      (fun _ _ _ _ => rfl)).mpr
      fun _ _ _ _ _ _ => by decide
  exact ⟨hall 0, hall 1⟩

/-- The orders of P-256, P-384, P-521 and secp256k1. -/
def ecdsaOrders : List ℕ :=
  [0xffffffff00000000ffffffffffffffffbce6faada7179e84f3b9cac2fc632551,
   0xffffffffffffffffffffffffffffffffffffffffffffffffc7634d81f4372ddf581a0db248b0a77aecec196accc52973,
   0x1fffffffffffffffffffffffffffffffffffffffffffffffffffffffffffffffffffa51868783bf2f966b7fcc0148f709a5d03bb5c9b8899c47aebb6fb71e91386409,
   0xfffffffffffffffffffffffffffffffebaaedce6af48a03bbfd25e8cd0364141]

/-- On each of these curves a first hash output of ones stops the sender. -/
theorem maskDifference_ones :
    ecdsaOrders.map (fun q => maskDifference q (8 * getBinSize q)
      (List.replicate (getBinSize q) 255, List.replicate (getBinSize q) 0) 0) =
    List.replicate 4 (throwing .assertionFailed) := by
  decide +kernel

end CbMpc
