import CbMpc.ZkPaillierZero

/-!
# Discrete logarithms in a group of unknown order

`unknown_order_dl_t`: the responses are integers, since no order reduces them, and a challenge
bit adds the witness to the mask.
-/
namespace CbMpc

/-- `bits_t::get`. -/
def bitsGet (data : List (Fin 256)) (index : ℕ) : Bool :=
  (data.getD (index / 8) 0).val.testBit (index % 8)

/-- What is hashed to the challenge of `unknown_order_dl_t`. -/
structure DlHash where
  a : ℤ
  b : ℤ
  N : ℕ
  l : ℤ
  R : Fin secPCom → ℤ
  sid : List (Fin 256)
  aux : ℕ

/-- `ro::hash_string(…).bitlen(SEC_P_COM)`. -/
abbrev DlOracle : Type := DlHash → Fin (bitsToBytes secPCom) → Fin 256

/-- `unknown_order_dl_t`. -/
structure UnknownOrderDl where
  e : List (Fin 256)
  z : Fin secPCom → ℤ

/-- `bn_t::get_bits_count`. -/
def bitsCount (x : ℤ) : ℕ := x.natAbs.size

/-- `unknown_order_dl_t::prove` on the masks that it draws, and on the strings that its test of
coprimality draws. -/
def unknownOrderProve (O : DlOracle) (a b : ℤ) (N : ℕ) (l w : ℤ) (sid : List (Fin 256)) (aux : ℕ)
    (bins : Fin maxAttempts → RandDraw N) (masks : Fin secPCom → ℤ) : Outcome UnknownOrderDl := do
  cbAssert (decide ((bitsCount w : ℤ) ≤ l))
  let gcdTest ← modMul false N a b
  let isCoprime ← coprimeMasked N gcdTest bins
  cbAssert isCoprime
  let R ← fillArray fun i => modPow N a (masks i)
  let e := List.ofFn (O ⟨a, b, N, l, R, sid, aux⟩)
  .ok ⟨e, fun i => if bitsGet e i then masks i + w else masks i⟩

/-- The checks of one response. -/
def checkResponse (l z : ℤ) : Outcome Unit := do
  require (decide (0 ≤ z)) .crypto
  require (decide ((bitsCount z : ℤ) ≤ l + secPStat + 2)) .crypto

/-- `R[i] * b_inv` inside `MODULO(N)`, where the challenge bit is set. -/
def dlUnmask (N : ℕ) (bInv az : ℤ) (bit : Bool) : Outcome ℤ :=
  if bit then modMul true N az bInv else .ok az

/-- The commitment that `verify` computes from one response. -/
def dlCommitment (N : ℕ) (a bInv z : ℤ) (bit : Bool) : Outcome ℤ := do
  let az ← modPow N a z
  dlUnmask N bInv az bit

/-- The loop body of `verify`. -/
def dlStep (N : ℕ) (a bInv : ℤ) (pf : UnknownOrderDl) (RTag : ℤ)
    (i : Fin secPCom) : Outcome (ℤ × ℤ) := do
  let R ← dlCommitment N a bInv (pf.z i) (bitsGet pf.e i)
  let RTag ← modMul true N RTag R
  .ok (RTag, R)

/-- `unknown_order_dl_t::verify`. -/
def unknownOrderVerify (O : DlOracle) (a b : ℤ) (N : ℕ) (l : ℤ) (sid : List (Fin 256))
    (aux : ℕ) (pf : UnknownOrderDl) :
    Outcome Unit := do
  require (decide (0 < l)) .crypto
  require (decide (pf.e.length = bitsToBytes secPCom)) .crypto
  checkOpenRange 0 b N
  let bCoprime ← coprime true b N
  require bCoprime .crypto
  forEach (fun i => checkResponse l (pf.z i)) (List.finRange secPCom)
  let gcdTest ← modMul true N a b
  let abCoprime ← coprime true gcdTest N
  require abCoprime .crypto
  let bInv ← modInv N b
  let ab ← modMul true N a b
  let r ← loopArray (dlStep N a bInv pf) ab
  require (decide (pf.e = List.ofFn (O ⟨a, b, N, l, r.2, sid, aux⟩))) .crypto
  let tagCoprime ← coprime true r.1 N
  require tagCoprime .crypto

/-- What `dlCommitment` computes. -/
def dlRow (N : ℕ) (a bInv z : ℤ) (bit : Bool) : ℤ :=
  if bit then a ^ z.toNat % N * bInv % N else a ^ z.toNat % N

variable {N : ℕ}

theorem checkResponse_ok_iff {l z : ℤ} :
    checkResponse l z = .ok () ↔ 0 ≤ z ∧ (bitsCount z : ℤ) ≤ l + secPStat + 2 := by
  rw [checkResponse, require_bind_ok_iff, require_ok_iff, decide_eq_true_iff, decide_eq_true_iff]

/-- A number of `n` bits is below `2 ^ n`. -/
theorem lt_of_bitsCount {z : ℤ} {n : ℕ} (h : bitsCount z ≤ n) : |z| < 2 ^ n := by
  have hlt := Nat.size_le.mp h
  rw [Int.abs_eq_natAbs]
  exact_mod_cast hlt

theorem dlCommitment_eq (a bInv : ℤ) {z : ℤ} (hz : 0 ≤ z) (bit : Bool) :
    dlCommitment N a bInv z bit = .ok (dlRow N a bInv z bit) := by
  rw [dlCommitment, modPow_eq _ hz, ok_bind]
  cases bit <;> rfl

theorem cast_dlRow (a bInv z : ℤ) (bit : Bool) :
    ((dlRow N a bInv z bit : ℤ) : ZMod N) = (a : ZMod N) ^ z.toNat * if bit then
      (bInv : ZMod N) else 1 := by
  cases bit <;> simp [dlRow]

theorem dlLoop_eq (a bInv : ℤ) {pf : UnknownOrderDl} (hz : ∀ i, 0 ≤ pf.z i) (start : ℤ) :
    loopArray (dlStep N a bInv pf) start =
      .ok ((List.finRange _).foldl (fun prod i =>
        prod * dlRow N a bInv (pf.z i) (bitsGet pf.e i) % N) start,
        fun i => dlRow N a bInv (pf.z i) (bitsGet pf.e i)) := by
  refine loopArray_eq (fun acc i => ?_) start
  simp only [dlStep, dlCommitment_eq _ _ (hz i), ok_bind, modMul, modOp, if_true]

/-- What an accepted proof has passed. -/
theorem unknownOrderVerify_ok {O : DlOracle} {a b l : ℤ} {sid : List (Fin 256)}
    {aux : ℕ} {pf : UnknownOrderDl} (h : unknownOrderVerify O a b N l sid aux pf = .ok ()) :
    0 < l ∧ (0 < b ∧ b < N) ∧ Int.gcd a N = 1 ∧ ∃ bInv, modInv N b = .ok bInv ∧
      ∀ i, 0 ≤ pf.z i ∧ (bitsCount (pf.z i) : ℤ) ≤ l + secPStat + 2 := by
  unfold unknownOrderVerify at h
  obtain ⟨hl, h⟩ := require_bind_ok_iff.mp h
  obtain ⟨-, h⟩ := require_bind_ok_iff.mp h
  obtain ⟨⟨⟩, hrange, h⟩ := bind_ok_iff.mp h
  rw [coprime, if_pos rfl, ok_bind] at h
  obtain ⟨-, h⟩ := require_bind_ok_iff.mp h
  obtain ⟨⟨⟩, hz, h⟩ := bind_ok_iff.mp h
  rw [modMul, modOp, if_pos rfl, ok_bind, coprime, if_pos rfl, ok_bind] at h
  obtain ⟨hab, h⟩ := require_bind_ok_iff.mp h
  obtain ⟨bInv, hbInv, -⟩ := bind_ok_iff.mp h
  rw [decide_eq_true_iff] at hl hab
  rw [checkOpenRange, require_ok_iff, decide_eq_true_iff] at hrange
  rw [Int.gcd_emod, ← Int.isCoprime_iff_gcd_eq_one, IsCoprime.mul_left_iff,
    Int.isCoprime_iff_gcd_eq_one] at hab
  exact ⟨hl, by omega, hab.1, bInv, hbInv, fun i =>
    checkResponse_ok_iff.mp (forEach_ok_iff.mp hz i (List.mem_finRange i))⟩

/-- The response to a set bit opens the commitment to its mask. -/
theorem dlRow_response {a b w bInv : ℤ} (hN : 0 < N) (hw : 0 ≤ w) (hb : b = a ^ w.toNat % N)
    (hone : (b : ZMod N) * bInv = 1) {mask : ℤ} (hmask : 0 ≤ mask) (bit : Bool) :
    dlRow N a bInv (if bit then mask + w else mask) bit = a ^ mask.toNat % N := by
  cases bit with
  | false => rfl
  | true =>
    refine eq_of_isInRange (isInRange_emod hN _) (isInRange_emod hN _) ?_
    have haw : (a : ZMod N) ^ w.toNat = b := by rw [hb, cast_emod, Int.cast_pow]
    rw [if_pos rfl, cast_dlRow, if_pos rfl, cast_emod, Int.cast_pow, Int.toNat_add hmask hw,
      pow_add, haw, mul_assoc, hone, mul_one]

theorem gcd_dlRow {a bInv : ℤ} (ha : Int.gcd a N = 1)
    (hb : Int.gcd bInv N = 1) (z : ℤ) (bit : Bool) :
    Int.gcd (dlRow N a bInv z bit) N = 1 := by
  have hpow : IsCoprime (a ^ z.toNat) (N : ℤ) := (Int.isCoprime_iff_gcd_eq_one.mpr ha).pow_left
  cases bit with
  | false =>
    change Int.gcd (a ^ z.toNat % N) N = 1
    rw [Int.gcd_emod]
    exact Int.isCoprime_iff_gcd_eq_one.mp hpow
  | true =>
    change Int.gcd (a ^ z.toNat % N * bInv % N) N = 1
    rw [Int.gcd_emod, ← Int.isCoprime_iff_gcd_eq_one, IsCoprime.mul_left_iff,
      Int.isCoprime_iff_gcd_eq_one, Int.gcd_emod, ← Int.isCoprime_iff_gcd_eq_one]
    exact ⟨hpow, Int.isCoprime_iff_gcd_eq_one.mpr hb⟩

theorem bitsCount_add_le {l z w : ℤ} (hl : 0 < l) (hz : 0 ≤ z)
    (hzl : (bitsCount z : ℤ) ≤ l + secPStat + 1) (hw : 0 ≤ w) (hwl : w < 2 ^ l.toNat) :
    (bitsCount (z + w) : ℤ) ≤ l + secPStat + 2 := by
  generalize secPStat = s at *
  obtain ⟨k, rfl⟩ := Int.eq_ofNat_of_zero_le hl.le
  have hbound := lt_of_bitsCount (z := z) (n := k + s + 1) (by exact_mod_cast hzl)
  rw [abs_of_nonneg hz] at hbound
  have hmono : (2 : ℤ) ^ k ≤ 2 ^ (k + s + 1) := pow_le_pow_right₀ (by norm_num) (by omega)
  rw [Int.toNat_natCast] at hwl
  have hsum : z + w < 2 ^ (k + s + 2) := by
    rw [pow_succ (2 : ℤ) (k + s + 1)]
    omega
  have hsize : (z + w).natAbs.size ≤ k + s + 2 := by
    refine Nat.size_le.mpr ?_
    have habs : ((z + w).natAbs : ℤ) = z + w := Int.natAbs_of_nonneg (by omega)
    have h : ((z + w).natAbs : ℤ) < 2 ^ (k + s + 2) := habs ▸ hsum
    exact_mod_cast h
  unfold bitsCount
  omega

/-- Every honest proof is accepted, whatever the challenge is. -/
theorem unknownOrder_complete (hodd : N % 2 = 1) (h3 : 3 ≤ bnTop N)
    {bins : Fin maxAttempts → RandDraw N} (hunit : ∃ i, Nat.Coprime (bins i).val N) {a b l w : ℤ}
    (ha : 0 < a ∧ a < N) (hb : 0 < b ∧ b < N) (hag : Int.gcd a N = 1) (hbg : Int.gcd b N = 1)
    (hl : 0 < l) (hw : 0 ≤ w ∧ w < 2 ^ l.toNat) (hbw : b = a ^ w.toNat % N)
    {masks : Fin secPCom → ℤ}
    (hmasks : ∀ i, 0 ≤ masks i ∧ (bitsCount (masks i) : ℤ) ≤ l + secPStat + 1) (O : DlOracle)
    (sid : List (Fin 256)) (aux : ℕ) :
    ∃ pf, unknownOrderProve O a b N l w sid aux bins masks = .ok pf ∧
    unknownOrderVerify O a b N l sid aux pf = .ok () := by
  have hN : 0 < N := by omega
  obtain ⟨bInv, hbInv, hbR, hone⟩ := modInv_of_gcd hN hbg
  have habg : Int.gcd (a * b % N) N = 1 := by
    rw [Int.gcd_emod, ← Int.isCoprime_iff_gcd_eq_one]
    exact (Int.isCoprime_iff_gcd_eq_one.mpr hag).mul_left (Int.isCoprime_iff_gcd_eq_one.mpr hbg)
  have hinvg : Int.gcd bInv N = 1 := by
    rw [← Int.isCoprime_iff_gcd_eq_one, isCoprime_comm, ← ZMod.coe_int_isUnit_iff_isCoprime]
    exact IsUnit.of_mul_eq_one _ ((mul_comm _ _).trans hone)
  have hwbits : (bitsCount w : ℤ) ≤ l := by
    have hsize : w.natAbs.size ≤ l.toNat := by
      refine Nat.size_le.mpr ?_
      have h : (w.natAbs : ℤ) < 2 ^ l.toNat := (Int.natAbs_of_nonneg hw.1).symm ▸ hw.2
      exact_mod_cast h
    unfold bitsCount
    omega
  let R : Fin secPCom → ℤ := fun i => a ^ (masks i).toNat % N
  let e := List.ofFn (O ⟨a, b, N, l, R, sid, aux⟩)
  let z : Fin secPCom → ℤ := fun i => if bitsGet e i then masks i + w else masks i
  have hR : (fillArray fun i => modPow N a (masks i)) = .ok R := fillArray_eq fun i =>
    modPow_eq a (hmasks i).1
  have hrow : (fun i => dlRow N a bInv (z i) (bitsGet e i)) = R := funext fun i =>
    dlRow_response hN hw.1 hbw hone (hmasks i).1 (bitsGet e i)
  have hz : ∀ i, 0 ≤ z i ∧ (bitsCount (z i) : ℤ) ≤ l + secPStat + 2 := by
    intro i
    obtain ⟨h0, hbits⟩ := hmasks i
    by_cases hbit : bitsGet e i = true
    · simp only [z, if_pos hbit]
      exact ⟨by omega, bitsCount_add_le hl h0 hbits hw.1 hw.2⟩
    · simp only [z, if_neg hbit]
      exact ⟨h0, by omega⟩
  have htag : Int.gcd ((List.finRange secPCom).foldl
      (fun prod i => prod * dlRow N a bInv (z i) (bitsGet e i) % N) (a * b % N)) N = 1 :=
    (gcd_foldl_mul_emod_iff _ _ _).mpr ⟨habg, fun i _ => gcd_dlRow hag hinvg _ _⟩
  have habR : isInRange N (a * b % N) = true := isInRange_emod hN _
  refine ⟨⟨e, z⟩, ?_, ?_⟩
  · rw [unknownOrderProve, decide_eq_true hwbits, cbAssert_true, ok_bind, modMul,
      modOp_eq_emod _ _ ((isInRange_iff _).mpr ⟨ha.1.le, ha.2⟩)
        ((isInRange_iff _).mpr ⟨hb.1.le, hb.2⟩), ok_bind, coprimeMasked_eq hodd h3 _ hunit, coprime,
      if_neg Bool.false_ne_true, modReduce_of_isInRange habR, ok_bind, ok_bind,
      decide_eq_true ⟨h3, habg⟩, cbAssert_true, ok_bind, hR, ok_bind]
  · have hchecks : forEach (fun i => checkResponse l (z i)) (List.finRange secPCom) = .ok () :=
      forEach_ok_iff.mpr fun i _ => checkResponse_ok_iff.mpr (hz i)
    have hloop := @dlLoop_eq N a bInv ⟨e, z⟩ (fun i => (hz i).1) (a * b % N)
    rw [unknownOrderVerify, decide_eq_true hl, require_true, ok_bind,
      decide_eq_true List.length_ofFn, require_true, ok_bind, checkOpenRange_ok_iff.mpr hb, ok_bind,
      coprime, if_pos rfl, ok_bind, decide_eq_true hbg, require_true, ok_bind, hchecks,
      ok_bind, modMul, modOp, if_pos rfl, ok_bind, coprime, if_pos rfl, ok_bind,
      decide_eq_true habg, require_true, ok_bind, hbInv, ok_bind, ok_bind, hloop, ok_bind, hrow,
      decide_eq_true rfl, require_true, ok_bind, coprime, if_pos rfl, ok_bind,
      decide_eq_true htag, require_true]

/-- Two responses to one commitment under different challenge bits differ by a discrete
logarithm. -/
theorem unknownOrder_extract {O O' : DlOracle} {a b l : ℤ} {sid sid' : List (Fin 256)}
    {aux aux' : ℕ} {pf pf' : UnknownOrderDl} (h : unknownOrderVerify O a b N l sid aux pf = .ok ())
    (h' : unknownOrderVerify O' a b N l sid' aux' pf' = .ok ()) {i : Fin secPCom}
    (hrow : ∀ bInv, modInv N b = .ok bInv → dlCommitment N a bInv (pf.z i) (bitsGet pf.e i) =
      dlCommitment N a bInv (pf'.z i) (bitsGet pf'.e i)) (hne : bitsGet pf.e i ≠ bitsGet pf'.e i) :
    ∃ (u : (ZMod N)ˣ) (w : ℤ), (u : ZMod N) = a ∧ |w| < 2 ^ (l + secPStat + 2).toNat ∧
    ((u ^ w : (ZMod N)ˣ) : ZMod N) = b := by
  obtain ⟨hl, hb, ha, bInv, hbInv, hz⟩ := unknownOrderVerify_ok h
  obtain ⟨-, -, -, -, -, hz'⟩ := unknownOrderVerify_ok h'
  have hN : 0 < N := by omega
  obtain ⟨-, hone⟩ := modInv_ok hN hbInv
  have hrow := hrow bInv hbInv
  rw [dlCommitment_eq _ _ (hz i).1, dlCommitment_eq _ _ (hz' i).1] at hrow
  have hcast := congrArg (fun x : ℤ => (x : ZMod N)) (Except.ok.inj hrow)
  simp only [cast_dlRow] at hcast
  have hbound : ∀ {z : ℤ}, 0 ≤ z ∧ (bitsCount z : ℤ) ≤ l + secPStat + 2 →
      z < 2 ^ (l + secPStat + 2).toNat := by
    intro z h
    have hlt := lt_of_bitsCount (z := z) (n := (l + secPStat + 2).toNat) (by omega)
    rwa [abs_of_nonneg h.1] at hlt
  have hlt := hbound (hz i)
  have hlt' := hbound (hz' i)
  have h0 := (hz i).1
  have h0' := (hz' i).1
  generalize pf.z i = z at *
  generalize pf'.z i = z' at *
  let u := ZMod.unitOfIsCoprime a (Int.isCoprime_iff_gcd_eq_one.mpr ha)
  have hu : ∀ {z : ℤ}, 0 ≤ z → ((u ^ z : (ZMod N)ˣ) : ZMod N) = (a : ZMod N) ^ z.toNat := by
    intro z h
    obtain ⟨k, rfl⟩ := Int.eq_ofNat_of_zero_le h
    rw [zpow_natCast, Units.val_pow_eq_pow_val, Int.toNat_natCast]
    rfl
  -- The response under the set bit opens `b` times what the other one opens.
  have hquot : ∀ {x y : ℤ}, 0 ≤ x → 0 ≤ y → (a : ZMod N) ^ x.toNat * bInv = (a : ZMod N) ^ y.toNat →
      ((u ^ (x - y) : (ZMod N)ˣ) : ZMod N) = b := by
    intro x y hx hy hxy
    rw [zpow_sub, Units.val_mul, hu hx]
    have hinv : ((u ^ y : (ZMod N)ˣ) : ZMod N) = (a : ZMod N) ^ x.toNat * bInv :=
      (hu hy).trans hxy.symm
    rw [Units.mul_inv_eq_iff_eq_mul, hinv]
    linear_combination -(a : ZMod N) ^ x.toNat * hone
  cases hbit : bitsGet pf.e i with
  | false =>
    rw [hbit] at hne
    rw [hbit, Bool.eq_true_of_not_eq_false (Ne.symm hne)] at hcast
    refine ⟨u, z' - z, rfl, ?_, hquot h0' h0 (by simpa using hcast.symm)⟩
    rw [abs_lt]
    constructor <;> omega
  | true =>
    rw [hbit] at hne
    rw [hbit, Bool.eq_false_of_not_eq_true (Ne.symm hne)] at hcast
    refine ⟨u, z - z', rfl, ?_, hquot h0 h0' (by simpa using hcast)⟩
    rw [abs_lt]
    constructor <;> omega

theorem zero_unknownOrder_sound (N : ℕ) :
    ((∀ p, p.Prime → p ∣ N → paillierAlpha < p) →
      (∀ r : ℤ, 0 < r ∧ r < N → Int.gcd r N = 1 → ∀ rho : Fin nonInteractiveReps → ℤ,
        (∀ i, IsUnitMod N (rho i)) →
        ∀ (O : ZeroOracle) (flags : ZeroFlags),
          flags.paillierValidKey ≠ .unverified → ∀ sessionId aux,
          ∃ pf flags', paillierZeroProve O true N (r ^ N % (N * N : ℕ)) r
            sessionId aux rho = .ok pf ∧
            paillierZeroVerify O flags N (r ^ N % (N * N : ℕ)) sessionId aux pf = .ok flags') ∧
      (∀ c d z z' a : ℤ, modInv (N * N) c = .ok d → Int.gcd z N = 1 → Int.gcd z' N = 1 →
        ∀ ei ei' : ℕ, ei < 2 ^ logAlpha → ei' < 2 ^ logAlpha → ei ≠ ei' →
          zeroCommitment N d z ei = .ok a → zeroCommitment N d z' ei' = .ok a →
          ∃ w : ℤ, Int.gcd w N = 1 ∧ w ^ N ≡ c [ZMOD (N * N : ℕ)]) ∧
      ∀ (O O' : ZeroOracle) (flags flags₁ flags' flags₁' : ZeroFlags) (c : ℤ) sessionId sessionId'
        aux aux' (pf pf' : PaillierZero),
        paillierZeroVerify O flags N c sessionId aux pf = .ok flags₁ →
        paillierZeroVerify O' flags' N c sessionId' aux' pf' = .ok flags₁' →
        ∀ i : Fin nonInteractiveReps, getLogAlphaBits pf.e i ≠ getLogAlphaBits pf'.e i →
          (∀ d, modInv (N * N) c = .ok d →
            zeroCommitment N d (pf.z i) (getLogAlphaBits pf.e i) =
              zeroCommitment N d (pf'.z i) (getLogAlphaBits pf'.e i)) →
          ∃ w : ℤ, Int.gcd w N = 1 ∧ w ^ N ≡ c [ZMOD (N * N : ℕ)]) ∧
    (N % 2 = 1 → 2 ^ 128 ≤ N → ∀ a b l w : ℤ, 0 < a ∧ a < N → 0 < b ∧ b < N → Int.gcd a N = 1 →
      Int.gcd b N = 1 → 0 < l →
      0 ≤ w ∧ w < 2 ^ l.toNat → b = a ^ w.toNat % N →
      ∀ bins : Fin maxAttempts → RandDraw N, (∃ i, Nat.Coprime (bins i).val N) →
        ∀ masks : Fin secPCom → ℤ,
        (∀ i, 0 ≤ masks i ∧ (bitsCount (masks i) : ℤ) ≤ l + secPStat + 1) →
          ∀ (O : DlOracle) sid aux,
          ∃ pf, unknownOrderProve O a b N l w sid aux bins masks = .ok pf ∧
            unknownOrderVerify O a b N l sid aux pf = .ok ()) ∧
    ∀ (O O' : DlOracle) (a b l : ℤ) sid sid' aux aux' (pf pf' : UnknownOrderDl),
      unknownOrderVerify O a b N l sid aux pf = .ok () →
      unknownOrderVerify O' a b N l sid' aux' pf' = .ok () →
      ∀ i : Fin secPCom, (∀ bInv, modInv N b = .ok bInv →
          dlCommitment N a bInv (pf.z i) (bitsGet pf.e i) =
            dlCommitment N a bInv (pf'.z i) (bitsGet pf'.e i)) →
        bitsGet pf.e i ≠ bitsGet pf'.e i →
        ∃ (u : (ZMod N)ˣ) (w : ℤ), (u : ZMod N) = a ∧ |w| < 2 ^ (l + secPStat + 2).toNat ∧
          ((u ^ w : (ZMod N)ˣ) : ZMod N) = b := by
  refine ⟨fun hprimes => ⟨?_, ?_, ?_⟩, ?_, ?_⟩
  · intro r hr hgcd rho hrho O flags hkey sessionId aux
    exact paillierZero_complete hprimes hr hgcd hrho O hkey sessionId aux
  · intro c d z z' a hd hz hz' ei ei' hei hei' hne h h'
    exact zero_root hprimes hd hz hz' hei hei' hne h h'
  · intro O O' flags flags₁ flags' flags₁' c sessionId sessionId' aux aux' pf pf' h h' i hne hrow
    obtain ⟨d, hd, hz, -⟩ := paillierZeroVerify_ok h
    obtain ⟨-, -, hz', -⟩ := paillierZeroVerify_ok h'
    have hrow := hrow d hd
    rw [zeroCommitment_eq] at hrow
    exact zero_root hprimes hd (hz i) (hz' i) (Nat.mod_lt _ (by decide))
      (Nat.mod_lt _ (by decide)) hne
      (zeroCommitment_eq _ _ _) hrow.symm
  · intro hodd hmin a b l w ha hb hag hbg hl hw hbw bins hunit masks hmasks O sid aux
    exact unknownOrder_complete hodd (three_le_bnTop_iff.mpr hmin) hunit ha hb hag hbg
      hl hw hbw hmasks O sid aux
  · intro O O' a b l sid sid' aux aux' pf pf' h h' i hrow hne
    exact unknownOrder_extract h h' hrow hne

theorem zero_unknownOrder_sound_sample :
    (∃ pf flags, paillierZeroProve (fun _ _ => 1) true samplePaillierKey.N
        (2 ^ samplePaillierKey.N % (samplePaillierKey.N * samplePaillierKey.N : ℕ)) 2 []
          0 (fun _ => 2) = .ok pf ∧
      paillierZeroVerify (fun _ _ => 1) ⟨.skip, .unverified, .unverified⟩ samplePaillierKey.N
        (2 ^ samplePaillierKey.N % (samplePaillierKey.N * samplePaillierKey.N : ℕ)) [] 0 pf =
          .ok flags) ∧
    ∃ pf, unknownOrderProve (fun _ _ => 1) 2 8 samplePaillierKey.N 5 3 [] 0
      (sampleDraws _) (fun _ => 7) = .ok pf ∧
      unknownOrderVerify (fun _ _ => 1) 2 8 samplePaillierKey.N 5 [] 0 pf = .ok () := by
  have hmin := three_le_bnTop_iff.mp samplePaillierKey.updates.three_le_bnTop
  have hodd := samplePaillierKey.odd_N
  obtain ⟨hrange, htwo⟩ := isUnitMod_two (by omega) hodd
  have height : Int.gcd 8 samplePaillierKey.N = 1 := by
    have hpow := (Int.isCoprime_iff_gcd_eq_one.mpr htwo).pow_left (m := 3)
    exact Int.isCoprime_iff_gcd_eq_one.mp (by norm_num at hpow; exact hpow)
  have hpow : (8 : ℤ) = 2 ^ (3 : ℤ).toNat % samplePaillierKey.N := by
    rw [show (3 : ℤ).toNat = 3 by rfl, show (2 : ℤ) ^ 3 = 8 by norm_num,
      Int.emod_eq_of_lt (by norm_num) (by omega)]
  obtain ⟨hzero, hdl, -⟩ := zero_unknownOrder_sound samplePaillierKey.N
  constructor
  · exact (hzero fun _ => alpha_lt_factor).1 2 ⟨by norm_num, by omega⟩ htwo (fun _ => 2)
      (fun _ => ⟨hrange, htwo⟩)
      (fun _ _ => 1) ⟨.skip, .unverified, .unverified⟩ (by decide) [] 0
  · exact hdl hodd hmin 2 8 5 3 ⟨by norm_num, by omega⟩ ⟨by norm_num, by omega⟩ htwo height
      (by norm_num) (by decide)
      hpow _ (exists_coprime_sampleDraws _) (fun _ => 7)
      (fun _ => ⟨by decide, by decide⟩) (fun _ _ => 1) [] 0

/-- For every shorter modulus there are draws on which the prover takes units for numbers with a
common factor. -/
theorem exists_unknownOrderProve_ne (hodd : N % 2 = 1) (hN : N < 2 ^ 128) :
    ∃ bins : Fin maxAttempts → RandDraw N,
    ∀ (O : DlOracle) (a b l w : ℤ) sid aux masks pf,
      unknownOrderProve O a b N l w sid aux bins masks ≠ .ok pf := by
  obtain ⟨bins, hbins⟩ := exists_randomMaskingInv_throws hodd hN
  refine ⟨bins, fun O a b l w sid aux masks pf h => ?_⟩
  obtain ⟨-, h⟩ := cbAssert_bind_ok_iff.mp h
  obtain ⟨gcdTest, -, h⟩ := bind_ok_iff.mp h
  obtain ⟨isCoprime, hcop, h⟩ := bind_ok_iff.mp h
  obtain ⟨aMod, -, hcop⟩ := bind_ok_iff.mp hcop
  obtain ⟨htrue, -⟩ := cbAssert_bind_ok_iff.mp h
  rw [hbins] at hcop
  rw [htrue] at hcop
  exact absurd (Except.ok.inj hcop) Bool.false_ne_true

/-- The numbers `2` and `8` are units modulo `15`, and `8` is the third power of `2`. -/
theorem unknownOrderProve_fifteen :
    (0 < (2 : ℤ) ∧ (2 : ℤ) < 15) ∧ (0 < (8 : ℤ) ∧ (8 : ℤ) < 15) ∧ Int.gcd 2 15 = 1 ∧
    Int.gcd 8 15 = 1 ∧ (0 ≤ (3 : ℤ) ∧ (3 : ℤ) < 2 ^ 2) ∧ (8 : ℤ) = 2 ^ 3 % 15 ∧
    ∃ bins : Fin maxAttempts → RandDraw 15, ∀ (O : DlOracle) sid aux masks pf,
      unknownOrderProve O 2 8 15 2 3 sid aux bins masks ≠ .ok pf := by
  obtain ⟨bins, hbins⟩ := exists_unknownOrderProve_ne (N := 15) (by norm_num) (by norm_num)
  exact ⟨by norm_num, by norm_num, by decide, by decide, by norm_num, by norm_num, bins,
    fun O => hbins O 2 8 2 3⟩

end CbMpc
