import CbMpc.Curve
import CbMpc.Bytes

/-!
# ECDSA signatures

The digest of a message enters as an integer that is cut to the size of the curve but
not reduced. `ossl_ecdsa_verify` computes with it outside a `vartime_scope_t`.
-/
namespace CbMpc

/-- What is read of the points and the signatures of a curve: its size in bytes, the
x-coordinate of a point, and the DER encoding of a signature. -/
structure EcdsaCurve (E : Type) where
  size : ℕ
  getX : E → ℤ
  toDer : ℤ × ℤ → List (Fin 256)
  fromDer : List (Fin 256) → Option (ℤ × ℤ)

/-- Opposite points have the same x-coordinate, and the encoding can be read back. -/
structure EcdsaCurve.Lawful (q : ℕ) {E : Type} [AddCommGroup E] (C : EcdsaCurve E) : Prop where
  getX_neg : ∀ P, C.getX (-P) = C.getX P
  fromDer_toDer : ∀ r s, isInRange q r = true → isInRange q s = true →
    C.fromDer (C.toDer (r, s)) = some (r, s)

/-- The smaller one of a scalar and its negation. -/
def lowS (q : ℕ) (s : ℤ) : ℤ := if q - s < s then q - s else s

theorem lowS_bounds {q : ℕ} {s : ℤ} (h : 0 < s ∧ s < q) :
    (0 < lowS q s ∧ lowS q s < q) ∧ lowS q s ≤ q / 2 := by
  unfold lowS
  split <;> omega

theorem lowS_le (q : ℕ) (s : ℤ) : lowS q s ≤ q / 2 := by
  unfold lowS
  split <;> omega

variable {q : ℕ} [hq : Fact q.Prime] {E : Type} [AddCommGroup E] [Module (ZMod q) E] [DecidableEq E]

/-- `curve_msg_to_bn`. -/
def curveMsgToBn (C : EcdsaCurve E) (msg : List (Fin 256)) : ℤ := fromBin (msg.take C.size)

/-- The point that the verifier recomputes. -/
def ecdsaPoint (curve : Curve q E) (Q : E) (e r s : ZMod q) : E :=
  (e / s) • curve.generator + (r / s) • Q

/-- The textbook verdict on the signature `(r, s)` for the digest value `e`. -/
def EcdsaValid (curve : Curve q E) (C : EcdsaCurve E) (Q : E) (e r s : ℤ) : Prop :=
  (0 < r ∧ r < q) ∧ (0 < s ∧ s < q) ∧ ecdsaPoint curve Q e r s ≠ 0 ∧
    C.getX (ecdsaPoint curve Q e r s) % q = r

instance (curve : Curve q E) (C : EcdsaCurve E) (Q : E) (e r s : ℤ) :
    Decidable (EcdsaValid curve C Q e r s) :=
  inferInstanceAs (Decidable (_ ∧ _ ∧ _ ∧ _))

/-- `ossl_ecdsa_verify`. -/
def osslEcdsaVerify (curve : Curve q E) (C : EcdsaCurve E) (Q : E)
    (hash sig : List (Fin 256)) : Outcome Unit :=
  match C.fromDer sig with
  | none => fail .format
  | some (r, s) => do
    require (decide (¬(r ≤ 0 ∨ r ≥ q ∨ s ≤ 0 ∨ s ≥ q))) .crypto
    let e := curveMsgToBn C hash
    let Q ← curveCheck false (.on Q)
    let w ← modInvCt q s
    let u1 ← modMul false q e w
    let u2 ← modMul false q r w
    let R := (u1 : ZMod q) • curve.generator + (u2 : ZMod q) • Q
    require (decide (R ≠ 0)) .crypto
    require (decide (C.getX R % q = r)) .crypto

theorem cast_lowS (s : ℤ) : (lowS q s : ZMod q) = s ∨ (lowS q s : ZMod q) = -s := by
  unfold lowS
  split
  · right
    simp
  · exact .inl rfl

theorem residue_pos {z : ZMod q} (hz : z ≠ 0) : 0 < residue z ∧ residue z < q := by
  have hrange := (isInRange_iff _).mp (isInRange_residue z)
  have hne : residue z ≠ 0 := fun h => hz (residue_eq_zero.mp h)
  omega

section

omit [DecidableEq E]

/-- With the nonce `k` the verifier recomputes the nonce's point. -/
theorem ecdsaPoint_eq (curve : Curve q E) {x k e r : ZMod q} (hk : k ≠ 0) (hs : e + r * x ≠ 0) :
    ecdsaPoint curve (x • curve.generator) e r ((e + r * x) / k) = k • curve.generator := by
  rw [ecdsaPoint, smul_smul, ← add_smul]
  congr 1
  field_simp

theorem ecdsaPoint_neg (curve : Curve q E) (Q : E) (e r s : ZMod q) :
    ecdsaPoint curve Q e r (-s) = -ecdsaPoint curve Q e r s := by
  simp only [ecdsaPoint, div_neg, neg_smul]
  abel

/-- The signature equation with the nonce `k`: normalising `s` turns the point round,
which its x-coordinate does not show. -/
theorem ecdsaValid_lowS {curve : Curve q E} {C : EcdsaCurve E}
    (hC : C.Lawful q) {x k : ZMod q} {e : ℤ} (hk : k ≠ 0)
    (hr : (C.getX (k • curve.generator) : ZMod q) ≠ 0)
    (hs : (e : ZMod q) + (C.getX (k • curve.generator) : ZMod q) * x ≠ 0) :
    EcdsaValid curve C (x • curve.generator) e (C.getX (k • curve.generator) % q)
      (lowS q (residue (((e : ZMod q) + (C.getX (k • curve.generator) : ZMod q) * x) / k))) := by
  have hrr : C.getX (k • curve.generator) % q = residue (C.getX (k • curve.generator) : ZMod q) :=
    emod_eq_residue _
  generalize hw : (C.getX (k • curve.generator) : ZMod q) = r at *
  have hpoint : ∀ z : ZMod q, z = ((e : ZMod q) + r * x) / k ∨ z = -(((e : ZMod q) + r * x) / k) →
      ecdsaPoint curve (x • curve.generator) e r z = k • curve.generator ∨
        ecdsaPoint curve (x • curve.generator) e r z = -(k • curve.generator) := by
    rintro z (rfl | rfl)
    · exact .inl (ecdsaPoint_eq curve hk hs)
    · rw [ecdsaPoint_neg, ecdsaPoint_eq curve hk hs]
      exact .inr rfl
  have hcast := cast_lowS (q := q) (residue (((e : ZMod q) + r * x) / k))
  rw [cast_residue] at hcast
  have hne : k • curve.generator ≠ 0 := fun h => hk ((smul_generator_eq_zero curve).mp h)
  rw [hrr]
  refine ⟨residue_pos hr, (lowS_bounds (residue_pos (div_ne_zero hs hk))).1, ?_⟩
  rw [cast_residue]
  rcases hpoint _ hcast with h | h
  · rw [h]
    exact ⟨hne, hrr⟩
  · rw [h, hC.getX_neg]
    exact ⟨neg_ne_zero.mpr hne, hrr⟩

end

/-- On a digest value below the order the verifier gives the textbook verdict. -/
theorem osslEcdsaVerify_of_lt {curve : Curve q E} {C : EcdsaCurve E} {Q : E} (hQ : Q ≠ 0)
    {hash sig : List (Fin 256)} {r s : ℤ} (hsig : C.fromDer sig = some (r, s))
    (he : curveMsgToBn C hash < q) :
    osslEcdsaVerify curve C Q hash sig =
      require (decide (EcdsaValid curve C Q (curveMsgToBn C hash) r s)) .crypto := by
  by_cases hb : (0 < r ∧ r < q) ∧ 0 < s ∧ s < q
  · have hrange : ¬(r ≤ 0 ∨ r ≥ q ∨ s ≤ 0 ∨ s ≥ q) := by omega
    have hr : isInRange q r = true := (isInRange_iff r).mpr ⟨by omega, by omega⟩
    have hs : isInRange q s = true := (isInRange_iff s).mpr ⟨by omega, by omega⟩
    have hcurve : isInRange q (curveMsgToBn C hash) = true :=
      (isInRange_iff _).mpr ⟨Int.natCast_nonneg _, he⟩
    have hsne : (s : ZMod q) ≠ 0 := by
      intro h
      have hzero : residue (s : ZMod q) = 0 := by rw [h, residue_zero]
      rw [← eq_residue_of_isInRange hs] at hzero
      omega
    have hinv : modInvCt q s = .ok (residue (s : ZMod q)⁻¹) := by
      have h := modInvCt_residue hsne
      rwa [← eq_residue_of_isInRange hs] at h
    have hu1 : modMul false q (curveMsgToBn C hash) (residue (s : ZMod q)⁻¹) =
        .ok (residue ((curveMsgToBn C hash : ZMod q) / (s : ZMod q))) := by
      rw [modMul, modOp_of_isInRange _ _ hcurve (isInRange_residue _)]
      simp [div_eq_mul_inv]
    have hu2 : modMul false q r (residue (s : ZMod q)⁻¹) =
        .ok (residue ((r : ZMod q) / (s : ZMod q))) := by
      rw [modMul, modOp_of_isInRange _ _ hr (isInRange_residue _)]
      simp [div_eq_mul_inv]
    simp only [osslEcdsaVerify, hsig, hrange, not_false_eq_true, decide_true, require_true, ok_bind,
      curveCheck, hQ, decide_false, Bool.and_false, Bool.false_eq_true, if_false, hinv, hu1, hu2,
      cast_residue]
    rw [show ((curveMsgToBn C hash : ZMod q) / (s : ZMod q)) • curve.generator +
      ((r : ZMod q) / (s : ZMod q)) • Q =
      ecdsaPoint curve Q (curveMsgToBn C hash) r s from rfl]
    by_cases hR : ecdsaPoint curve Q (curveMsgToBn C hash) r s = 0
    · simp [hR, EcdsaValid, require, fail]
    · simp [hR, EcdsaValid, hb]
  · have hrange : r ≤ 0 ∨ r ≥ q ∨ s ≤ 0 ∨ s ≥ q := by omega
    have hnot : ¬EcdsaValid curve C Q (curveMsgToBn C hash) r s := fun h => hb ⟨h.1, h.2.1⟩
    simp [osslEcdsaVerify, hsig, hrange, hnot, fail]

/-- A valid signature is accepted in its DER form. -/
theorem osslEcdsaVerify_toDer {curve : Curve q E} {C : EcdsaCurve E}
    (hC : C.Lawful q) {Q : E} (hQ : Q ≠ 0) {hash : List (Fin 256)} {r s : ℤ}
    (he : curveMsgToBn C hash < q) (hvalid : EcdsaValid curve C Q (curveMsgToBn C hash) r s) :
    osslEcdsaVerify curve C Q hash (C.toDer (r, s)) = .ok () := by
  have hr : isInRange q r = true := (isInRange_iff r).mpr ⟨hvalid.1.1.le, hvalid.1.2⟩
  have hs : isInRange q s = true := (isInRange_iff s).mpr ⟨hvalid.2.1.1.le, hvalid.2.1.2⟩
  rw [osslEcdsaVerify_of_lt hQ (hC.fromDer_toDer r s hr hs) he, decide_eq_true hvalid, require_true]

end CbMpc
