import CbMpc.Curve

/-!
# ElGamal commitments

A commitment is a pair of points. Every operation of `ec_elgamal_commitment_t` first asserts
that points of the curve are added in constant time, which is so on secp256k1 and on Ed25519
only. The assertion is off inside a `vartime_scope_t`, where the verifiers of the proofs work.
-/
namespace CbMpc

/-- `ec_elgamal_commitment_t`: `L` and `R`. -/
abbrev ElgCom (E : Type) := E × E

variable {q : ℕ} {E : Type} [AddCommGroup E] [Module (ZMod q) E]

/-- `cb_assert_elgamal_ct_curve`, with the `ct_add_support` of the three families. -/
def ctCurve (curve : Curve q E) : Outcome Unit := cbAssert (decide (curve.type ≠ .ossl))

/-- `ecurve_t::mul_add` outside a `vartime_scope_t`: `n * G + m * P`. -/
def Curve.mulAdd (curve : Curve q E) (n : ℤ) (P : E) (m : ℤ) : Outcome E :=
  match curve.type with
  | .ossl => .ok ((n : ZMod q) • curve.generator + (m : ZMod q) • P)
  | .bitcoin => do
    let nn ← modAdd false q n 0
    let mm ← modAdd false q m 0
    .ok ((nn : ZMod q) • curve.generator + (mm : ZMod q) • P)
  | .ed25519 => do
    let A ← curve.mulToGenerator n
    let B ← curve.mul m P
    .ok (A + B)

/-- `make_commitment`. -/
def makeCommitment (curve : Curve q E) (P : E) (m r : ℤ) : Outcome (ElgCom E) := do
  ctCurve curve
  let mm ← modReduce q m
  let rr ← modReduce q r
  let L ← curve.mulToGenerator rr
  let R ← curve.mulAdd mm P rr
  .ok (L, R)

/-- `operator+` of two commitments. -/
def elgAdd (curve : Curve q E) (a b : ElgCom E) : Outcome (ElgCom E) := do
  ctCurve curve
  .ok (a.1 + b.1, a.2 + b.2)

/-- `operator-` of two commitments. -/
def elgSub (curve : Curve q E) (a b : ElgCom E) : Outcome (ElgCom E) := do
  ctCurve curve
  .ok (a.1 - b.1, a.2 - b.2)

/-- `operator*` with a scalar. -/
def elgMul (curve : Curve q E) (s : ℤ) (a : ElgCom E) : Outcome (ElgCom E) := do
  ctCurve curve
  let L ← curve.mul s a.1
  let R ← curve.mul s a.2
  .ok (L, R)

/-- `rerand`, which randomizes a copy. -/
def elgRerand (curve : Curve q E) (P : E) (a : ElgCom E) (r : ℤ) : Outcome (ElgCom E) := do
  ctCurve curve
  let rr ← modReduce q r
  let A ← curve.mulToGenerator rr
  let B ← curve.mul rr P
  .ok (a.1 + A, a.2 + B)

/-- `SUM` of commitments, from the first one on. -/
def elgSum (curve : Curve q E) : List (ElgCom E) → Outcome (ElgCom E)
  | [] => .ok 0
  | a :: l => l.foldlM (elgAdd curve) a

/-- `c` commits to `m` under `P`. -/
def Commits (curve : Curve q E) (P : E) (m : ZMod q) (c : ElgCom E) : Prop :=
  ∃ r : ZMod q, c = (r • curve.generator, m • curve.generator + r • P)

/-- `c` is `a` times `b`, randomized afresh. -/
def Rerandomizes (curve : Curve q E) (P : E) (a : ZMod q) (b c : ElgCom E) : Prop :=
  ∃ r : ZMod q, c = a • b + (r • curve.generator, r • P)

/-- `A` is the point of the scalar that `c` commits to. -/
def PubShareEqual (curve : Curve q E) (P A : E) (c : ElgCom E) : Prop :=
  ∃ r : ZMod q, c = (r • curve.generator, A + r • P)

/-- What the owner of the secret `s` of the public key opens a commitment to. -/
def plain (s : ZMod q) (c : ElgCom E) : E := c.2 - s • c.1

section
variable {curve : Curve q E} {P : E}

omit [Module (ZMod q) E] in
theorem ctCurve_ok (h : curve.type ≠ .ossl) : ctCurve curve = .ok () := by simp [ctCurve, h]

omit [Module (ZMod q) E] in
theorem ctCurve_ossl (h : curve.type = .ossl) :
    ctCurve curve = throwing .assertionFailed := by simp [ctCurve, h, cbAssert]

theorem plain_add (s : ZMod q) (a b : ElgCom E) : plain s (a + b) = plain s a + plain s b := by
  simp only [plain, Prod.fst_add, Prod.snd_add, smul_add]
  abel

theorem plain_sub (s : ZMod q) (a b : ElgCom E) : plain s (a - b) = plain s a - plain s b := by
  simp only [plain, Prod.fst_sub, Prod.snd_sub, smul_sub]
  abel

theorem plain_smul (s t : ZMod q) (a : ElgCom E) : plain s (t • a) = t • plain s a := by
  simp only [plain, Prod.smul_fst, Prod.smul_snd, smul_sub, smul_smul, mul_comm]

theorem plain_sum {n : ℕ} (s : ZMod q) (f : Fin n → ElgCom E) :
    plain s (∑ i, f i) = ∑ i, plain s (f i) := by
  simp only [plain, Prod.fst_sum, Prod.snd_sum, Finset.smul_sum, Finset.sum_sub_distrib]

/-- The randomness of a commitment does not show to the owner of the key. -/
theorem plain_mask (s r : ZMod q) :
    plain s (r • curve.generator, r • (s • curve.generator)) = 0 := by
  simp only [plain, smul_smul, mul_comm r, sub_self]

theorem Commits.plain {m s : ZMod q} {c : ElgCom E} (h : Commits curve (s • curve.generator) m c) :
    plain s c = m • curve.generator := by
  obtain ⟨r, rfl⟩ := h
  have hsplit : ((r • curve.generator, m • curve.generator + r • s • curve.generator) : ElgCom E) =
      (0, m • curve.generator) + (r • curve.generator, r • s • curve.generator) := by simp
  rw [hsplit, plain_add, plain_mask, add_zero]
  simp [CbMpc.plain]

theorem Rerandomizes.plain {a s : ZMod q} {b c : ElgCom E}
    (h : Rerandomizes curve (s • curve.generator) a b c) :
    plain s c = a • plain s b := by
  obtain ⟨r, rfl⟩ := h
  rw [plain_add, plain_mask, add_zero, plain_smul]

theorem PubShareEqual.plain {A : E} {s : ZMod q} {c : ElgCom E}
    (h : PubShareEqual curve (s • curve.generator) A c) :
    plain s c = A := by
  obtain ⟨r, rfl⟩ := h
  simp only [CbMpc.plain, smul_smul, mul_comm r, add_sub_cancel_right]

section
omit [Module (ZMod q) E]

theorem elgSum_eq (h : curve.type ≠ .ossl) (l : List (ElgCom E)) : elgSum curve l = .ok l.sum := by
  have hloop : ∀ (l : List (ElgCom E)) (a : ElgCom E),
      l.foldlM (elgAdd curve) a = .ok (a + l.sum) := by
    intro l
    induction l with
    | nil =>
      intro a
      simp
      rfl
    | cons b l ih =>
      intro a
      rw [List.foldlM_cons, elgAdd, ctCurve_ok h]
      simp only [ok_bind]
      rw [ih, List.sum_cons, ← add_assoc]
      rfl
  cases l with
  | nil => rfl
  | cons a l => exact hloop l a

theorem elgSub_eq (h : curve.type ≠ .ossl) (a b : ElgCom E) : elgSub curve a b = .ok (a - b) := by
  simp only [elgSub, ctCurve_ok h, ok_bind]
  rfl

/-- Outside the assertion a sum of two commitments is the sum of their points. -/
theorem elgAdd_ok {a b c : ElgCom E} (h : elgAdd curve a b = .ok c) : c = a + b := by
  obtain ⟨-, -, h⟩ := bind_ok_iff.mp h
  cases h
  rfl

end

end

variable [hq : Fact q.Prime]

theorem elgMul_ok {curve : Curve q E} {s : ℤ} {a c : ElgCom E} (h : elgMul curve s a = .ok c) :
    c = (s : ZMod q) • a := by
  obtain ⟨-, -, h⟩ := bind_ok_iff.mp h
  obtain ⟨L, hL, h⟩ := bind_ok_iff.mp h
  obtain ⟨R, hR, h⟩ := bind_ok_iff.mp h
  cases h
  rw [mul_ok curve hL, mul_ok curve hR]
  rfl

theorem mulAdd_residue (curve : Curve q E) (P : E) (n m : ZMod q) :
    curve.mulAdd (residue n) P (residue m) = .ok (n • curve.generator + m • P) := by
  cases ht : curve.type with
  | ossl => simp [Curve.mulAdd, ht]
  | bitcoin =>
    have hadd (z : ZMod q) : modAdd false q (residue z) 0 = .ok (residue z) := by
      simpa using modAdd_residue false z (0 : ZMod q)
    simp [Curve.mulAdd, ht, hadd]
  | ed25519 => simp [Curve.mulAdd, ht]

section
variable {curve : Curve q E} (hct : curve.type ≠ .ossl)
include hct

theorem makeCommitment_residue (P : E) (m r : ZMod q) :
    makeCommitment curve P (residue m) (residue r) =
      .ok (r • curve.generator, m • curve.generator + r • P) := by
  simp [makeCommitment, ctCurve_ok hct, modReduce_of_isInRange, mulAdd_residue]

theorem elgMul_residue (s : ZMod q) (a : ElgCom E) : elgMul curve (residue s) a = .ok (s • a) := by
  simp only [elgMul, ctCurve_ok hct, mul_residue, ok_bind]
  rfl

theorem elgRerand_residue (P : E) (a : ElgCom E) (r : ZMod q) :
    elgRerand curve P a (residue r) = .ok (a + (r • curve.generator, r • P)) := by
  simp only [elgRerand, ctCurve_ok hct, modReduce_of_isInRange (isInRange_residue r),
    mulToGenerator_residue, mul_residue, ok_bind]
  rfl

end

end CbMpc
