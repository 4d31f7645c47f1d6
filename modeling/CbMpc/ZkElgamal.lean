import CbMpc.AdditiveShare
import CbMpc.LinearProof
import CbMpc.ZkUcProofs

/-!
# Proofs with a hashed challenge about ElGamal commitments

`dh_t` proves that two points have the same logarithm to two bases, `elgamal_com_pub_share_equ_t`
that a commitment holds the scalar of a point, and `elgamal_com_mult_t` that one commitment holds
the product of what two others hold. Each is a proof of a preimage under a linear map. The verifiers
refuse the point at infinity, and with it some true statements.
-/
namespace CbMpc

open LinearProof

/-- What `dh_t` hashes. -/
structure DhHash (E : Type) where
  G : E
  Q : E
  A : E
  B : E
  X : E
  Y : E
  sid : List (Fin 256)
  aux : ℕ

/-- `dh_t`. -/
structure Dh where
  e : ℤ
  z : ℤ

/-- What `elgamal_com_mult_t` hashes. -/
structure ElgamalComMultHash (E : Type) where
  Q : E
  R : ElgCom E
  ATag : ElgCom E
  A : ElgCom E
  B : ElgCom E
  C : ElgCom E
  sid : List (Fin 256)
  aux : ℕ

/-- `elgamal_com_mult_t`. -/
structure ElgamalComMult where
  z1 : ℤ
  z2 : ℤ
  z3 : ℤ
  e : ℤ

section Model

variable {q : ℕ} {E : Type} [AddCommGroup E] [Module (ZMod q) E] [DecidableEq E]

/-- `r + e * w` inside `MODULO(q)`. -/
def answer (q : ℕ) (r e w : ℤ) : Outcome ℤ := do
  let product ← modMul false q e w
  modAdd false q r product

/-- `dh_t::prove`, with its random number. -/
def dhProve (ro : DhHash E → ZMod q) (curve : Curve q E) (Q A B : E) (w : ℤ) (sid : List (Fin 256))
    (aux : ℕ) (r : ZMod q) :
    Outcome Dh := do
  cbAssert (decide (w < q))
  let X ← curve.mulToGenerator (residue r)
  let Y ← curve.mul (residue r) Q
  let e := residue (ro ⟨curve.generator, Q, A, B, X, Y, sid, aux⟩)
  let z ← answer q (residue r) e w
  .ok ⟨e, z⟩

/-- `dh_t::verify`. -/
def dhVerify (ro : DhHash E → ZMod q) (curve : Curve q E) (Q A B : E) (sid : List (Fin 256))
    (aux : ℕ) (π : Dh) : Outcome Unit := do
  checkPoint Q
  checkPoint A
  checkPoint B
  checkRightOpenRange 0 π.e q
  checkRightOpenRange 0 π.z q
  let zG ← curve.mulToGenerator π.z
  let eA ← curve.mul π.e A
  let zQ ← curve.mul π.z Q
  let eB ← curve.mul π.e B
  let eTag := residue (ro ⟨curve.generator, Q, A, B, zG - eA, zQ - eB, sid, aux⟩)
  require (decide (eTag = π.e)) .crypto

/-- `elgamal_com_pub_share_equ_t::prove`. -/
def elgamalComPubShareEquProve (ro : DhHash E → ZMod q) (curve : Curve q E) (Q A : E)
    (eA : ElgCom E) (r : ℤ) (sid : List (Fin 256)) (aux : ℕ) (random : ZMod q) : Outcome Dh :=
  dhProve ro curve Q eA.1 (eA.2 - A) r sid aux random

/-- `elgamal_com_pub_share_equ_t::verify`. -/
def elgamalComPubShareEquVerify (ro : DhHash E → ZMod q) (curve : Curve q E) (Q A : E)
    (B : ElgCom E) (sid : List (Fin 256)) (aux : ℕ) (π : Dh) : Outcome Unit := do
  checkPoint B.2
  checkPoint A
  dhVerify ro curve Q B.1 (B.2 - A) sid aux π

/-- `elgamal_com_mult_t::prove`, with its random numbers. -/
def elgamalComMultProve (ro : ElgamalComMultHash E → ZMod q) (curve : Curve q E) (Q : E)
    (A B C : ElgCom E) (rB rC b : ℤ) (sid : List (Fin 256)) (aux : ℕ) (r1 r2 r3 : ZMod q) :
    Outcome ElgamalComMult := do
  let R ← makeCommitment curve Q (residue r1) (residue r2)
  let r1A ← elgMul curve (residue r1) A
  let ATag ← elgRerand curve Q r1A (residue r3)
  let e := residue (ro ⟨Q, R, ATag, A, B, C, sid, aux⟩)
  let z1 ← answer q (residue r1) e b
  let z2 ← answer q (residue r2) e rB
  let z3 ← answer q (residue r3) e rC
  .ok ⟨z1, z2, z3, e⟩

/-- `make_commitment` inside a `vartime_scope_t`. -/
def makeCommitmentVartime (curve : Curve q E) (P : E) (m r : ℤ) : Outcome (ElgCom E) := do
  let mm ← modReduce q m
  let rr ← modReduce q r
  let L ← curve.mulToGenerator rr
  let R ← curve.mulAdd mm P rr
  .ok (L, R)

/-- `operator*` with a scalar inside a `vartime_scope_t`. -/
def elgMulVartime (curve : Curve q E) (s : ℤ) (a : ElgCom E) : Outcome (ElgCom E) := do
  let L ← curve.mul s a.1
  let R ← curve.mul s a.2
  .ok (L, R)

/-- `rerand` inside a `vartime_scope_t`. -/
def elgRerandVartime (curve : Curve q E) (P : E) (a : ElgCom E) (r : ℤ) : Outcome (ElgCom E) := do
  let rr ← modReduce q r
  let A ← curve.mulToGenerator rr
  let B ← curve.mul rr P
  .ok (a.1 + A, a.2 + B)

/-- `elgamal_com_mult_t::verify`. -/
def elgamalComMultVerify (ro : ElgamalComMultHash E → ZMod q) (curve : Curve q E) (Q : E)
    (A B C : ElgCom E) (sid : List (Fin 256)) (aux : ℕ) (π : ElgamalComMult) : Outcome Unit := do
  checkPoint Q
  checkCurve A
  checkCurve B
  checkCurve C
  checkRightOpenRange 0 π.e q
  checkRightOpenRange 0 π.z1 q
  checkRightOpenRange 0 π.z2 q
  checkRightOpenRange 0 π.z3 q
  let com ← makeCommitmentVartime curve Q π.z1 π.z2
  let eB ← elgMulVartime curve π.e B
  let z1A ← elgMulVartime curve π.z1 A
  let rerandomized ← elgRerandVartime curve Q z1A π.z3
  let eC ← elgMulVartime curve π.e C
  let eTag := residue (ro ⟨Q, com - eB, rerandomized - eC, A, B, C, sid, aux⟩)
  require (decide (π.e = eTag)) .crypto

end Model

section Dh

variable {q : ℕ} [hq : Fact q.Prime] {E : Type} [AddCommGroup E] [Module (ZMod q) E]
  [DecidableEq E] {curve : Curve q E} {sid : List (Fin 256)} {aux : ℕ}

theorem answer_residue (r e w : ZMod q) :
    answer q (residue r) (residue e) (residue w) = .ok (residue (r + e * w)) := by
  rw [answer, modMul_residue, ok_bind, modAdd_residue]

/-- The images of a logarithm to the bases `G` and `Q`. -/
def dhMap (curve : Curve q E) (Q : E) : ZMod q →ₗ[ZMod q] E × E :=
  (LinearMap.toSpanSingleton (ZMod q) E curve.generator).prod
    (LinearMap.toSpanSingleton (ZMod q) E Q)

omit [DecidableEq E] in
theorem dhMap_apply (Q : E) (w : ZMod q) : dhMap curve Q w = (w • curve.generator, w • Q) := rfl

theorem dhVerify_ok_iff {ro : DhHash E → ZMod q} {Q A B : E} {π : Dh} :
    dhVerify ro curve Q A B sid aux π = .ok () ↔
    Q ≠ 0 ∧ A ≠ 0 ∧ B ≠ 0 ∧ ∃ e z : ZMod q, π = ⟨residue e, residue z⟩ ∧
      ro ⟨curve.generator, Q, A, B, (recommit (dhMap curve Q) (A, B) e z).1,
        (recommit (dhMap curve Q) (A, B) e z).2, sid, aux⟩ = e := by
  have hrun : ∀ e z : ZMod q,
      dhVerify ro curve Q A B sid aux ⟨residue e, residue z⟩ = .ok () ↔ Q ≠ 0 ∧ A ≠ 0 ∧ B ≠ 0 ∧
      ro ⟨curve.generator, Q, A, B, z • curve.generator - e • A, z • Q - e • B, sid, aux⟩ = e := by
    intro e z
    have he := (isInRange_iff _).mp (isInRange_residue e)
    have hz := (isInRange_iff _).mp (isInRange_residue z)
    simp only [dhVerify, unit_bind_ok_iff, checkPoint_ok_iff, checkRightOpenRange_ok_iff, he, hz,
      true_and, mulToGenerator_residue, mul_residue, ok_bind, require_ok_iff, decide_eq_true_eq,
      residue_inj]
  constructor
  · intro h
    have hranges := h
    simp only [dhVerify, unit_bind_ok_iff, checkRightOpenRange_ok_iff] at hranges
    obtain ⟨-, -, -, he, hz, -⟩ := hranges
    have hπ : π = ⟨residue (π.e : ZMod q), residue (π.z : ZMod q)⟩ := by
      rw [← eq_residue_of_isInRange ((isInRange_iff _).mpr he),
        ← eq_residue_of_isInRange ((isInRange_iff _).mpr hz)]
    rw [hπ, hrun] at h
    obtain ⟨hQ, hA, hB, hro⟩ := h
    exact ⟨hQ, hA, hB, _, _, hπ, hro⟩
  · rintro ⟨hQ, hA, hB, e, z, rfl, hro⟩
    exact (hrun e z).mpr ⟨hQ, hA, hB, hro⟩

omit [DecidableEq E] in
theorem dhProve_residue (ro : DhHash E → ZMod q) (Q A B : E) (w r : ZMod q) :
    dhProve ro curve Q A B (residue w) sid aux r =
    .ok ⟨residue (ro ⟨curve.generator, Q, A, B, r • curve.generator, r • Q, sid, aux⟩),
      residue (r + ro ⟨curve.generator, Q, A, B, r • curve.generator, r • Q, sid, aux⟩ * w)⟩ := by
  have hw := ((isInRange_iff _).mp (isInRange_residue w)).2
  simp only [dhProve, decide_eq_true hw, cbAssert_true, ok_bind, mulToGenerator_residue,
    mul_residue, answer_residue]

/-- The response of the honest prover, to the challenge of its own commitments. -/
theorem dhVerify_honest (ro : DhHash E → ZMod q) (curve : Curve q E) (Q : E)
    (sid : List (Fin 256)) (aux : ℕ) (w r : ZMod q) :
    dhVerify ro curve Q (w • curve.generator) (w • Q) sid aux
      ⟨residue (ro ⟨curve.generator, Q, w • curve.generator, w • Q, r • curve.generator, r • Q,
        sid, aux⟩),
      residue (r + ro ⟨curve.generator, Q, w • curve.generator, w • Q, r • curve.generator, r • Q,
        sid, aux⟩ * w)⟩ = .ok () ↔
      Q ≠ 0 ∧ w ≠ 0 := by
  rw [dhVerify_ok_iff, Ne, Ne, smul_generator_eq_zero]
  constructor
  · rintro ⟨hQ, hA, -⟩
    exact ⟨hQ, hA⟩
  · rintro ⟨hQ, hw0⟩
    have hhonest := recommit_answer (dhMap curve Q) r w
      (ro ⟨curve.generator, Q, w • curve.generator, w • Q, r • curve.generator, r • Q, sid, aux⟩)
    rw [dhMap_apply, dhMap_apply, smul_eq_mul] at hhonest
    exact ⟨hQ, hw0, smul_ne_zero hw0 hQ, _, _, rfl, by rw [hhonest]⟩

/-- The honest prover of a true statement is refused exactly when one of the points is at
infinity. -/
theorem dh_complete (ro : DhHash E → ZMod q) (curve : Curve q E) (Q : E)
    (sid : List (Fin 256)) (aux : ℕ) {w : ℤ} (hw : isInRange q w = true) (r : ZMod q) : ∃ π,
    dhProve ro curve Q ((w : ZMod q) • curve.generator) ((w : ZMod q) • Q) w sid aux r = .ok π ∧
      (dhVerify ro curve Q ((w : ZMod q) • curve.generator) ((w : ZMod q) • Q) sid aux π = .ok () ↔
        Q ≠ 0 ∧ (w : ZMod q) ≠ 0) := by
  rw [eq_residue_of_isInRange hw, cast_residue]
  exact ⟨_, dhProve_residue ro Q _ _ _ r, dhVerify_honest ro curve Q sid aux w r⟩

theorem dh_complete_sample : ∃ π, dhProve (fun _ => 5) sampleCtCurve 2 1 2 1 [] 0 3 = .ok π ∧
    dhVerify (fun _ => 5) sampleCtCurve 2 1 2 [] 0 π = .ok () := by
  obtain ⟨π, hprove, hverify⟩ :=
    dh_complete (fun _ => 5) sampleCtCurve 2 [] 0 (by decide : isInRange 1009 1 = true) 3
  exact ⟨π, hprove, hverify.mpr (by decide)⟩

/-- The points that a proof of `dh_t` commits to. -/
def dhCommitments (curve : Curve q E) (Q A B : E) (π : Dh) : E × E :=
  recommit (dhMap curve Q) (A, B) (π.e : ZMod q) (π.z : ZMod q)

/-- Two accepted proofs with the same commitments and different challenges determine the common
logarithm. -/
theorem dh_sound {ro ro' : DhHash E → ZMod q} {Q A B : E} {π π' : Dh}
    (h : dhVerify ro curve Q A B sid aux π = .ok ())
    (h' : dhVerify ro' curve Q A B sid aux π' = .ok ())
    (hcom : dhCommitments curve Q A B π = dhCommitments curve Q A B π') (hne : π.e ≠ π'.e) :
    ∃ w : ZMod q, A = w • curve.generator ∧ B = w • Q := by
  obtain ⟨-, -, -, e, z, rfl, -⟩ := dhVerify_ok_iff.mp h
  obtain ⟨-, -, -, e', z', rfl, -⟩ := dhVerify_ok_iff.mp h'
  simp only [dhCommitments, cast_residue] at hcom
  have hne' : e ≠ e' := fun heq => hne (congrArg residue heq)
  have hmap := map_extract hcom hne'
  rw [dhMap_apply, Prod.mk.injEq] at hmap
  exact ⟨_, hmap.1.symm, hmap.2.symm⟩

/-- The honest prover of `elgamal_com_pub_share_equ_t` is refused exactly when a point is at
infinity, the commitment's second one included. -/
theorem elgamalComPubShareEqu_complete (ro : DhHash E → ZMod q) (curve : Curve q E) (Q A : E)
    (sid : List (Fin 256)) (aux : ℕ) {r : ℤ} (hr : isInRange q r = true) (random : ZMod q) : ∃ π,
    elgamalComPubShareEquProve ro curve Q A ((r : ZMod q) • curve.generator, A + (r : ZMod q) • Q) r
      sid aux random = .ok π ∧
      (elgamalComPubShareEquVerify ro curve Q A ((r : ZMod q) • curve.generator,
        A + (r : ZMod q) • Q) sid aux π = .ok () ↔
        Q ≠ 0 ∧ A ≠ 0 ∧ (r : ZMod q) ≠ 0 ∧ A + (r : ZMod q) • Q ≠ 0) := by
  rw [eq_residue_of_isInRange hr, cast_residue]
  have hsub : A + (r : ZMod q) • Q - A = (r : ZMod q) • Q := add_sub_cancel_left _ _
  refine ⟨_, by rw [elgamalComPubShareEquProve, hsub, dhProve_residue], ?_⟩
  rw [elgamalComPubShareEquVerify, unit_bind_ok_iff, unit_bind_ok_iff, checkPoint_ok_iff,
    checkPoint_ok_iff, hsub, dhVerify_honest]
  tauto

/-- Two accepted proofs with the same commitments and different challenges show that the commitment
holds the scalar of `A`. -/
theorem elgamalComPubShareEqu_sound {ro ro' : DhHash E → ZMod q} {Q A : E}
    {c : ElgCom E} {π π' : Dh} (h : elgamalComPubShareEquVerify ro curve Q A c sid aux π = .ok ())
    (h' : elgamalComPubShareEquVerify ro' curve Q A c sid aux π' = .ok ())
    (hcom : dhCommitments curve Q c.1 (c.2 - A) π = dhCommitments curve Q c.1 (c.2 - A) π')
    (hne : π.e ≠ π'.e) :
    PubShareEqual curve Q A c := by
  rw [elgamalComPubShareEquVerify, unit_bind_ok_iff, unit_bind_ok_iff] at h h'
  obtain ⟨r, hL, hR⟩ := dh_sound h.2.2 h'.2.2 hcom hne
  refine ⟨r, Prod.ext hL ?_⟩
  rw [← hR, add_sub_cancel]

theorem elgamalComPubShareEqu_sound_sample : PubShareEqual sampleCtCurve 2 3 (1, 5) :=
  @elgamalComPubShareEqu_sound 1009 _ (ZMod 1009) _ _ _ sampleCtCurve [] 0 (fun _ => 0) (fun _ => 1)
    2 3 (1, 5) ⟨0, 3⟩ ⟨1, 4⟩
    (by decide) (by decide) (by decide) (by decide)

end Dh

section Mult

variable {q : ℕ} [hq : Fact q.Prime] {E : Type} [AddCommGroup E] [Module (ZMod q) E]
  [DecidableEq E] {curve : Curve q E} {sid : List (Fin 256)} {aux : ℕ}

/-- From the scalar, its randomness and that of the product to the commitments of `B` and `C`. -/
def productMap (curve : Curve q E) (Q : E) (A : ElgCom E) :
    ZMod q × ZMod q × ZMod q →ₗ[ZMod q] ElgCom E × ElgCom E where
  toFun w := ((w.2.1 • curve.generator, w.1 • curve.generator + w.2.1 • Q),
    w.1 • A + (w.2.2 • curve.generator, w.2.2 • Q))
  map_add' w w' := by
    ext
    · exact add_smul _ _ _
    · simp only [Prod.fst_add, Prod.snd_add]
      module
    · simp only [Prod.fst_add, Prod.snd_add, Prod.smul_fst]
      module
    · simp only [Prod.fst_add, Prod.snd_add, Prod.smul_snd]
      module
  map_smul' s w := by
    ext
    · exact mul_smul _ _ _
    · simp only [Prod.smul_fst, Prod.smul_snd, smul_eq_mul, RingHom.id_apply]
      module
    · simp only [Prod.smul_fst, Prod.smul_snd, Prod.fst_add, smul_eq_mul, RingHom.id_apply]
      module
    · simp only [Prod.smul_fst, Prod.smul_snd, Prod.snd_add, smul_eq_mul, RingHom.id_apply]
      module

section

omit [DecidableEq E]

theorem productMap_apply (Q : E) (A : ElgCom E) (b rB rC : ZMod q) :
    productMap curve Q A (b, rB, rC) =
    ((rB • curve.generator, b • curve.generator + rB • Q),
      b • A + (rC • curve.generator, rC • Q)) := rfl

theorem makeCommitmentVartime_residue (P : E) (m r : ZMod q) :
    makeCommitmentVartime curve P (residue m) (residue r) =
      .ok (r • curve.generator, m • curve.generator + r • P) := by
  simp only [makeCommitmentVartime, modReduce_of_isInRange (isInRange_residue _), ok_bind,
    mulToGenerator_residue, mulAdd_residue]

theorem elgMulVartime_residue (s : ZMod q) (a : ElgCom E) :
    elgMulVartime curve (residue s) a = .ok (s • a) := by
  simp only [elgMulVartime, mul_residue, ok_bind]
  rfl

theorem elgRerandVartime_residue (P : E) (a : ElgCom E) (r : ZMod q) :
    elgRerandVartime curve P a (residue r) = .ok (a + (r • curve.generator, r • P)) := by
  simp only [elgRerandVartime, modReduce_of_isInRange (isInRange_residue r), mulToGenerator_residue,
    mul_residue, ok_bind]
  rfl

end

theorem elgamalComMultVerify_ok_iff {ro : ElgamalComMultHash E → ZMod q} {Q : E}
    {A B C : ElgCom E} {π : ElgamalComMult} :
    elgamalComMultVerify ro curve Q A B C sid aux π = .ok () ↔ Q ≠ 0 ∧ (A.1 ≠ 0 ∧ A.2 ≠ 0) ∧
    (B.1 ≠ 0 ∧ B.2 ≠ 0) ∧ (C.1 ≠ 0 ∧ C.2 ≠ 0) ∧
      ∃ e z1 z2 z3 : ZMod q, π = ⟨residue z1, residue z2, residue z3, residue e⟩ ∧
        ro ⟨Q, (recommit (productMap curve Q A) (B, C) e (z1, z2, z3)).1,
          (recommit (productMap curve Q A) (B, C) e (z1, z2, z3)).2, A, B, C, sid, aux⟩ = e := by
  have hrun : ∀ e z1 z2 z3 : ZMod q,
      elgamalComMultVerify ro curve Q A B C sid aux ⟨residue z1, residue z2, residue z3,
      residue e⟩ = .ok () ↔
        Q ≠ 0 ∧ (A.1 ≠ 0 ∧ A.2 ≠ 0) ∧ (B.1 ≠ 0 ∧ B.2 ≠ 0) ∧ (C.1 ≠ 0 ∧ C.2 ≠ 0) ∧
          ro ⟨Q, (recommit (productMap curve Q A) (B, C) e (z1, z2, z3)).1,
          (recommit (productMap curve Q A) (B, C) e (z1, z2, z3)).2, A, B, C, sid, aux⟩ = e := by
    intro e z1 z2 z3
    have hrange := fun z : ZMod q => (isInRange_iff _).mp (isInRange_residue z)
    simp only [elgamalComMultVerify, unit_bind_ok_iff, checkPoint_ok_iff, checkCurve_ok_iff,
      checkRightOpenRange_ok_iff, hrange, true_and, and_self, makeCommitmentVartime_residue,
      elgMulVartime_residue, elgRerandVartime_residue, ok_bind, require_ok_iff,
      decide_eq_true_eq, residue_inj, @eq_comm _ e]
    rfl
  constructor
  · intro h
    have hranges := h
    simp only [elgamalComMultVerify, unit_bind_ok_iff, checkRightOpenRange_ok_iff] at hranges
    obtain ⟨-, -, -, -, he, h1, h2, h3, -⟩ := hranges
    have hπ : π = ⟨residue (π.z1 : ZMod q), residue (π.z2 : ZMod q), residue (π.z3 : ZMod q),
        residue (π.e : ZMod q)⟩ := by
      rw [← eq_residue_of_isInRange ((isInRange_iff _).mpr he),
        ← eq_residue_of_isInRange ((isInRange_iff _).mpr h1),
        ← eq_residue_of_isInRange ((isInRange_iff _).mpr h2),
        ← eq_residue_of_isInRange ((isInRange_iff _).mpr h3)]
    rw [hπ, hrun] at h
    obtain ⟨hQ, hA, hB, hC, hro⟩ := h
    exact ⟨hQ, hA, hB, hC, _, _, _, _, hπ, hro⟩
  · rintro ⟨hQ, hA, hB, hC, e, z1, z2, z3, rfl, hro⟩
    exact (hrun e z1 z2 z3).mpr ⟨hQ, hA, hB, hC, hro⟩

/-- Where points are added in constant time, the honest prover of a product is refused exactly when
a point is at infinity. -/
theorem elgamalComMult_complete (ro : ElgamalComMultHash E → ZMod q) {curve : Curve q E}
    (hct : curve.type ≠ .ossl) (Q : E) (A : ElgCom E) (sid : List (Fin 256)) (aux : ℕ)
    (b rB rC r1 r2 r3 : ZMod q) {B C : ElgCom E}
    (hB : B = (rB • curve.generator, b • curve.generator + rB • Q))
    (hC : C = b • A + (rC • curve.generator, rC • Q)) : ∃ π,
    elgamalComMultProve ro curve Q A B C (residue rB) (residue rC) (residue b)
      sid aux r1 r2 r3 = .ok π ∧
      (elgamalComMultVerify ro curve Q A B C sid aux π = .ok () ↔
        Q ≠ 0 ∧ (A.1 ≠ 0 ∧ A.2 ≠ 0) ∧ (B.1 ≠ 0 ∧ B.2 ≠ 0) ∧ (C.1 ≠ 0 ∧ C.2 ≠ 0)) := by
  have hstatement : productMap curve Q A (b, rB, rC) = (B, C) := by rw [productMap_apply, hB, hC]
  have hprove : elgamalComMultProve ro curve Q A B C (residue rB) (residue rC)
      (residue b) sid aux r1 r2 r3 =
      (let e := ro ⟨Q, (productMap curve Q A (r1, r2, r3)).1, (productMap curve Q A (r1, r2, r3)).2,
      A, B, C, sid, aux⟩
       .ok ⟨residue (r1 + e * b), residue (r2 + e * rB), residue (r3 + e * rC), residue e⟩) := by
    rw [elgamalComMultProve, makeCommitment_residue hct, ok_bind, elgMul_residue hct, ok_bind,
      elgRerand_residue hct, ok_bind]
    simp only [answer_residue, ok_bind]
    rfl
  refine ⟨_, hprove, ?_⟩
  rw [elgamalComMultVerify_ok_iff]
  constructor
  · rintro ⟨hQ, hA, hB', hC', -⟩
    exact ⟨hQ, hA, hB', hC'⟩
  · rintro ⟨hQ, hA, hB', hC'⟩
    have hhonest := recommit_answer (productMap curve Q A) (r1, r2, r3) (b, rB, rC)
      (ro ⟨Q, (productMap curve Q A (r1, r2, r3)).1, (productMap curve Q A (r1, r2, r3)).2, A, B,
      C, sid, aux⟩)
    rw [hstatement] at hhonest
    refine ⟨hQ, hA, hB', hC', _, _, _, _, rfl, ?_⟩
    exact congrArg (fun p : ElgCom E × ElgCom E => ro ⟨Q, p.1, p.2, A, B, C, sid, aux⟩) hhonest

theorem elgamalComMult_complete_sample : ∃ π,
    elgamalComMultProve (fun _ => 5) sampleCtCurve 2 (1, 3) (1, 3) (2, 5) 1 1 1 [] 0 1 2 3 = .ok π ∧
      elgamalComMultVerify (fun _ => 5) sampleCtCurve 2 (1, 3) (1, 3) (2, 5) [] 0 π = .ok () := by
  obtain ⟨π, hprove, hverify⟩ :=
    elgamalComMult_complete (fun _ => 5) (by decide : sampleCtCurve.type ≠ .ossl)
      2 (1, 3) [] 0 1 1 1 1 2 3
    (by decide : ((1, 3) : ElgCom (ZMod 1009)) = _) (by decide : ((2, 5) : ElgCom (ZMod 1009)) = _)
  exact ⟨π, hprove, hverify.mpr (by decide)⟩

/-- The commitments that a proof of `elgamal_com_mult_t` commits to. -/
def multCommitments (curve : Curve q E) (Q : E) (A B C : ElgCom E)
    (π : ElgamalComMult) : ElgCom E × ElgCom E :=
  recommit (productMap curve Q A) (B, C) (π.e : ZMod q) ((π.z1 : ZMod q), (π.z2 : ZMod q),
    (π.z3 : ZMod q))

/-- Two accepted proofs with the same commitments and different challenges show that `B` commits to
a scalar and `C` is `A` times this scalar, randomized afresh. -/
theorem elgamalComMult_sound {ro ro' : ElgamalComMultHash E → ZMod q} {Q : E}
    {A B C : ElgCom E} {π π' : ElgamalComMult}
    (h : elgamalComMultVerify ro curve Q A B C sid aux π = .ok ())
    (h' : elgamalComMultVerify ro' curve Q A B C sid aux π' = .ok ())
    (hcom : multCommitments curve Q A B C π = multCommitments curve Q A B C π') (hne : π.e ≠ π'.e) :
    ∃ b : ZMod q, Commits curve Q b B ∧ Rerandomizes curve Q b A C := by
  obtain ⟨-, -, -, -, e, z1, z2, z3, rfl, -⟩ := elgamalComMultVerify_ok_iff.mp h
  obtain ⟨-, -, -, -, e', z1', z2', z3', rfl, -⟩ := elgamalComMultVerify_ok_iff.mp h'
  simp only [multCommitments, cast_residue] at hcom
  have hne' : e ≠ e' := fun heq => hne (congrArg residue heq)
  have hmap := map_extract hcom hne'
  rw [productMap_apply, Prod.mk.injEq] at hmap
  exact ⟨_, ⟨_, hmap.1.symm⟩, _, hmap.2.symm⟩

theorem elgamalComMult_sound_sample : ∃ b : ZMod 1009, Commits sampleCtCurve 2 b (1, 3) ∧
    Rerandomizes sampleCtCurve 2 b (1, 3) (2, 5) :=
  @elgamalComMult_sound 1009 _ (ZMod 1009) _ _ _ sampleCtCurve [] 0 (fun _ => 0)
    (fun _ => 1) 2 (1, 3) (1, 3) (2, 5)
    ⟨1, 2, 3, 0⟩ ⟨2, 3, 4, 1⟩ (by decide) (by decide) (by decide) (by decide)

end Mult

end CbMpc
