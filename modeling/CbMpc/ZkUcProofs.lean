import CbMpc.FischlinRows

/-!
# Fischlin proofs with batched verification

`uc_dl_t` proves knowledge of a discrete logarithm, `uc_elgamal_com_t` of the opening of a
commitment, and `uc_elgamal_com_mult_private_scalar_t` of the scalar between two commitments. Their
verifiers weigh the rows with random numbers of `SEC_P_STAT` bits and check one sum of all rows.
-/
namespace CbMpc

open BatchedRows

variable {q : ℕ} [hq : Fact q.Prime] {E : Type} [AddCommGroup E] [Module (ZMod q) E] [DecidableEq E]

/-- A digest, of which the hash of a row takes the start. -/
abbrev Sha := List (Fin 256) → BitVec 32

/-- The weights of the rows, from `rand_bitlen(SEC_P_STAT)`. -/
abbrev Sigmas := ℕ → Fin (2 ^ secPStat)

/-- A prover's proof when its loop stops, how many rows its last turn has saved, and what it has
hashed for rows. `prove` returns when all rows are saved. -/
structure ProverEnd (P : Type) where
  proof : P
  rows : ℕ
  queries : List (List (Fin 256))

/-- `sum += sigma * x` inside `MODULO(q)`, in a `vartime_scope_t`. -/
def addWeighted (q : ℕ) (sum sigma x : ℤ) : Outcome ℤ := do
  let product ← modMul true q sigma x
  modAdd true q sum product

def checkPoint (P : E) : Outcome Unit := do
  let _ ← curveCheck false (.on P)
  .ok ()

/-- `ec_elgamal_commitment_t::check_curve`. -/
def checkCurve (c : ElgCom E) : Outcome Unit := do
  checkPoint c.1
  checkPoint c.2

/-- The hash of a row. -/
def checkRow (sha : Sha) (bMask : BitVec 32) (commonHash : List (Fin 256)) (i e : ℤ)
    (zs : List ℤ) : Outcome Unit := do
  let h ← hash32bitForZkFischlin sha commonHash i e zs
  require (decide (h &&& bMask = 0)) .crypto

/-- `sum_mul`. -/
def sumMul (curve : Curve q E) (points : List E) (scalars : List ℤ) : Outcome E := do
  cbAssert (decide (points ≠ []))
  cbAssert (decide (points.length = scalars.length))
  (points.zip scalars).foldlM (fun result p => do
    let product ← curve.mul p.2 p.1
    .ok (result + product)) 0

/-- `ecc_point_t::weighted_sum` outside a `vartime_scope_t`, where `bias` is its random number. -/
def weightedSum (curve : Curve q E) (bias x0 : ℤ) (P0 : E) (x1 : ℤ) (P1 : E) : Outcome E :=
  match curve.type with
  | .bitcoin | .ed25519 => do
    let A ← curve.mul x0 P0
    let B ← curve.mul x1 P1
    .ok (A + B)
  | .ossl => do
    let A ← curve.mulAdd bias P0 x0
    let B ← curve.mulAdd (-bias) P1 x1
    .ok (A + B)

/-! ## The proof of a discrete logarithm -/

/-- `uc_dl_t`. -/
structure UcDl (E : Type) where
  params : FischlinParams
  A : List E
  e : List ℤ
  z : List ℤ

/-- The parameters of a new `uc_dl_t`. -/
def ucDlParams : FischlinParams := ⟨32, 4, 9⟩

/-- What `uc_dl_t` hashes in front of its rows. -/
structure UcDlHash (E : Type) where
  G : E
  Q : E
  A : List E
  sid : List (Fin 256)
  aux : ℕ

/-- `uc_dl_t::prove`. -/
def ucDlProve (sha : Sha) (ro : UcDlHash E → List (Fin 256)) (curve : Curve q E) (Q : E) (w : ℤ)
    (sid : List (Fin 256)) (aux : ℕ) (ωs : List (ℕ → RowSamples q 1 Unit)) :
    Outcome (ProverEnd (UcDl E)) := do
  let rho := ucDlParams.rho.toNat
  cbAssert (decide (w < q))
  let run ← fischlinProve ucDlParams (rowsCalls sha rho (fun r _ => curve.mulToGenerator (r 0))
    (fun A => ro ⟨curve.generator, Q, A, sid, aux⟩) ![w]) ωs (RowsState.start 1 E)
  .ok ⟨⟨ucDlParams, run.1.commitments, (List.range rho).map run.1.e, (List.range rho).map fun i =>
    run.1.z i 0⟩, run.2, run.1.queries⟩

/-- The sums of `uc_dl_t::verify`. -/
structure UcDlSums where
  z : ℤ
  e : ℤ

/-- The loop body of `uc_dl_t::verify`. -/
def ucDlStep (sha : Sha) (q : ℕ) (bMask : BitVec 32) (commonHash : List (Fin 256)) (π : UcDl E)
    (σ : Sigmas) (sums : UcDlSums) (i : ℕ) :
    Outcome UcDlSums := do
  checkRightOpenRange 0 (π.z.getD i 0) q
  let z ← addWeighted q sums.z (σ i).val (π.z.getD i 0)
  let e ← addWeighted q sums.e (σ i).val (π.e.getD i 0)
  checkRow sha bMask commonHash i (π.e.getD i 0) [π.z.getD i 0]
  .ok ⟨z, e⟩

/-- `uc_dl_t::verify`. -/
def ucDlVerify (sha : Sha) (ro : UcDlHash E → List (Fin 256)) (curve : Curve q E) (Q : E)
    (sid : List (Fin 256)) (aux : ℕ) (π : UcDl E) (σ : Sigmas) : Outcome Unit := do
  let rho := π.params.rho
  π.params.check
  require (decide ((π.A.length : ℤ) = rho)) .crypto
  require (decide ((π.e.length : ℤ) = rho)) .crypto
  require (decide ((π.z.length : ℤ) = rho)) .crypto
  checkPoint Q
  forEach checkPoint π.A
  let bMask ← π.params.bMask
  let commonHash := ro ⟨curve.generator, Q, π.A, sid, aux⟩
  let sums ← (List.range rho.toNat).foldlM (ucDlStep sha q bMask commonHash π σ) ⟨0, 0⟩
  let ASum ← sumMul curve π.A ((List.range rho.toNat).map fun i => ((σ i).val : ℤ))
  let zG ← curve.mulToGenerator sums.z
  let eQ ← curve.mul sums.e Q
  require (decide (ASum = zG - eQ)) .crypto

/-! ## The two proofs about commitments -/

/-- The sums of the verifiers of the two proofs about commitments. -/
structure UcPairSums (E : Type) where
  z1 : ℤ
  z2 : ℤ
  e : ℤ
  A : E
  B : E

/-- The loop body of both verifiers, on what the row `i` consists of. -/
def ucPairStep (sha : Sha) (curve : Curve q E) (bMask : BitVec 32)
    (commonHash : List (Fin 256)) (check : Outcome Unit) (e z1 z2 : ℤ) (A B : E) (sigma : ℤ)
    (sums : UcPairSums E) (i : ℕ) : Outcome (UcPairSums E) := do
  check
  let z1Sum ← addWeighted q sums.z1 sigma z1
  let z2Sum ← addWeighted q sums.z2 sigma z2
  let eSum ← addWeighted q sums.e sigma e
  let sA ← curve.mul sigma A
  let sB ← curve.mul sigma B
  checkRow sha bMask commonHash i e [z1, z2]
  .ok ⟨z1Sum, z2Sum, eSum, sums.A + sA, sums.B + sB⟩

/-- `uc_elgamal_com_t`. -/
structure UcElgamalCom (E : Type) where
  params : FischlinParams
  AB : List (ElgCom E)
  e : List ℤ
  z1 : List ℤ
  z2 : List ℤ

/-- The parameters of a new `uc_elgamal_com_t`. -/
def ucElgamalComParams : FischlinParams := ⟨22, 6, 11⟩

/-- What `uc_elgamal_com_t` hashes in front of its rows. -/
structure UcElgamalComHash (E : Type) where
  G : E
  Q : E
  UV : ElgCom E
  AB : List (ElgCom E)
  sid : List (Fin 256)
  aux : ℕ

/-- `uc_elgamal_com_t::prove`. -/
def ucElgamalComProve (sha : Sha) (ro : UcElgamalComHash E → List (Fin 256)) (curve : Curve q E)
    (Q : E) (UV : ElgCom E) (x r : ℤ) (sid : List (Fin 256)) (aux : ℕ)
    (ωs : List (ℕ → RowSamples q 2 Unit)) : Outcome (ProverEnd (UcElgamalCom E)) := do
  let rho := ucElgamalComParams.rho.toNat
  cbAssert (decide (Q ≠ 0))
  let run ← fischlinProve ucElgamalComParams
    (rowsCalls sha rho (fun r' _ => makeCommitment curve Q (r' 0) (r' 1))
    (fun AB => ro ⟨curve.generator, Q, UV, AB, sid, aux⟩) ![x, r]) ωs (RowsState.start 2 (ElgCom E))
  .ok ⟨⟨ucElgamalComParams, run.1.commitments, (List.range rho).map run.1.e,
    (List.range rho).map fun i => run.1.z i 0, (List.range rho).map fun i => run.1.z i 1⟩, run.2,
      run.1.queries⟩

/-- `uc_elgamal_com_t::verify`. -/
def ucElgamalComVerify (sha : Sha) (ro : UcElgamalComHash E → List (Fin 256))
    (curve : Curve q E) (Q : E) (UV : ElgCom E) (sid : List (Fin 256)) (aux : ℕ)
    (π : UcElgamalCom E) (σ : Sigmas) : Outcome Unit := do
  let rho := π.params.rho
  π.params.check
  require (decide ((π.AB.length : ℤ) = rho)) .crypto
  require (decide ((π.e.length : ℤ) = rho)) .crypto
  require (decide ((π.z1.length : ℤ) = rho)) .crypto
  require (decide ((π.z2.length : ℤ) = rho)) .crypto
  checkPoint Q
  checkCurve UV
  forEach checkCurve π.AB
  let bMask ← π.params.bMask
  let commonHash := ro ⟨curve.generator, Q, UV, π.AB, sid, aux⟩
  let sums ← (List.range rho.toNat).foldlM (fun sums i => ucPairStep sha curve bMask commonHash (do
      checkRightOpenRange 0 (π.z1.getD i 0) q
      checkRightOpenRange 0 (π.z2.getD i 0) q) (π.e.getD i 0) (π.z1.getD i 0) (π.z2.getD i 0)
        (π.AB.getD i 0).1 (π.AB.getD i 0).2
    (σ i).val sums i) ⟨0, 0, 0, 0, 0⟩
  let z2G ← curve.mulToGenerator sums.z2
  let eU ← curve.mul sums.e UV.1
  require (decide (sums.A = z2G - eU)) .crypto
  let z2Q ← curve.mul sums.z2 Q
  let z1G ← curve.mulToGenerator sums.z1
  let eV ← curve.mul sums.e UV.2
  require (decide (sums.B = z2Q + z1G - eV)) .crypto

/-- `uc_elgamal_com_mult_private_scalar_t`. -/
structure UcElgamalComMultPrivateScalar (E : Type) where
  params : FischlinParams
  e : List ℤ
  z1 : List ℤ
  z2 : List ℤ
  A1Tag : List E
  A2Tag : List E

/-- The parameters of a new `uc_elgamal_com_mult_private_scalar_t`. -/
def ucElgamalComMultPrivateScalarParams : FischlinParams := ⟨19, 7, 12⟩

/-- What `uc_elgamal_com_mult_private_scalar_t` hashes in front of its rows. -/
structure UcElgamalComMultPrivateScalarHash (E : Type) where
  Q : E
  A : ElgCom E
  B : ElgCom E
  A1Tag : List E
  A2Tag : List E
  sid : List (Fin 256)
  aux : ℕ

/-- `uc_elgamal_com_mult_private_scalar_t::prove`. Next to the masks a row samples the number that
hides the sum of two products of points. -/
def ucElgamalComMultPrivateScalarProve (sha : Sha)
    (ro : UcElgamalComMultPrivateScalarHash E → List (Fin 256)) (curve : Curve q E) (Q : E)
    (A B : ElgCom E) (r c : ℤ) (sid : List (Fin 256)) (aux : ℕ)
    (ωs : List (ℕ → RowSamples q 2 (ZMod q))) :
    Outcome (ProverEnd (UcElgamalComMultPrivateScalar E)) := do
  let rho := ucElgamalComMultPrivateScalarParams.rho.toNat
  cbAssert (decide (Q ≠ 0))
  let run ← fischlinProve ucElgamalComMultPrivateScalarParams (rowsCalls sha rho (fun r' bias => do
      let A1Tag ← curve.mulAdd (r' 1) A.1 (r' 0)
      let A2Tag ← weightedSum curve (residue bias) (r' 0) A.2 (r' 1) Q
      .ok (A1Tag, A2Tag))
    (fun tags => ro ⟨Q, A, B, tags.map Prod.fst, tags.map Prod.snd, sid, aux⟩) ![c, r]) ωs
      (RowsState.start 2 (E × E))
  .ok ⟨⟨ucElgamalComMultPrivateScalarParams, (List.range rho).map run.1.e,
    (List.range rho).map fun i => run.1.z i 0, (List.range rho).map fun i => run.1.z i 1,
      run.1.commitments.map Prod.fst, run.1.commitments.map Prod.snd⟩, run.2, run.1.queries⟩

/-- `uc_elgamal_com_mult_private_scalar_t::verify`. -/
def ucElgamalComMultPrivateScalarVerify (sha : Sha)
    (ro : UcElgamalComMultPrivateScalarHash E → List (Fin 256)) (curve : Curve q E) (Q : E)
    (A B : ElgCom E) (sid : List (Fin 256)) (aux : ℕ) (π : UcElgamalComMultPrivateScalar E)
    (σ : Sigmas) : Outcome Unit := do
  let rho := π.params.rho
  π.params.check
  require (decide ((π.A1Tag.length : ℤ) = rho)) .crypto
  require (decide ((π.A2Tag.length : ℤ) = rho)) .crypto
  require (decide ((π.e.length : ℤ) = rho)) .crypto
  require (decide ((π.z1.length : ℤ) = rho)) .crypto
  require (decide ((π.z2.length : ℤ) = rho)) .crypto
  checkPoint Q
  checkCurve A
  checkCurve B
  let bMask ← π.params.bMask
  forEach (fun i => do
    checkPoint (π.A1Tag.getD i 0)
    checkPoint (π.A2Tag.getD i 0)
    checkRightOpenRange 0 (π.z1.getD i 0) q
    checkRightOpenRange 0 (π.z2.getD i 0) q) (List.range rho.toNat)
  let commonHash := ro ⟨Q, A, B, π.A1Tag, π.A2Tag, sid, aux⟩
  let sums ← (List.range rho.toNat).foldlM (fun sums i =>
    ucPairStep sha curve bMask commonHash (.ok ()) (π.e.getD i 0)
    (π.z1.getD i 0) (π.z2.getD i 0) (π.A1Tag.getD i 0) (π.A2Tag.getD i 0) (σ i).val sums i) ⟨0, 0,
      0, 0, 0⟩
  let z1A1 ← curve.mul sums.z1 A.1
  let z2G ← curve.mulToGenerator sums.z2
  let eB1 ← curve.mul sums.e B.1
  require (decide (sums.A = z1A1 + z2G - eB1)) .crypto
  let z1A2 ← curve.mul sums.z1 A.2
  let z2Q ← curve.mul sums.z2 Q
  let eB2 ← curve.mul sums.e B.2
  require (decide (sums.B = z1A2 + z2Q - eB2)) .crypto

/-! ## What the verifiers compute -/

/-- A sum that is reduced after every term. -/
def modWeighted (q : ℕ) (s x : ℕ → ℤ) : ℕ → ℤ
  | 0 => 0
  | n + 1 => (modWeighted q s x n + s n * x n % q) % q

theorem cast_modWeighted (s x : ℕ → ℤ) (n : ℕ) :
    ((modWeighted q s x n : ℤ) : ZMod q) = ∑ i ∈ Finset.range n,
    (s i : ZMod q) * (x i : ZMod q) := by
  induction n with
  | zero => exact Int.cast_zero
  | succ n ih =>
    rw [modWeighted, cast_emod, Int.cast_add, cast_emod, Int.cast_mul, ih, Finset.sum_range_succ]

theorem isInRange_modWeighted (s x : ℕ → ℤ) (n : ℕ) : isInRange q (modWeighted q s x n) = true := by
  cases n with
  | zero => exact (isInRange_iff _).mpr ⟨le_refl 0, Int.ofNat_lt.mpr hq.out.pos⟩
  | succ n => exact isInRange_emod hq.out.pos _

omit hq in
theorem addWeighted_eq (sum sigma x : ℤ) :
    addWeighted q sum sigma x = .ok ((sum + sigma * x % q) % q) := rfl

theorem checkPoint_ok_iff {P : E} : checkPoint P = .ok () ↔ P ≠ 0 := by
  rw [checkPoint, curveCheck_bind_ok_iff, and_iff_left rfl]

theorem checkCurve_ok_iff {c : ElgCom E} : checkCurve c = .ok () ↔ c.1 ≠ 0 ∧ c.2 ≠ 0 := by
  rw [checkCurve, unit_bind_ok_iff, checkPoint_ok_iff, checkPoint_ok_iff]

omit hq in
theorem isInRange_sigma (hq64 : 2 ^ secPStat ≤ q) (s : Fin (2 ^ secPStat)) :
    isInRange q (s.val : ℤ) = true :=
  (isInRange_iff _).mpr ⟨Int.natCast_nonneg _, Int.ofNat_lt.mpr (lt_of_lt_of_le s.isLt hq64)⟩

section Loops

variable {sha : Sha} {bMask : BitVec 32} {commonHash : List (Fin 256)} {curve : Curve q E}

omit hq [AddCommGroup E] [Module (ZMod q) E] [DecidableEq E] in
theorem ucDlLoop_ok_iff {π : UcDl E} {σ : Sigmas} {n : ℕ} {sums : UcDlSums} :
    (List.range n).foldlM (ucDlStep sha q bMask commonHash π σ) ⟨0, 0⟩ = .ok sums ↔
      (∀ i < n, (0 ≤ π.z.getD i 0 ∧ π.z.getD i 0 < q) ∧
        checkRow sha bMask commonHash i (π.e.getD i 0) [π.z.getD i 0] = .ok ()) ∧
      sums = ⟨modWeighted q (fun i => (σ i).val) (fun i => π.z.getD i 0) n,
        modWeighted q (fun i => (σ i).val) (fun i => π.e.getD i 0) n⟩ := by
  induction n generalizing sums with
  | zero =>
    simp only [List.range_zero, List.foldlM_nil, Nat.not_lt_zero, false_implies, implies_true,
      true_and, modWeighted]
    exact ⟨fun h => (Except.ok.inj h).symm, fun h => congrArg Except.ok h.symm⟩
  | succ n ih =>
    rw [List.range_succ, List.foldlM_append, bind_ok_iff, Nat.forall_lt_succ_right]
    simp only [List.foldlM_cons, List.foldlM_nil, ih, ucDlStep, addWeighted_eq, ok_bind, bind_pure,
      unit_bind_ok_iff, checkRightOpenRange_ok_iff, Except.ok.injEq]
    constructor
    · rintro ⟨sums', ⟨hrows, rfl⟩, hrange, hrow, rfl⟩
      exact ⟨⟨hrows, hrange, hrow⟩, rfl⟩
    · rintro ⟨⟨hrows, hrange, hrow⟩, rfl⟩
      exact ⟨_, ⟨hrows, rfl⟩, hrange, hrow, rfl⟩

omit [DecidableEq E] in
theorem ucPairStep_ok_iff {check : Outcome Unit} {e z1 z2 : ℤ} {A B : E} {sigma : ℤ}
    (hs : isInRange q sigma = true) {sums sums' : UcPairSums E} {i : ℕ} :
    ucPairStep sha curve bMask commonHash check e z1 z2 A B sigma sums i = .ok sums' ↔
      (check = .ok () ∧ checkRow sha bMask commonHash i e [z1, z2] = .ok ()) ∧
      sums' = ⟨(sums.z1 + sigma * z1 % q) % q, (sums.z2 + sigma * z2 % q) % q,
        (sums.e + sigma * e % q) % q, sums.A + (sigma : ZMod q) • A,
        sums.B + (sigma : ZMod q) • B⟩ := by
  rw [ucPairStep, unit_bind_ok_iff, and_assoc]
  apply and_congr_right
  intro _
  simp only [addWeighted_eq, mul_of_isInRange curve hs, ok_bind]
  rw [unit_bind_ok_iff, Except.ok.injEq, eq_comm (a := sums')]

omit [DecidableEq E] in
theorem ucPairLoop_ok_iff {check : ℕ → Outcome Unit} {e z1 z2 : ℕ → ℤ} {A B : ℕ → E} {s : ℕ → ℤ}
    (hs : ∀ i, isInRange q (s i) = true) {n : ℕ} {sums : UcPairSums E} :
    (List.range n).foldlM (fun sums i =>
      ucPairStep sha curve bMask commonHash (check i) (e i) (z1 i) (z2 i) (A i) (B i) (s i) sums i)
        ⟨0, 0, 0, 0, 0⟩ = .ok sums ↔
      (∀ i < n, check i = .ok () ∧ checkRow sha bMask commonHash i (e i) [z1 i, z2 i] = .ok ()) ∧
      sums = ⟨modWeighted q s z1 n, modWeighted q s z2 n, modWeighted q s e n, ∑ i ∈ Finset.range n,
        (s i : ZMod q) • A i, ∑ i ∈ Finset.range n, (s i : ZMod q) • B i⟩ := by
  induction n generalizing sums with
  | zero =>
    simp only [List.range_zero, List.foldlM_nil, Nat.not_lt_zero, false_implies, implies_true,
      true_and, modWeighted, Finset.range_zero, Finset.sum_empty]
    exact ⟨fun h => (Except.ok.inj h).symm, fun h => congrArg Except.ok h.symm⟩
  | succ n ih =>
    rw [List.range_succ, List.foldlM_append, bind_ok_iff, Nat.forall_lt_succ_right]
    simp only [List.foldlM_cons, List.foldlM_nil, bind_pure, ih, ucPairStep_ok_iff (hs n),
      Finset.sum_range_succ]
    constructor
    · rintro ⟨sums', ⟨hrows, rfl⟩, hrow, rfl⟩
      exact ⟨⟨hrows, hrow⟩, rfl⟩
    · rintro ⟨⟨hrows, hrow⟩, rfl⟩
      exact ⟨_, ⟨hrows, rfl⟩, hrow, rfl⟩

omit [DecidableEq E] in
theorem sumMul_eq (curve : Curve q E) {points : List E} {s : ℕ → ℤ}
    (hs : ∀ i, isInRange q (s i) = true) (hne : points ≠ []) :
    sumMul curve points ((List.range points.length).map s) =
      .ok (∑ i ∈ Finset.range points.length, (s i : ZMod q) • points.getD i 0) := by
  have hloop : ∀ n : ℕ, ((List.range n).map fun i =>
      (points.getD i 0, s i)).foldlM (fun result p => do
      let product ← curve.mul p.2 p.1
      .ok (result + product)) 0 =
          Except.ok (ε := Failure) (∑ i ∈ Finset.range n, (s i : ZMod q) • points.getD i 0) := by
    intro n
    induction n with
    | zero => rfl
    | succ n ih =>
      rw [List.range_succ, List.map_append, List.foldlM_append, ih, ok_bind, List.map_singleton,
        List.foldlM_cons, mul_of_isInRange curve (hs n), ok_bind, ok_bind, List.foldlM_nil,
        Finset.sum_range_succ]
      rfl
  have hpoints : points = (List.range points.length).map fun i => points.getD i 0 := by
    apply List.ext_getElem
    · simp
    · intro i hi hi'
      simp [hi]
  have hzip : points.zip ((List.range points.length).map s) =
      (List.range points.length).map fun i => (points.getD i 0, s i) := by
    conv_lhs => rw [hpoints]
    rw [← List.zip_map', List.length_map, List.length_range]
  rw [sumMul, decide_eq_true hne, cbAssert_true, ok_bind, List.length_map, List.length_range,
    decide_eq_true rfl, cbAssert_true, ok_bind, hzip]
  exact hloop _

end Loops

end CbMpc
