import CbMpc.Paillier
import CbMpc.ZkUcProofs

/-!
# Completeness and soundness of the batched verification

The rows of the three proofs are rows of linear maps. An honest prover saves rows that hold,
whatever number of tries and restarts it takes, and a sum over a row that does not hold is right for
one weight at most.
-/
namespace CbMpc

open BatchedRows

/-- The rows that a proof consists of. -/
structure ProofRows (m : ℕ) (W : Type) where
  params : FischlinParams
  A : ℕ → W
  e : ℕ → ℤ
  z : ℕ → Fin m → ℤ

namespace ProofRows

variable {q : ℕ} [hq : Fact q.Prime] {m : ℕ} {W : Type} [AddCommGroup W] [Module (ZMod q) W]

def rho (rows : ProofRows m W) : ℕ := rows.params.rho.toNat

/-- The group equation of a row. -/
def RowHolds (rows : ProofRows m W) (φ : (Fin m → ZMod q) →ₗ[ZMod q] W) (X : W) (i : ℕ) : Prop :=
  Row φ X (rows.A i) (rows.e i) fun j => (rows.z i j : ZMod q)

/-- The sum of all equations with the weights `σ`. -/
def SumHolds (rows : ProofRows m W) (φ : (Fin m → ZMod q) →ₗ[ZMod q] W)
    (X : W) (σ : Sigmas) : Prop :=
  Batch φ X (fun i : Fin rows.rho => rows.A i) (fun i => rows.e i) (fun i j =>
    (rows.z i j : ZMod q)) fun i => ((σ i).val : ZMod q)

/-- What a verifier checks for every row. -/
def Accepted (rows : ProofRows m W) (q : ℕ) (sha : Sha) (commonHash : List (Fin 256)) : Prop :=
  ∀ i < rows.rho, (∀ j, 0 ≤ rows.z i j ∧ rows.z i j < q) ∧
    checkRow sha rows.params.mask commonHash i (rows.e i) (List.ofFn (rows.z i)) = .ok ()

/-- What an honest prover leaves of a turn with the samples `ω`: its commitments and `saved`
rows. -/
structure Honest (rows : ProofRows m W) (sha : Sha) (commonHash : List (Fin 256))
    (φ : (Fin m → ZMod q) →ₗ[ZMod q] W) (w : Fin m → ZMod q) (ω : ℕ → Fin m → ZMod q)
    (queries : List (List (Fin 256))) (saved : ℕ) : Prop where
  saved_le : saved ≤ rows.rho
  commitment : ∀ i < rows.rho, rows.A i = φ (ω i)
  row : ∀ i < saved, SavedRow sha rows.params.mask commonHash w (ω i)
    queries i (rows.e i) (rows.z i)

variable {rows : ProofRows m W} {φ : (Fin m → ZMod q) →ₗ[ZMod q] W} {X : W}

/-- The equation in the sums that a verifier keeps. -/
theorem sumHolds_iff {σ : Sigmas} :
    rows.SumHolds φ X σ ↔ ∑ i ∈ Finset.range rows.rho, (((σ i).val : ℤ) : ZMod q) • rows.A i =
      φ (fun j => (modWeighted q (fun i => (σ i).val) (fun i => rows.z i j) rows.rho : ZMod q)) -
        (modWeighted q (fun i => (σ i).val) rows.e rows.rho : ZMod q) • X := by
  have hz : (∑ i : Fin rows.rho, ((σ i).val : ZMod q) • fun j => (rows.z i j : ZMod q)) =
      fun j => (modWeighted q (fun i => (σ i).val) (fun i => rows.z i j) rows.rho : ZMod q) := by
    funext j
    rw [Finset.sum_apply, cast_modWeighted, Finset.sum_range]
    simp only [Pi.smul_apply, smul_eq_mul, Int.cast_natCast]
  rw [SumHolds, Batch, hz, cast_modWeighted, Finset.sum_range, Finset.sum_range]
  simp only [Int.cast_natCast]

/-- A row that fails leaves one weight at most, among the numbers of `SEC_P_STAT` bits. -/
theorem sigma_unique (hq64 : 2 ^ secPStat ≤ q) {i : ℕ} (hi : i < rows.rho)
    (hrow : ¬rows.RowHolds φ X i) {σ : Sigmas} {s s' : Fin (2 ^ secPStat)}
    (h : rows.SumHolds φ X (Function.update σ i s))
    (h' : rows.SumHolds φ X (Function.update σ i s')) :
    s = s' := by
  have hupdate : ∀ t : Fin (2 ^ secPStat),
      (fun k : Fin rows.rho => ((Function.update σ i t k).val : ZMod q)) =
      Function.update (fun k : Fin rows.rho => ((σ k).val : ZMod q)) ⟨i, hi⟩ (t.val : ZMod q) := by
    intro t
    funext k
    by_cases hk : k.val = i
    · obtain rfl : k = ⟨i, hi⟩ := Fin.ext hk
      rw [Function.update_self, Function.update_self]
    · rw [Function.update_of_ne hk, Function.update_of_ne fun heq => hk (congrArg Fin.val heq)]
  rw [SumHolds, hupdate] at h h'
  have hcast : (s.val : ZMod q) = s'.val := by
    refine weight_unique ?_ h h'
    exact hrow
  apply Fin.ext
  have hmod := (ZMod.natCast_eq_natCast_iff' _ _ _).mp hcast
  rwa [Nat.mod_eq_of_lt (lt_of_lt_of_le s.isLt hq64),
    Nat.mod_eq_of_lt (lt_of_lt_of_le s'.isLt hq64)] at hmod

namespace Honest

variable {sha : Sha} {commonHash : List (Fin 256)} {w : Fin m → ZMod q} {ω : ℕ → Fin m → ZMod q}
  {queries : List (List (Fin 256))}

theorem sumHolds (h : rows.Honest sha commonHash φ w ω queries rows.rho) (hX : X = φ w)
    (σ : Sigmas) : rows.SumHolds φ X σ := by
  apply batch_of_rows
  intro i
  have hz : (fun j => (rows.z i j : ZMod q)) = ω i + (rows.e i : ZMod q) • w := by
    funext j
    rw [(h.row i i.isLt).response, cast_residue, Pi.add_apply, Pi.smul_apply, smul_eq_mul]
  rw [h.commitment i i.isLt, hz, hX]
  exact row_of_witness (ω i) w _

theorem accepted (h : rows.Honest sha commonHash φ w ω queries rows.rho) :
    rows.Accepted q sha commonHash := by
  intro i hi
  constructor
  · intro j
    rw [(h.row i hi).response]
    exact (isInRange_iff _).mp (isInRange_residue _)
  · obtain ⟨hash, hhash, hmask⟩ := (h.row i hi).accepted
    rw [checkRow, hhash, ok_bind, decide_eq_true hmask, require_true]

theorem congr {saved : ℕ}
    (h : rows.Honest sha commonHash φ w ω queries saved) {rows' : ProofRows m W}
    (hparams : rows'.params = rows.params) (hA : ∀ i < rows.rho, rows'.A i = rows.A i)
    (he : ∀ i < rows.rho, rows'.e i = rows.e i) (hz : ∀ i < rows.rho, rows'.z i = rows.z i) :
    rows'.Honest sha commonHash φ w ω queries saved := by
  have hrho : rows'.rho = rows.rho := by rw [rho, hparams, rho]
  refine ⟨hrho ▸ h.saved_le, fun i hi => ?_, fun i hi => ?_⟩
  · rw [hA i (hrho ▸ hi)]
    exact h.commitment i (hrho ▸ hi)
  · have hlt := lt_of_lt_of_le hi h.saved_le
    rw [hparams, he i hlt, hz i hlt]
    exact h.row i hi

end Honest

/-- What a prover leaves that passes `rowsCalls` to `fischlin_prove`. -/
theorem honest_of_fischlinProve {B : Type} {params : FischlinParams} (ht : params.t < 31)
    (hb : params.bMask = .ok params.mask) {sha : Sha} {commit : (Fin m → ℤ) → B → Outcome W}
    (hcommit : ∀ (r : Fin m → ZMod q) b c, commit (fun j => residue (r j)) b = .ok c → c = φ r)
    {common : List W → List (Fin 256)} {w : Fin m → ZMod q} {ωs : List (ℕ → RowSamples q m B)}
    (hne : ωs ≠ []) {run : RowsState m W × ℕ}
    (h : fischlinProve params (rowsCalls (q := q) sha params.rho.toNat commit common fun j =>
      residue (w j))
      ωs (RowsState.start m W) = .ok run) :
    run.1.commitments.length = params.rho.toNat ∧ ∃ ω ∈ ωs,
      (ProofRows.mk params (fun i => run.1.commitments.getD i 0) run.1.e run.1.z).Honest sha
        (common run.1.commitments) φ w
        (fun i => (ω i).1) run.1.queries run.2 := by
  have hspec := rowsCalls_spec (F := True) sha params.mask params.rho.toNat commit common w
    (fun hF => absurd trivial hF)
    (2 ^ params.t.toNat)
  obtain ⟨-, ⟨rfl, -⟩ | ⟨ω, hω, hrows, hle⟩⟩ := (hspec.fischlinProve ht hb ωs _ trivial).ok h
  · exact absurd rfl hne
  · obtain ⟨hlen, hcom⟩ := mapM_range_ok hrows.commitments 0
    refine ⟨hlen, ω, hω, hle, fun i hi => hcommit _ _ _ (hcom i hi), fun i hi => ?_⟩
    rw [← hrows.commonHash]
    exact hrows.saved i hi

end ProofRows

/-! ## The linear maps -/

section Maps

variable {q : ℕ} [hq : Fact q.Prime] {E : Type} [AddCommGroup E] [Module (ZMod q) E]

/-- The map of `uc_dl_t`, of which `Q` is an image. -/
def dlMap (G : E) : (Fin 1 → ZMod q) →ₗ[ZMod q] E where
  toFun z := z ⟨0, Nat.one_pos⟩ • G
  map_add' z z' := by simp only [Pi.add_apply, add_smul]
  map_smul' c z := by simp only [Pi.smul_apply, smul_eq_mul, mul_smul, RingHom.id_apply]

/-- The map of `uc_elgamal_com_t`: the commitment to the first secret under the randomness of the
second. -/
def elgamalMap (G Q : E) : (Fin 2 → ZMod q) →ₗ[ZMod q] ElgCom E where
  toFun z := (z 1 • G, z 1 • Q + z 0 • G)
  map_add' z z' := by
    simp only [Pi.add_apply, add_smul, Prod.mk_add_mk]
    rw [add_add_add_comm]
  map_smul' c z := by
    simp only [Pi.smul_apply, smul_eq_mul, mul_smul, RingHom.id_apply, Prod.smul_mk, smul_add]

/-- The map of `uc_elgamal_com_mult_private_scalar_t`: the commitment `A` times the first secret,
with fresh randomness. -/
def multMap (G Q : E) (A : ElgCom E) : (Fin 2 → ZMod q) →ₗ[ZMod q] E × E where
  toFun z := (z 0 • A.1 + z 1 • G, z 0 • A.2 + z 1 • Q)
  map_add' z z' := by
    simp only [Pi.add_apply, add_smul, Prod.mk_add_mk]
    rw [add_add_add_comm, add_add_add_comm (z 0 • A.2)]
  map_smul' c z := by
    simp only [Pi.smul_apply, smul_eq_mul, mul_smul, RingHom.id_apply, Prod.smul_mk, smul_add]

end Maps

/-! ## What the verifiers check -/

theorem FischlinParams.bMask_of_check {params : FischlinParams} (h : params.check = .ok ()) :
    params.bMask = .ok params.mask := by
  simp only [FischlinParams.check, require_bind_ok_iff, decide_eq_true_eq] at h
  rw [FischlinParams.bMask, decide_eq_true h.2.2.1, cbAssert_true, ok_bind]

theorem FischlinParams.rho_pos_of_check {params : FischlinParams}
    (h : params.check = .ok ()) : 0 < params.rho := by
  simp only [FischlinParams.check, require_bind_ok_iff, decide_eq_true_eq] at h
  exact h.1

section Verifiers

variable {q : ℕ} [hq : Fact q.Prime] {E : Type} [AddCommGroup E] [Module (ZMod q) E] [DecidableEq E]
variable {sha : Sha} {curve : Curve q E} {sid : List (Fin 256)} {aux : ℕ} {σ : Sigmas}

def UcDl.rows (π : UcDl E) : ProofRows 1 E :=
  ⟨π.params, fun i => π.A.getD i 0, fun i => π.e.getD i 0, fun i => ![π.z.getD i 0]⟩

theorem ucDlVerify_ok_iff (hq64 : 2 ^ secPStat ≤ q)
    {ro : UcDlHash E → List (Fin 256)} {Q : E} {π : UcDl E} :
    ucDlVerify sha ro curve Q sid aux π σ = .ok () ↔
      π.params.check = .ok () ∧ (π.A.length : ℤ) = π.params.rho ∧ (π.e.length : ℤ) = π.params.rho ∧
      (π.z.length : ℤ) = π.params.rho ∧ Q ≠ 0 ∧ (∀ P ∈ π.A, P ≠ 0) ∧
      π.rows.Accepted q sha (ro ⟨curve.generator, Q, π.A, sid, aux⟩) ∧
      π.rows.SumHolds (dlMap (q := q) curve.generator) Q σ := by
  simp only [ucDlVerify, unit_bind_ok_iff, require_ok_iff, decide_eq_true_eq, forEach_ok_iff,
    checkPoint_ok_iff]
  refine and_congr_right fun hparams => and_congr_right fun hA => ?_
  refine and_congr_right fun _ => and_congr_right fun _ => and_congr_right fun _ =>
    and_congr_right fun _ => ?_
  have hlen : π.A.length = π.params.rho.toNat := by omega
  have hne : π.A ≠ [] := by
    intro hnil
    have hpos := FischlinParams.rho_pos_of_check hparams
    rw [← hA, hnil] at hpos
    exact lt_irrefl _ hpos
  have hsum := sumMul_eq curve (s := fun i => ((σ i).val : ℤ)) (fun i =>
    isInRange_sigma hq64 (σ i)) hne
  rw [hlen] at hsum
  rw [FischlinParams.bMask_of_check hparams, ok_bind, bind_ok_iff]
  simp only [ucDlLoop_ok_iff, and_assoc, exists_and_left, exists_eq_left, hsum,
    mulToGenerator_of_isInRange curve (isInRange_modWeighted _ _ _),
    mul_of_isInRange curve (isInRange_modWeighted _ _ _), ok_bind,
    require_ok_iff, decide_eq_true_eq]
  rw [ProofRows.sumHolds_iff]
  apply and_congr_left'
  simp only [ProofRows.Accepted, Fin.forall_fin_one, and_assoc]
  rfl

def UcElgamalCom.rows (π : UcElgamalCom E) : ProofRows 2 (ElgCom E) :=
  ⟨π.params, fun i => π.AB.getD i 0, fun i => π.e.getD i 0, fun i =>
    ![π.z1.getD i 0, π.z2.getD i 0]⟩

def UcElgamalComMultPrivateScalar.rows (π : UcElgamalComMultPrivateScalar E) :
    ProofRows 2 (E × E) :=
  ⟨π.params, fun i => (π.A1Tag.getD i 0, π.A2Tag.getD i 0), fun i => π.e.getD i 0, fun i =>
    ![π.z1.getD i 0, π.z2.getD i 0]⟩

theorem ucElgamalComVerify_ok_iff (hq64 : 2 ^ secPStat ≤ q)
    {ro : UcElgamalComHash E → List (Fin 256)} {Q : E} {UV : ElgCom E} {π : UcElgamalCom E} :
    ucElgamalComVerify sha ro curve Q UV sid aux π σ = .ok () ↔
      π.params.check = .ok () ∧ (π.AB.length : ℤ) = π.params.rho ∧ (π.e.length : ℤ) = π.params.rho ∧
      (π.z1.length : ℤ) = π.params.rho ∧ (π.z2.length : ℤ) = π.params.rho ∧
      Q ≠ 0 ∧ (UV.1 ≠ 0 ∧ UV.2 ≠ 0) ∧
      (∀ c ∈ π.AB, c.1 ≠ 0 ∧ c.2 ≠ 0) ∧
      π.rows.Accepted q sha (ro ⟨curve.generator, Q, UV, π.AB, sid, aux⟩) ∧
      π.rows.SumHolds (elgamalMap (q := q) curve.generator Q) UV σ := by
  simp only [ucElgamalComVerify, unit_bind_ok_iff, require_ok_iff, decide_eq_true_eq,
    forEach_ok_iff, checkPoint_ok_iff, checkCurve_ok_iff]
  refine and_congr_right fun hparams => and_congr_right fun _ => and_congr_right fun _ =>
    and_congr_right fun _ => ?_
  refine and_congr_right fun _ => and_congr_right fun _ => and_congr_right fun _ =>
    and_congr_right fun _ => ?_
  rw [FischlinParams.bMask_of_check hparams, ok_bind, bind_ok_iff]
  simp only [ucPairLoop_ok_iff fun i => isInRange_sigma hq64 (σ i), and_assoc, exists_and_left,
    exists_eq_left, mulToGenerator_of_isInRange curve (isInRange_modWeighted _ _ _),
    mul_of_isInRange curve (isInRange_modWeighted _ _ _), ok_bind,
    unit_bind_ok_iff, require_ok_iff, decide_eq_true_eq, checkRightOpenRange_ok_iff]
  rw [ProofRows.sumHolds_iff]
  apply and_congr
  · simp only [ProofRows.Accepted, Fin.forall_fin_two, and_assoc]
    rfl
  · rw [Prod.ext_iff, Prod.fst_sum, Prod.snd_sum]
    rfl

theorem ucElgamalComMultPrivateScalarVerify_ok_iff (hq64 : 2 ^ secPStat ≤ q)
    {ro : UcElgamalComMultPrivateScalarHash E → List (Fin 256)} {Q : E} {A B : ElgCom E}
    {π : UcElgamalComMultPrivateScalar E} :
    ucElgamalComMultPrivateScalarVerify sha ro curve Q A B sid aux π σ = .ok () ↔
      π.params.check = .ok () ∧ (π.A1Tag.length : ℤ) = π.params.rho ∧
      (π.A2Tag.length : ℤ) = π.params.rho ∧
      (π.e.length : ℤ) = π.params.rho ∧ (π.z1.length : ℤ) = π.params.rho ∧
      (π.z2.length : ℤ) = π.params.rho ∧ Q ≠ 0 ∧
      (A.1 ≠ 0 ∧ A.2 ≠ 0) ∧ (B.1 ≠ 0 ∧ B.2 ≠ 0) ∧
      (∀ i < π.params.rho.toNat, π.A1Tag.getD i 0 ≠ 0 ∧ π.A2Tag.getD i 0 ≠ 0) ∧
      π.rows.Accepted q sha (ro ⟨Q, A, B, π.A1Tag, π.A2Tag, sid, aux⟩) ∧
      π.rows.SumHolds (multMap (q := q) curve.generator Q A) B σ := by
  simp only [ucElgamalComMultPrivateScalarVerify, unit_bind_ok_iff, require_ok_iff,
    decide_eq_true_eq, checkPoint_ok_iff, checkCurve_ok_iff]
  refine and_congr_right fun hparams => and_congr_right fun _ => and_congr_right fun _ =>
    and_congr_right fun _ => ?_
  refine and_congr_right fun _ => and_congr_right fun _ => and_congr_right fun _ =>
    and_congr_right fun _ => and_congr_right fun _ => ?_
  rw [FischlinParams.bMask_of_check hparams, ok_bind, unit_bind_ok_iff, bind_ok_iff]
  simp only [ucPairLoop_ok_iff fun i => isInRange_sigma hq64 (σ i), and_assoc, exists_and_left,
    exists_eq_left, forEach_ok_iff, mulToGenerator_of_isInRange curve (isInRange_modWeighted _ _ _),
    mul_of_isInRange curve (isInRange_modWeighted _ _ _), ok_bind,
    unit_bind_ok_iff, require_ok_iff, decide_eq_true_eq, checkRightOpenRange_ok_iff,
    checkPoint_ok_iff, List.mem_range]
  rw [ProofRows.sumHolds_iff]
  conv_lhs => rw [← and_assoc]
  conv_rhs => rw [← and_assoc]
  apply and_congr
  · constructor
    · rintro ⟨hchecks, hrows⟩
      refine ⟨fun i hi => ⟨(hchecks i hi).1, (hchecks i hi).2.1⟩, fun i hi => ⟨?_, (hrows i hi).2⟩⟩
      exact Fin.forall_fin_two.mpr (and_assoc.mpr (hchecks i hi).2.2)
    · rintro ⟨hpoints, haccepted⟩
      refine ⟨fun i hi => ⟨(hpoints i hi).1, (hpoints i hi).2, ?_⟩, fun i hi =>
        ⟨trivial, (haccepted i hi).2⟩⟩
      exact and_assoc.mp (Fin.forall_fin_two.mp (haccepted i hi).1)
  · rw [Prod.ext_iff, Prod.fst_sum, Prod.snd_sum]
    rfl

end Verifiers

/-! ## What the provers leave -/

section Provers

variable {q : ℕ} [hq : Fact q.Prime] {E : Type} [AddCommGroup E] [Module (ZMod q) E] [DecidableEq E]
variable {sha : Sha} {curve : Curve q E} {sid : List (Fin 256)} {aux : ℕ}

omit hq in
theorem residue_one (w : Fin 1 → ZMod q) : ![residue (w 0)] = fun j => residue (w j) := by
  funext j
  rw [Fin.fin_one_eq_zero j]
  rfl

omit hq in
theorem residue_two (w : Fin 2 → ZMod q) :
    ![residue (w 0), residue (w 1)] = fun j => residue (w j) := by
  funext j
  fin_cases j <;> rfl

omit [DecidableEq E] in
theorem ucDlProve_ok {ro : UcDlHash E → List (Fin 256)} {Q : E} {w : Fin 1 → ZMod q}
    {ωs : List (ℕ → RowSamples q 1 Unit)} {out : ProverEnd (UcDl E)} (hne : ωs ≠ [])
    (h : ucDlProve sha ro curve Q (residue (w 0)) sid aux ωs = .ok out) :
    (out.proof.params = ucDlParams ∧ out.proof.A.length = 32 ∧ out.proof.e.length = 32 ∧
      out.proof.z.length = 32) ∧
      ∃ ω ∈ ωs, out.proof.rows.Honest sha (ro ⟨curve.generator, Q, out.proof.A, sid, aux⟩)
        (dlMap (q := q) curve.generator) w
        (fun i => (ω i).1) out.queries out.rows := by
  obtain ⟨-, -, h⟩ := bind_ok_iff.mp h
  obtain ⟨run, hrun, h⟩ := bind_ok_iff.mp h
  cases h
  rw [residue_one] at hrun
  obtain ⟨hlen, ω, hω, hhonest⟩ :=
    ProofRows.honest_of_fischlinProve (φ := dlMap (q := q) curve.generator) (by decide) rfl
    (fun r b c hc => by
      rw [mulToGenerator_residue] at hc
      exact (Except.ok.inj hc).symm) hne hrun
  refine ⟨⟨rfl, hlen, rfl, rfl⟩, ω, hω,
    hhonest.congr rfl (fun i hi => rfl) (fun i hi => getD_map_range _ _ hi) fun i hi => ?_⟩
  funext j
  rw [Fin.fin_one_eq_zero j]
  exact getD_map_range _ _ hi

omit [DecidableEq E] in
theorem makeCommitment_ok_imp {Q : E} (r : Fin 2 → ZMod q) {c : ElgCom E}
    (h : makeCommitment curve Q (residue (r 0)) (residue (r 1)) = .ok c) :
    c = elgamalMap (q := q) curve.generator Q r := by
  by_cases hct : curve.type = .ossl
  · rw [makeCommitment, ctCurve_ossl hct] at h
    cases h
  · rw [makeCommitment_residue hct] at h
    rw [← Except.ok.inj h, add_comm]
    rfl

theorem ucElgamalComProve_ok {ro : UcElgamalComHash E → List (Fin 256)} {Q : E}
    {UV : ElgCom E} {w : Fin 2 → ZMod q} {ωs : List (ℕ → RowSamples q 2 Unit)}
    {out : ProverEnd (UcElgamalCom E)} (hne : ωs ≠ [])
    (h : ucElgamalComProve sha ro curve Q UV (residue (w 0)) (residue (w 1)) sid aux ωs = .ok out) :
    (out.proof.params = ucElgamalComParams ∧ out.proof.AB.length = 22 ∧ out.proof.e.length = 22 ∧
      out.proof.z1.length = 22 ∧
      out.proof.z2.length = 22) ∧
      ∃ ω ∈ ωs, out.proof.rows.Honest sha (ro ⟨curve.generator, Q, UV, out.proof.AB, sid, aux⟩)
        (elgamalMap (q := q) curve.generator Q) w (fun i => (ω i).1) out.queries out.rows := by
  obtain ⟨-, -, h⟩ := bind_ok_iff.mp h
  obtain ⟨run, hrun, h⟩ := bind_ok_iff.mp h
  cases h
  rw [residue_two] at hrun
  obtain ⟨hlen, ω, hω, hhonest⟩ :=
    ProofRows.honest_of_fischlinProve (φ := elgamalMap (q := q) curve.generator Q) (by decide) rfl
    (fun r b c hc => makeCommitment_ok_imp r hc) hne hrun
  refine ⟨⟨rfl, hlen, rfl, rfl, rfl⟩, ω, hω,
    hhonest.congr rfl (fun i hi => rfl) (fun i hi => getD_map_range _ _ hi) fun i hi => ?_⟩
  funext j
  fin_cases j
  · exact getD_map_range _ _ hi
  · exact getD_map_range _ _ hi

omit [DecidableEq E] in
theorem weightedSum_residue (bias a b : ZMod q) (P R : E) :
    weightedSum curve (residue bias) (residue a) P (residue b) R = .ok (a • P + b • R) := by
  cases ht : curve.type with
  | ossl =>
    simp only [weightedSum, ht, Curve.mulAdd, ok_bind, Int.cast_neg, cast_residue, neg_smul]
    rw [add_add_add_comm, add_neg_cancel, zero_add]
  | bitcoin => simp only [weightedSum, ht, mul_residue, ok_bind]
  | ed25519 => simp only [weightedSum, ht, mul_residue, ok_bind]

omit [DecidableEq E] in
theorem getD_map_pair (l : List (E × E)) (i : ℕ) :
    ((l.map Prod.fst).getD i 0, (l.map Prod.snd).getD i 0) = l.getD i 0 :=
  Prod.ext (List.getD_map l 0 Prod.fst) (List.getD_map l 0 Prod.snd)

theorem ucElgamalComMultPrivateScalarProve_ok {ro : UcElgamalComMultPrivateScalarHash E →
      List (Fin 256)} {Q : E} {A B : ElgCom E} {w : Fin 2 → ZMod q}
    {ωs : List (ℕ → RowSamples q 2 (ZMod q))} {out : ProverEnd (UcElgamalComMultPrivateScalar E)}
    (hne : ωs ≠ [])
    (h : ucElgamalComMultPrivateScalarProve sha ro curve Q A B (residue (w 1))
      (residue (w 0)) sid aux ωs = .ok out) :
    (out.proof.params = ucElgamalComMultPrivateScalarParams ∧ out.proof.A1Tag.length = 19 ∧
      out.proof.A2Tag.length = 19 ∧
      out.proof.e.length = 19 ∧ out.proof.z1.length = 19 ∧ out.proof.z2.length = 19) ∧
      ∃ ω ∈ ωs, out.proof.rows.Honest sha (ro ⟨Q, A, B, out.proof.A1Tag, out.proof.A2Tag, sid, aux⟩)
        (multMap (q := q) curve.generator Q A) w (fun i => (ω i).1) out.queries out.rows := by
  obtain ⟨-, -, h⟩ := bind_ok_iff.mp h
  obtain ⟨run, hrun, h⟩ := bind_ok_iff.mp h
  cases h
  rw [residue_two] at hrun
  obtain ⟨hlen, ω, hω, hhonest⟩ :=
    ProofRows.honest_of_fischlinProve (φ := multMap (q := q) curve.generator Q A) (by decide) rfl
    (fun r b c hc => by
      rw [mulAdd_residue, ok_bind, weightedSum_residue, ok_bind] at hc
      rw [← Except.ok.inj hc, add_comm]
      rfl) hne hrun
  refine ⟨⟨rfl, ?_, ?_, rfl, rfl, rfl⟩, ω, hω,
    hhonest.congr rfl (fun i hi => ?_) (fun i hi => getD_map_range _ _ hi) fun i hi => ?_⟩
  · rw [List.length_map]
    exact hlen
  · rw [List.length_map]
    exact hlen
  · exact getD_map_pair _ i
  · funext j
    fin_cases j
    · exact getD_map_range _ _ hi
    · exact getD_map_range _ _ hi

/-- The prover does not fail where it can compute its commitments. -/
theorem rows_fischlinProve_returns (sha : Sha) (params : FischlinParams) {m : ℕ} {B C : Type}
    (commit : (Fin m → ℤ) → B → Outcome C) (hsize : q.size ≤ 2048) (ht : params.t < 31)
    (hb : params.bMask = .ok params.mask)
    (hcommit : ∀ (r : Fin m → ZMod q) b, ∃ c, commit (fun j => residue (r j)) b = .ok c)
    (common : List C → List (Fin 256)) (w : Fin m → ZMod q) (ωs : List (ℕ → RowSamples q m B)) :
    ∃ run, fischlinProve params (rowsCalls (q := q) sha params.rho.toNat commit common fun j =>
      residue (w j)) ωs
      (RowsState.start m C) = .ok run := by
  have hspec := rowsCalls_spec (F := False) sha params.mask params.rho.toNat commit common w
    (fun _ => ⟨hsize, hcommit⟩)
    (2 ^ params.t.toNat)
  obtain ⟨run, hrun, -⟩ := ends_false_iff.mp (hspec.fischlinProve ht hb ωs _ trivial)
  exact ⟨run, hrun⟩

end Provers

/-! ## Completeness and soundness -/

/-- A proof about the linear map `φ` with the statement `X`. `supported` is where the prover can
work, `commonHash` is what the verifier hashes in front of the rows, and `finite` says that no point
of the statement or of the proof is infinite. -/
structure CompleteSound {q : ℕ} [Fact q.Prime] {m : ℕ} {W : Type} [AddCommGroup W]
    [Module (ZMod q) W] {B P : Type} (sha : Sha) (φ : (Fin m → ZMod q) →ₗ[ZMod q] W)
    (X : W) (supported : Prop)
    (prove : (Fin m → ZMod q) → List (ℕ → RowSamples q m B) → Outcome (ProverEnd P))
    (verify : P → Sigmas → Outcome Unit) (rows : P → ProofRows m W)
    (commonHash : P → List (Fin 256)) (finite : P → Prop) : Prop where
  returns : q.size ≤ 2048 → supported → ∀ w ωs, ∃ out, prove w ωs = .ok out
  honest : ∀ w ωs out, ωs ≠ [] → prove w ωs = .ok out → ∃ ω ∈ ωs,
    (rows out.proof).Honest sha (commonHash out.proof) φ w (fun i => (ω i).1) out.queries out.rows
  accepts : ∀ w ωs out, ωs ≠ [] → prove w ωs = .ok out → out.rows = (rows out.proof).rho →
    X = φ w → finite out.proof →
    ∀ σ, verify out.proof σ = .ok ()
  checks : ∀ π σ, verify π σ = .ok () →
    (rows π).Accepted q sha (commonHash π) ∧ (rows π).SumHolds φ X σ
  sound : ∀ π, ∀ i < (rows π).rho, ¬(rows π).RowHolds φ X i → ∀ σ s s',
    (rows π).SumHolds φ X (Function.update σ i s) →
    (rows π).SumHolds φ X (Function.update σ i s') → s = s'

section CompleteSound

variable {q : ℕ} [hq : Fact q.Prime] {E : Type} [AddCommGroup E] [Module (ZMod q) E] [DecidableEq E]
variable {sha : Sha} {curve : Curve q E} {sid : List (Fin 256)} {aux : ℕ}

theorem ucDl_completeSound (hq64 : 2 ^ secPStat ≤ q) (ro : UcDlHash E → List (Fin 256)) (Q : E) :
    CompleteSound sha (dlMap curve.generator) Q True (fun w =>
      ucDlProve sha ro curve Q (residue (w 0)) sid aux)
      (ucDlVerify sha ro curve Q sid aux) UcDl.rows (fun π =>
        ro ⟨curve.generator, Q, π.A, sid, aux⟩)
      fun π => Q ≠ 0 ∧ ∀ P ∈ π.A, P ≠ 0 where
  returns hsize _ w ωs := by
    obtain ⟨run, hrun⟩ := rows_fischlinProve_returns sha ucDlParams (fun r (_ : Unit) =>
      curve.mulToGenerator (r 0)) hsize
      (by decide) rfl (fun r _ => ⟨_, mulToGenerator_residue curve (r 0)⟩) (fun A =>
        ro ⟨curve.generator, Q, A, sid, aux⟩) w ωs
    rw [← residue_one] at hrun
    rw [ucDlProve, decide_eq_true ((isInRange_iff _).mp (isInRange_residue (w 0))).2, cbAssert_true,
      ok_bind, hrun, ok_bind]
    exact ⟨_, rfl⟩
  honest w ωs out hne h := (ucDlProve_ok hne h).2
  accepts w ωs out hne h hall hX hfinite σ := by
    obtain ⟨⟨hparams, hA, he, hz⟩, ω, -, hhonest⟩ := ucDlProve_ok hne h
    rw [hall] at hhonest
    rw [ucDlVerify_ok_iff hq64, hparams, hA, he, hz]
    exact ⟨rfl, rfl, rfl, rfl, hfinite.1, hfinite.2, hhonest.accepted, hhonest.sumHolds hX σ⟩
  checks π σ h := ((ucDlVerify_ok_iff hq64).mp h).2.2.2.2.2.2
  sound π i hi hrow σ s s' := ProofRows.sigma_unique hq64 hi hrow

theorem ucElgamalCom_completeSound (hq64 : 2 ^ secPStat ≤ q)
    (ro : UcElgamalComHash E → List (Fin 256)) (Q : E) (UV : ElgCom E) :
    CompleteSound sha (elgamalMap curve.generator Q) UV (curve.type ≠ .ossl ∧ Q ≠ 0)
      (fun w => ucElgamalComProve sha ro curve Q UV (residue (w 0)) (residue (w 1)) sid aux)
      (ucElgamalComVerify sha ro curve Q UV sid aux) UcElgamalCom.rows (fun π =>
        ro ⟨curve.generator, Q, UV, π.AB, sid, aux⟩)
      fun π => Q ≠ 0 ∧ (UV.1 ≠ 0 ∧ UV.2 ≠ 0) ∧ ∀ c ∈ π.AB, c.1 ≠ 0 ∧ c.2 ≠ 0 where
  returns hsize hsupported w ωs := by
    obtain ⟨run, hrun⟩ := rows_fischlinProve_returns sha ucElgamalComParams (fun r (_ : Unit) =>
      makeCommitment curve Q (r 0) (r 1))
      hsize (by decide) rfl (fun r _ => ⟨_, makeCommitment_residue hsupported.1 Q (r 0) (r 1)⟩)
        (fun AB => ro ⟨curve.generator, Q, UV, AB, sid, aux⟩) w ωs
    rw [← residue_two] at hrun
    rw [ucElgamalComProve, decide_eq_true hsupported.2, cbAssert_true, ok_bind, hrun, ok_bind]
    exact ⟨_, rfl⟩
  honest w ωs out hne h := (ucElgamalComProve_ok hne h).2
  accepts w ωs out hne h hall hX hfinite σ := by
    obtain ⟨⟨hparams, hAB, he, hz1, hz2⟩, ω, -, hhonest⟩ := ucElgamalComProve_ok hne h
    rw [hall] at hhonest
    rw [ucElgamalComVerify_ok_iff hq64, hparams, hAB, he, hz1, hz2]
    exact ⟨rfl, rfl, rfl, rfl, rfl, hfinite.1, hfinite.2.1, hfinite.2.2, hhonest.accepted,
      hhonest.sumHolds hX σ⟩
  checks π σ h := ((ucElgamalComVerify_ok_iff hq64).mp h).2.2.2.2.2.2.2.2
  sound π i hi hrow σ s s' := ProofRows.sigma_unique hq64 hi hrow

theorem ucElgamalComMultPrivateScalar_completeSound (hq64 : 2 ^ secPStat ≤ q)
    (ro : UcElgamalComMultPrivateScalarHash E → List (Fin 256)) (Q : E) (A B : ElgCom E) :
    CompleteSound sha (multMap curve.generator Q A) B (Q ≠ 0)
      (fun w => ucElgamalComMultPrivateScalarProve sha ro curve Q A B (residue (w 1))
        (residue (w 0)) sid aux)
      (ucElgamalComMultPrivateScalarVerify sha ro curve Q A B sid aux)
        UcElgamalComMultPrivateScalar.rows
      (fun π => ro ⟨Q, A, B, π.A1Tag, π.A2Tag, sid, aux⟩)
      fun π => Q ≠ 0 ∧ (A.1 ≠ 0 ∧ A.2 ≠ 0) ∧ (B.1 ≠ 0 ∧ B.2 ≠ 0) ∧ (∀ P ∈ π.A1Tag, P ≠ 0) ∧
      ∀ P ∈ π.A2Tag, P ≠ 0 where
  returns hsize hsupported w ωs := by
    obtain ⟨run, hrun⟩ := rows_fischlinProve_returns sha
        ucElgamalComMultPrivateScalarParams (fun r bias => do
        let A1Tag ← curve.mulAdd (r 1) A.1 (r 0)
        let A2Tag ← weightedSum curve (residue bias) (r 0) A.2 (r 1) Q
        .ok (A1Tag, A2Tag)) hsize (by decide) rfl (fun r bias => by
      rw [mulAdd_residue, ok_bind, weightedSum_residue, ok_bind]
      exact ⟨_, rfl⟩) (fun tags =>
        ro ⟨Q, A, B, tags.map Prod.fst, tags.map Prod.snd, sid, aux⟩) w ωs
    rw [← residue_two] at hrun
    rw [ucElgamalComMultPrivateScalarProve, decide_eq_true hsupported, cbAssert_true, ok_bind,
      hrun, ok_bind]
    exact ⟨_, rfl⟩
  honest w ωs out hne h := (ucElgamalComMultPrivateScalarProve_ok hne h).2
  accepts w ωs out hne h hall hX hfinite σ := by
    obtain ⟨⟨hparams, hA1, hA2, he, hz1, hz2⟩, ω, -, hhonest⟩ :=
      ucElgamalComMultPrivateScalarProve_ok hne h
    rw [hall] at hhonest
    rw [ucElgamalComMultPrivateScalarVerify_ok_iff hq64, hparams, hA1, hA2, he, hz1, hz2]
    have hpoints : ∀ i < 19, out.proof.A1Tag.getD i 0 ≠ 0 ∧ out.proof.A2Tag.getD i 0 ≠ 0 := by
      intro i hi
      rw [List.getD_eq_getElem _ _ (hA1 ▸ hi), List.getD_eq_getElem _ _ (hA2 ▸ hi)]
      exact ⟨hfinite.2.2.2.1 _ (List.getElem_mem _), hfinite.2.2.2.2 _ (List.getElem_mem _)⟩
    exact ⟨rfl, rfl, rfl, rfl, rfl, rfl, hfinite.1, hfinite.2.1, hfinite.2.2.1, hpoints,
      hhonest.accepted, hhonest.sumHolds hX σ⟩
  checks π σ h := ((ucElgamalComMultPrivateScalarVerify_ok_iff hq64).mp h).2.2.2.2.2.2.2.2.2.2
  sound π i hi hrow σ s s' := ProofRows.sigma_unique hq64 hi hrow

end CompleteSound

/-- The three proofs are complete, and a row that does not hold passes the batched verification with
one weight at most. -/
theorem fischlin_complete_sound {q : ℕ} [hq : Fact q.Prime] {E : Type} [AddCommGroup E]
    [Module (ZMod q) E] [DecidableEq E] (hq64 : 2 ^ secPStat ≤ q) (sha : Sha) (curve : Curve q E)
    (sid : List (Fin 256)) (aux : ℕ) :
    (∀ ro Q, CompleteSound sha (dlMap curve.generator) Q True (fun w =>
      ucDlProve sha ro curve Q (residue (w 0)) sid aux)
      (ucDlVerify sha ro curve Q sid aux) UcDl.rows (fun π =>
        ro ⟨curve.generator, Q, π.A, sid, aux⟩)
      fun π => Q ≠ 0 ∧ ∀ P ∈ π.A, P ≠ 0) ∧
    (∀ ro Q UV, CompleteSound sha (elgamalMap curve.generator Q) UV (curve.type ≠ .ossl ∧ Q ≠ 0)
      (fun w => ucElgamalComProve sha ro curve Q UV (residue (w 0)) (residue (w 1)) sid aux)
      (ucElgamalComVerify sha ro curve Q UV sid aux) UcElgamalCom.rows (fun π =>
        ro ⟨curve.generator, Q, UV, π.AB, sid, aux⟩)
      fun π => Q ≠ 0 ∧ (UV.1 ≠ 0 ∧ UV.2 ≠ 0) ∧ ∀ c ∈ π.AB, c.1 ≠ 0 ∧ c.2 ≠ 0) ∧
    (∀ ro Q A B, CompleteSound sha (multMap curve.generator Q A) B (Q ≠ 0)
      (fun w => ucElgamalComMultPrivateScalarProve sha ro curve Q A B (residue (w 1))
        (residue (w 0)) sid aux)
      (ucElgamalComMultPrivateScalarVerify sha ro curve Q A B sid aux)
        UcElgamalComMultPrivateScalar.rows
      (fun π => ro ⟨Q, A, B, π.A1Tag, π.A2Tag, sid, aux⟩)
      fun π => Q ≠ 0 ∧ (A.1 ≠ 0 ∧ A.2 ≠ 0) ∧ (B.1 ≠ 0 ∧ B.2 ≠ 0) ∧ (∀ P ∈ π.A1Tag, P ≠ 0) ∧
        ∀ P ∈ π.A2Tag, P ≠ 0) :=
  ⟨ucDl_completeSound hq64, ucElgamalCom_completeSound hq64,
    ucElgamalComMultPrivateScalar_completeSound hq64⟩

/-- A prime order above the weights. -/
def sampleUcOrder : ℕ := 3 * 2 ^ (65 + 1) + 1

instance fact_prime_sampleUcOrder : Fact sampleUcOrder.Prime :=
  ⟨prime_of_squareMod (a := 10) (by norm_num) (by decide +kernel)
    (by decide +kernel) (by decide +kernel)⟩

def sampleUcCurve : Curve sampleUcOrder (ZMod sampleUcOrder) := ⟨[99], .bitcoin, 1, one_ne_zero⟩

/-- The high half of this hash depends on the length of its input, and no bit of its low half is
set. -/
def sampleSha : Sha := fun bytes => BitVec.ofNat 32 bytes.length <<< 16

theorem sampleSha_and_mask (bytes : List (Fin 256)) : sampleSha bytes &&& ucDlParams.mask = 0 := by
  have hmask : ucDlParams.mask = BitVec.ofNat 32 15 := by decide
  rw [hmask]
  refine BitVec.eq_of_getLsbD_eq fun i hi => ?_
  have hlow : 16 ≤ i → (BitVec.ofNat 32 15).getLsbD i = false := by
    intro h
    interval_cases i <;> decide
  rw [BitVec.getLsbD_and, sampleSha, BitVec.getLsbD_shiftLeft]
  by_cases h : i < 16
  · simp [h]
  · simp [hlow (not_lt.mp h)]

/-- The common hash of the sample counts the commitments. -/
def sampleUcHash (h : UcDlHash (ZMod sampleUcOrder)) : List (Fin 256) := List.replicate h.A.length 1

theorem natCast_ne_zero_sampleUc {n : ℕ} (hpos : 0 < n) (hlt : n < sampleUcOrder) :
    (n : ZMod sampleUcOrder) ≠ 0 := fun h =>
  absurd (Nat.le_of_dvd hpos ((ZMod.natCast_eq_zero_iff _ _).mp h)) (by omega)

/-- Every hash passes the mask, so the first attempt finds all rows. -/
theorem sampleUcDl_rows {Q w : ZMod sampleUcOrder}
    {ωs : List (ℕ → RowSamples sampleUcOrder 1 Unit)} (hne : ωs ≠ [])
    {out : ProverEnd (UcDl (ZMod sampleUcOrder))}
    (hout : ucDlProve sampleSha sampleUcHash sampleUcCurve Q (residue w) [] 0 ωs = .ok out) :
    out.rows = out.proof.rows.rho := by
  obtain ⟨-, -, h⟩ := bind_ok_iff.mp hout
  obtain ⟨run, hrun, h⟩ := bind_ok_iff.mp h
  obtain rfl := Except.ok.inj h
  refine fischlinProve_zero (rfl : ucDlParams.bMask = .ok ucDlParams.mask)
    (fun i e st out hhash => ?_) hne hrun
  obtain ⟨h, hh, hhash⟩ := bind_ok_iff.mp hhash
  obtain rfl := Except.ok.inj hhash
  obtain ⟨-, -, hh⟩ := bind_ok_iff.mp hh
  obtain rfl := Except.ok.inj hh
  exact sampleSha_and_mask _

theorem sampleUcDl_finite {Q w : ZMod sampleUcOrder} {ω : ℕ → RowSamples sampleUcOrder 1 Unit}
    (hω : ∀ i j, (ω i).1 j ≠ 0) {out : ProverEnd (UcDl (ZMod sampleUcOrder))}
    (hout : ucDlProve sampleSha sampleUcHash sampleUcCurve Q (residue w) [] 0 [ω] = .ok out) :
    ∀ P ∈ out.proof.A, P ≠ 0 := by
  intro P hP
  obtain ⟨⟨hparams, hA, -⟩, ω', hmem, hhonest⟩ :=
    ucDlProve_ok (w := fun _ => w) (List.cons_ne_nil _ _) hout
  obtain rfl := List.mem_singleton.mp hmem
  obtain ⟨i, hi, rfl⟩ := List.mem_iff_getElem.mp hP
  have hrho : i < out.proof.rows.rho := by
    change i < out.proof.params.rho.toNat
    rw [hparams]
    exact lt_of_lt_of_eq hi hA
  have hi' : out.proof.A[i] = out.proof.A.getD i 0 := (List.getD_eq_getElem _ _ hi).symm
  have hcom : out.proof.A.getD i 0 = (ω' i).1 ⟨0, Nat.one_pos⟩ • sampleUcCurve.generator :=
    hhonest.commitment i hrho
  rw [hi', hcom, Ne, smul_generator_eq_zero]
  exact hω i _

/-- A proof of which no row holds for the secret `6`. -/
def sampleBadProof : UcDl (ZMod sampleUcOrder) :=
  ⟨ucDlParams, List.replicate 32 1, List.replicate 32 0, List.replicate 32 0⟩

theorem not_rowHolds_sampleBadProof :
    ¬sampleBadProof.rows.RowHolds (dlMap (q := sampleUcOrder) sampleUcCurve.generator) 6 0 := by
  intro hrow
  have hone : (1 : ZMod sampleUcOrder) = (((0 : ℤ) : ZMod sampleUcOrder)) •
      (1 : ZMod sampleUcOrder) -
      ((0 : ℤ) : ZMod sampleUcOrder) • (6 : ZMod sampleUcOrder) := hrow
  rw [Int.cast_zero, zero_smul, zero_smul, sub_zero] at hone
  exact one_ne_zero hone

/-- The proof of the secret `6` with the samples `7` is made at once and accepted for all weights,
and a row that does not hold passes with one weight at most. The two provers about commitments
return as well. -/
theorem fischlin_complete_sound_sample :
    (∃ out, ucDlProve sampleSha sampleUcHash sampleUcCurve 6 (residue (6 : ZMod sampleUcOrder)) [] 0
      [fun _ => (fun _ => 7, ())] = .ok out ∧
      ∀ σ, ucDlVerify sampleSha sampleUcHash sampleUcCurve 6 [] 0 out.proof σ = .ok ()) ∧
    (∀ (σ : Sigmas) s s', sampleBadProof.rows.SumHolds
      (dlMap (q := sampleUcOrder) sampleUcCurve.generator) 6 (Function.update σ 0 s) →
      sampleBadProof.rows.SumHolds (dlMap (q := sampleUcOrder) sampleUcCurve.generator) 6
        (Function.update σ 0 s') → s = s') ∧
    (∃ out, ucElgamalComProve sampleSha (fun _ => []) sampleUcCurve 2 (6, 7)
      (residue (2 : ZMod sampleUcOrder))
      (residue (3 : ZMod sampleUcOrder)) [] 0 [fun _ => (fun _ => 7, ())] = .ok out) ∧
    ∃ out, ucElgamalComMultPrivateScalarProve sampleSha (fun _ => []) sampleUcCurve 2 (6, 7) (6, 7)
      (residue (2 : ZMod sampleUcOrder))
      (residue (3 : ZMod sampleUcOrder)) [] 0 [fun _ => (fun _ => 7, 5)] = .ok out := by
  have hq64 : 2 ^ secPStat ≤ sampleUcOrder := by decide +kernel
  have hsize : sampleUcOrder.size ≤ 2048 := by decide +kernel
  have hlt : 7 < sampleUcOrder := by decide +kernel
  have h2 : (2 : ZMod sampleUcOrder) ≠ 0 := by
    exact_mod_cast natCast_ne_zero_sampleUc (by norm_num : 0 < 2) (by omega)
  have h6 : (6 : ZMod sampleUcOrder) ≠ 0 := by
    exact_mod_cast natCast_ne_zero_sampleUc (by norm_num : 0 < 6) (by omega)
  have h7 : (7 : ZMod sampleUcOrder) ≠ 0 := by
    exact_mod_cast natCast_ne_zero_sampleUc (by norm_num : 0 < 7) hlt
  obtain ⟨hdl, helgamal, hmult⟩ := fischlin_complete_sound hq64 sampleSha sampleUcCurve [] 0
  have hdl := hdl sampleUcHash 6
  obtain ⟨out, hout⟩ := hdl.returns hsize trivial (fun _ => 6) [fun _ => (fun _ => 7, ())]
  refine ⟨⟨out, hout, ?_⟩, hdl.sound sampleBadProof 0 (by decide) not_rowHolds_sampleBadProof,
    (helgamal (fun _ => []) 2 (6, 7)).returns hsize ⟨by decide, h2⟩ ![2, 3] _,
    (hmult (fun _ => []) 2 (6, 7) (6, 7)).returns hsize h2 ![3, 2] _⟩
  exact hdl.accepts (fun _ => 6) _ out (List.cons_ne_nil _ _) hout
    (sampleUcDl_rows (List.cons_ne_nil _ _) hout) (mul_one _).symm
    ⟨h6, sampleUcDl_finite (fun _ _ => h7) hout⟩

end CbMpc
