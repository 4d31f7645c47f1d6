import CbMpc.BatchDlRun
import CbMpc.PolynomialHelpers

/-!
# The batch proof of discrete logarithms, proved and verified

Both instantiations of `prove_batch_dl` do what the plain prover does, so what they return is
accepted. Where too many points make the table of values too long for an `int`, neither hashes
anything. The verifier accepts exactly the proofs whose rows all hold, and from enough rows with one
commitment the discrete logarithms are read.
-/
namespace CbMpc

open DifferenceTable Interpolation

/-- `int(v.size())`. -/
def intSize {α : Type} (v : List α) : BitVec 32 := BitVec.ofNat 32 v.length

theorem intSize_le {α : Type} (v : List α) : (intSize v).toInt ≤ v.length := by
  have hcond := (intSize v).toInt_eq_toNat_cond
  have hmod : (intSize v).toNat ≤ v.length := by
    rw [intSize, BitVec.toNat_ofNat]
    exact Nat.mod_le _ _
  split_ifs at hcond <;> omega

theorem le_two_pow_intLog2 (n : ℕ) : n ≤ 2 ^ intLog2 n := by
  rw [intLog2]
  split
  · exact Nat.lt_two_pow_self.le
  · have hlt := Nat.lt_size_self (n - 1)
    omega

/-- The parameters leave room for the values around zero. -/
theorem ucBatchDlParams_room {n : BitVec 32} (hn : 1 ≤ n.toInt) :
    0 ≤ (ucBatchDlParams n).t ∧ n.toInt + 1 < ((2 ^ (ucBatchDlParams n).t.toNat : ℕ) : ℤ) := by
  have hcond := n.toInt_eq_toNat_cond
  have hlt := n.isLt
  have hnat : n.toInt = n.toNat := by split_ifs at hcond <;> omega
  have hlog := le_two_pow_intLog2 n.toNat
  have hroom : ∀ t : ℕ, intLog2 n.toNat + 1 ≤ t →
      n.toInt + 1 < ((2 ^ (t + 1) : ℕ) : ℤ) := fun t ht => by
    have hpow : 2 ^ (intLog2 n.toNat + 1) ≤ 2 ^ t := Nat.pow_le_pow_right (by norm_num) ht
    rw [pow_succ] at hpow
    rw [pow_succ]
    omega
  rw [ucBatchDlParams]
  split
  · refine ⟨by positivity, ?_⟩
    have ht : (3 + (intLog2 n.toNat : ℤ) + 5).toNat = 7 + intLog2 n.toNat + 1 := by omega
    change n.toInt + 1 < ((2 ^ (3 + (intLog2 n.toNat : ℤ) + 5).toNat : ℕ) : ℤ)
    rw [ht]
    exact hroom _ (by omega)
  · refine ⟨by positivity, ?_⟩
    have ht : (2 + (intLog2 n.toNat : ℤ) + 5).toNat = 6 + intLog2 n.toNat + 1 := by omega
    change n.toInt + 1 < ((2 ^ (2 + (intLog2 n.toNat : ℤ) + 5).toNat : ℕ) : ℤ)
    rw [ht]
    exact hroom _ (by omega)

section Refinement

variable {α : Type} {q : ℕ} [hq : Fact q.Prime] {E : Type} [AddCommGroup E]
  [Module (ZMod q) E] {B : BnClass α} {Rep : α → ZMod q → Prop}

/-- The tables before the first row. -/
theorem proveBatchDl_tables (hB : B.Lawful Rep) {w : List (ZMod q)} (hw : w ≠ []) {t : ℤ}
    (ht : 0 ≤ t) (ht' : t < 31)
    (hroom : (w.length : ℤ) + 1 < ((2 ^ t.toNat : ℕ) : ℤ)) {pw : List α × List α}
    (heven : List.Forall₂ Rep pw.1 (alternate (0 :: w)).1)
    (hodd : List.Forall₂ Rep pw.2 (alternate (0 :: w)).2) (zero : α) :
    ∃ matrixSum sum T M M', MatrixSum.make zero w.length = .ok matrixSum ∧
    VectorSum.make zero w.length t = .ok sum ∧
      (upTo 0 (((w.length : ℤ) + 1).tdiv 2)).foldlM (valueStep B pw) ⟨matrixSum, sum⟩ = .ok T ∧
      differences B w.length (((w.length : ℤ) + 1).tdiv 2) T.matrixSum = .ok M ∧
      fillTable B w.length (((w.length : ℤ) + 1).tdiv 2) M = .ok M' ∧
      M'.Known Rep (batchValue w) w.length (((w.length : ℤ) + 1).tdiv 2)
        (fun j i => (0 ≤ i ∧ i ≤ (w.length : ℤ)) ∧ -(((w.length : ℤ) + 1).tdiv 2) ≤ j ∧
          j ≤ ((w.length : ℤ) + 1).tdiv 2) ∧
      T.sum.Known Rep (batchValue w) (((w.length : ℤ) + 1).tdiv 2) (2 ^ t.toNat)
        fun e => -(((w.length : ℤ) + 1).tdiv 2) ≤ e ∧ e ≤ ((w.length : ℤ) + 1).tdiv 2 := by
  have hpow : 2 ^ t.toNat ≤ 2 ^ 30 := Nat.pow_le_pow_right (by norm_num) (by omega)
  have hpos := List.length_pos_of_ne_nil hw
  have hf : (fwdDiff 1)^[(w.length : ℤ).toNat + 1] (batchValue w) = 0 := by
    rw [Int.toNat_natCast]
    exact differences_batchValue w
  have hmax : (intMax : ℤ) = 2 ^ 31 - 1 := by decide
  have hdiv : ((w.length : ℤ) + 1).tdiv 2 = ((w.length : ℤ) + 1) / 2 :=
    Int.tdiv_eq_ediv_of_nonneg (by omega)
  obtain ⟨matrixSum, hmatrix, hshape⟩ :=
    MatrixSum.make_shape zero (n := (w.length : ℤ)) (by omega) (by omega)
  obtain ⟨sum, hsum, hknown⟩ : ∃ s, VectorSum.make zero (w.length : ℤ) t = .ok s ∧
      s.Known Rep (batchValue w) (((w.length : ℤ) + 1).tdiv 2) (2 ^ t.toNat) fun _ => False :=
    VectorSum.make_known zero ht ht'
  rw [hdiv] at hshape hknown ⊢
  have hempty : BatchTables.Known Rep (batchValue w) w.length (((w.length : ℤ) + 1) / 2)
      (2 ^ t.toNat) (fun _ => False)
      ⟨matrixSum, sum⟩ := ⟨⟨hshape, fun j i h => h.2.elim⟩, hknown⟩
  obtain ⟨T, hT, hvalues⟩ :=
    hempty.values hB heven hodd hw (by omega) (by omega) (by omega) (by omega) (by omega) (by omega)
  obtain ⟨M, hM, htriangle⟩ := hvalues.matrixSum.differences hB (by omega) (by omega) (by omega)
  obtain ⟨M', hM', htable⟩ := htriangle.fillTable hB hf (by omega) (by omega) (by omega)
  exact ⟨matrixSum, sum, T, M, M', hmatrix, hsum, hT, hM, hM', htable, hvalues.sum⟩

/-- `prove_batch_dl` does what the plain prover does, whatever type its numbers have. -/
theorem proveBatchDl_eq (hB : B.Lawful Rep) (sha : Sha)
    (ro : UcBatchDlHash E → List (Fin 256)) (curve : Curve q E) {params : FischlinParams}
    (ht : 0 ≤ params.t) (ht' : params.t < 31) (hb : params.b < 31) (Q : List E) {w : List (ZMod q)}
    {n : ℤ} (hn : 1 ≤ n) (hnw : n ≤ w.length) (hroom : n + 1 < ((2 ^ params.t.toNat : ℕ) : ℤ))
    (sid : List (Fin 256)) (aux : ℕ) (ωs : List (ℕ → ZMod q)) :
    ∃ out, proveBatchDl B sha ro curve params Q (w.map residue) n sid aux ωs = .ok out ∧
      directProve sha ro curve params Q (w.take n.toNat) ((n + 1).tdiv 2) sid aux ωs = .ok out := by
  obtain ⟨v, hv⟩ : ∃ v, v = w.take n.toNat := ⟨_, rfl⟩
  have hlen : (v.length : ℤ) = n := by
    rw [hv, List.length_take]
    omega
  have hne : v ≠ [] := by
    rintro rfl
    rw [List.length_nil] at hlen
    omega
  obtain ⟨pw, hpw, heven, hodd⟩ := splitWitness_spec hB v
  obtain ⟨matrixSum, sum, T, M, M', hmatrix, hsum, hT, hM, hM', htable, hknown⟩ :=
    proveBatchDl_tables hB hne ht ht' (hlen ▸ hroom) heven hodd (B.ofInt 0)
  rw [hlen] at hmatrix hsum hT hM hM' htable hknown
  have hdiv : (n + 1).tdiv 2 = (n + 1) / 2 := Int.tdiv_eq_ediv_of_nonneg (by omega)
  have hf : (fwdDiff 1)^[n.toNat + 1] (batchValue v) = 0 := by
    rw [← hlen, Int.toNat_natCast]
    exact differences_batchValue v
  have hzero := hB.ofInt 0 (by norm_num)
  rw [Nat.cast_zero] at hzero
  have hstart : BatchState.Agrees Rep v n ((n + 1).tdiv 2) (2 ^ params.t.toNat) params.rho.toNat
      ⟨⟨M', T.sum⟩, (n + 1).tdiv 2, (n + 1).tdiv 2, (n + 1).tdiv 2 + 1, fun _ => B.ofInt 0, [], [],
      B.ofInt 0, B.ofInt 0,
        fun _ => 0, fun _ => 0, []⟩ (DirectState.start q E) := by
    refine ⟨⟨htable.toShape, htable.holds _ _ ⟨⟨le_rfl, by omega⟩, le_rfl, by omega⟩,
      .inl ⟨rfl, rfl⟩, fun i hi hin => ?_, hknown, le_rfl⟩, fun i _ => hzero, rfl, rfl,
      rfl, rfl, rfl⟩
    exact htable.holds ((n + 1).tdiv 2) i ⟨⟨hi, hin⟩, by omega, le_rfl⟩
  have hsimulation : FischlinSimulation
      (batchCalls B sha (fun R => ro ⟨curve.generator, Q, R, sid, aux⟩) curve
        params.rho.toNat n ((n + 1).tdiv 2))
      (directCalls sha (fun R => ro ⟨curve.generator, Q, R, sid, aux⟩) curve
        params.rho.toNat v ((n + 1).tdiv 2))
      (2 ^ params.t.toNat) params.rho.toNat
        (BatchState.Agrees Rep v n ((n + 1).tdiv 2) (2 ^ params.t.toNat) params.rho.toNat)
      (BatchState.AgreesTry Rep v n ((n + 1).tdiv 2) (2 ^ params.t.toNat) params.rho.toNat) :=
    batchCalls_simulation hB sha _ curve hf hn (by omega) (by omega)
  obtain ⟨run, run', hrun, hrun', hrows, hagree⟩ := hsimulation.fischlinProve ht' hb ωs _ _ hstart
  refine ⟨⟨⟨params, run.1.R, (List.range params.rho.toNat).map run.1.e,
    (List.range params.rho.toNat).map run.1.z⟩, run.2, run.1.queries⟩, ?_, ?_⟩
  · rw [proveBatchDl, ← List.map_take, ← hv, hpw]
    simp only [ok_bind, hmatrix, hsum, hT, hM, hM', hrun]
  · rw [directProve, ← hv, hrun', ok_bind, hrows, hagree.R, hagree.e, hagree.z, hagree.queries]

/-- From 31 bits on `1 << t` is no `int`. -/
theorem proveBatchDl_overflow (hB : B.Lawful Rep) (sha : Sha)
    (ro : UcBatchDlHash E → List (Fin 256)) (curve : Curve q E) {params : FischlinParams}
    (ht : 31 ≤ params.t) (Q : List E) (w : List (ZMod q)) (n : ℤ) (sid : List (Fin 256)) (aux : ℕ)
    (ωs : List (ℕ → ZMod q)) :
    proveBatchDl B sha ro curve params Q (w.map residue) n sid aux ωs = throwing .overflow := by
  obtain ⟨pw, hpw, -⟩ := splitWitness_spec hB (w.take n.toNat)
  rw [proveBatchDl, ← List.map_take, hpw, ok_bind, VectorSum.make, if_neg (by omega),
    MatrixSum.make]
  split <;> rfl

end Refinement

section Instances

variable {q : ℕ} [hq : Fact q.Prime] {E : Type} [AddCommGroup E] [Module (ZMod q) E]

omit hq in
theorem modulus256_of_binSize (hvalid : isValidModulus q = true)
    (hbytes : getBinSize q = 32) : Modulus256 q := by
  obtain ⟨-, -, hodd⟩ := of_decide_eq_true hvalid
  have hsize : (q.size + 7) / 8 = 32 := hbytes
  have hlow : 2 ^ 248 ≤ q := Nat.lt_size.mp (by omega)
  have hhigh : q < 2 ^ 256 := Nat.size_le.mp (by omega)
  exact ⟨by omega, by omega, hhigh⟩

theorem ucBatchDlParams_b_lt {n : BitVec 32} (ht : (ucBatchDlParams n).t < 31) :
    (ucBatchDlParams n).b < 31 := by
  rw [ucBatchDlParams] at ht ⊢
  split_ifs at ht ⊢ <;> simp only at ht ⊢ <;> omega

/-- The two instantiations of the prover, on the values of the secrets. -/
theorem proveBatchDl_direct (hvalid : isValidModulus q = true) (hlow : 2 ^ 64 ≤ q)
    (hsize : q.size ≤ 2048) (sha : Sha) (ro : UcBatchDlHash E → List (Fin 256)) (curve : Curve q E)
    (Q : List E) (w : List (ZMod q)) (hn : 1 ≤ (intSize w).toInt) (sid : List (Fin 256)) (aux : ℕ)
    (ωs : List (ℕ → ZMod q)) (ht : (ucBatchDlParams (intSize w)).t < 31) : ∃ out,
    directProve sha ro curve (ucBatchDlParams (intSize w)) Q (w.take (intSize w).toInt.toNat)
      (((intSize w).toInt + 1).tdiv 2) sid aux ωs = .ok out ∧
    proveBatchDl (bnClass q) sha ro curve (ucBatchDlParams (intSize w)) Q (w.map residue)
      (intSize w).toInt sid aux ωs = .ok out ∧
    (getBinSize q = 32 →
      proveBatchDl (bn256Class q) sha ro curve (ucBatchDlParams (intSize w)) Q (w.map residue)
        (intSize w).toInt sid aux ωs = .ok out) := by
  have hroom := ucBatchDlParams_room hn
  have hb := ucBatchDlParams_b_lt ht
  obtain ⟨out, hout, hdirect⟩ :=
    proveBatchDl_eq (bnClass_lawful hvalid hlow hsize) sha ro curve hroom.1 ht hb Q hn
      (intSize_le w) hroom.2 sid aux ωs
  refine ⟨out, hdirect, hout, fun hbytes => ?_⟩
  obtain ⟨out', hout', hdirect'⟩ :=
    proveBatchDl_eq (bn256Class_lawful (modulus256_of_binSize hvalid hbytes)) sha ro curve hroom.1
      ht hb Q hn (intSize_le w) hroom.2 sid aux ωs
  rw [hout', ← hdirect', hdirect]

/-- From `31` repetitions on, both overflow an `int`. -/
theorem proveBatchDl_overflows (hvalid : isValidModulus q = true) (hlow : 2 ^ 64 ≤ q)
    (hsize : q.size ≤ 2048) (sha : Sha) (ro : UcBatchDlHash E → List (Fin 256)) (curve : Curve q E)
    (Q : List E) (w : List (ZMod q)) (sid : List (Fin 256)) (aux : ℕ)
    (ωs : List (ℕ → ZMod q)) (ht : 31 ≤ (ucBatchDlParams (intSize w)).t) :
    proveBatchDl (bnClass q) sha ro curve (ucBatchDlParams (intSize w)) Q (w.map residue)
      (intSize w).toInt sid aux ωs = throwing .overflow ∧
    (getBinSize q = 32 →
      proveBatchDl (bn256Class q) sha ro curve (ucBatchDlParams (intSize w)) Q (w.map residue)
        (intSize w).toInt sid aux ωs = throwing .overflow) :=
  ⟨proveBatchDl_overflow (bnClass_lawful hvalid hlow hsize) sha ro curve ht Q w _ sid aux ωs,
    fun hbytes =>
      proveBatchDl_overflow (bn256Class_lawful (modulus256_of_binSize hvalid hbytes)) sha ro
        curve ht Q w _ sid aux ωs⟩

/-- Both instantiations return what the plain prover does. In particular no access is out of bounds,
and every number that they hash or save is the value of the polynomial. -/
theorem batch_dl_refines (hvalid : isValidModulus q = true) (hlow : 2 ^ 64 ≤ q)
    (hsize : q.size ≤ 2048) (sha : Sha) (ro : UcBatchDlHash E → List (Fin 256)) (curve : Curve q E)
    (Q : List E) (w : List (ZMod q)) (hn : 1 ≤ (intSize w).toInt) (sid : List (Fin 256)) (aux : ℕ)
    (ωs : List (ℕ → ZMod q)) :
    ((ucBatchDlParams (intSize w)).t < 31 → ∃ out,
      directProve sha ro curve (ucBatchDlParams (intSize w)) Q (w.take (intSize w).toInt.toNat)
        (((intSize w).toInt + 1).tdiv 2)
        sid aux ωs = .ok out ∧
      proveBatchDl (bnClass q) sha ro curve (ucBatchDlParams (intSize w)) Q (w.map residue)
        (intSize w).toInt sid aux ωs = .ok out ∧
      (getBinSize q = 32 →
        proveBatchDl (bn256Class q) sha ro curve (ucBatchDlParams (intSize w)) Q (w.map residue)
          (intSize w).toInt sid aux ωs =
          .ok out)) ∧
    (31 ≤ (ucBatchDlParams (intSize w)).t →
      proveBatchDl (bnClass q) sha ro curve (ucBatchDlParams (intSize w)) Q (w.map residue)
        (intSize w).toInt sid aux ωs =
        throwing .overflow ∧
      (getBinSize q = 32 →
        proveBatchDl (bn256Class q) sha ro curve (ucBatchDlParams (intSize w)) Q (w.map residue)
          (intSize w).toInt sid aux ωs =
          throwing .overflow)) := by
  exact ⟨proveBatchDl_direct hvalid hlow hsize sha ro curve Q w hn sid aux ωs,
    proveBatchDl_overflows hvalid hlow hsize sha ro curve Q w sid aux ωs⟩

theorem losingPrime_bounds :
    2 ^ 64 ≤ losingPrime ∧ losingPrime.size ≤ 2048 ∧ getBinSize losingPrime = 32 := by
  have hlt : losingPrime < 2 ^ 256 := losingPrime_modulus256.lt
  have hle : 2 ^ 255 ≤ losingPrime := by norm_num [losingPrime]
  have hsize : losingPrime.size = 256 := le_antisymm (Nat.size_le.mpr hlt) (Nat.lt_size.mpr hle)
  refine ⟨le_trans (by norm_num) hle, hsize.trans_le (by norm_num), ?_⟩
  rw [getBinSize, Int.natAbs_natCast, hsize]
  rfl

def sampleBatchCurve : Curve losingPrime (ZMod losingPrime) := ⟨[99], .bitcoin, 1, one_ne_zero⟩

/-- The proof of the secret `6` with the randomness `7`, by both instantiations. -/
theorem batch_dl_refines_sample : ∃ out,
    directProve (fun _ => 0#32) (fun _ => []) sampleBatchCurve (ucBatchDlParams 1#32) [6] [6] 1 [] 0
      [fun _ => 7] = .ok out ∧
    proveBatchDl (bnClass losingPrime) (fun _ => 0#32) (fun _ => []) sampleBatchCurve
      (ucBatchDlParams 1#32) [6]
      [residue (6 : ZMod losingPrime)] 1 [] 0 [fun _ => 7] = .ok out ∧
    proveBatchDl (bn256Class losingPrime) (fun _ => 0#32) (fun _ => []) sampleBatchCurve
      (ucBatchDlParams 1#32) [6]
      [residue (6 : ZMod losingPrime)] 1 [] 0 [fun _ => 7] = .ok out := by
  obtain ⟨hlow, hsize, hbytes⟩ := losingPrime_bounds
  have hone : (intSize [(6 : ZMod losingPrime)]).toInt = 1 := rfl
  obtain ⟨out, hdirect, hbn, hbn256⟩ :=
    (batch_dl_refines losingPrime_valid hlow hsize (fun _ => 0#32) (fun _ => []) sampleBatchCurve
    [6] [6] hone.ge [] 0 [fun _ => 7]).1 (by decide)
  exact ⟨out, hdirect, hbn, hbn256 hbytes⟩

theorem ucBatchDlProve_eq (hvalid : isValidModulus q = true) (hlow : 2 ^ 64 ≤ q)
    (hsize : q.size ≤ 2048) (sha : Sha) (ro : UcBatchDlHash E → List (Fin 256)) (curve : Curve q E)
    {Q : List E} {w : List (ZMod q)} (hlen : Q.length = w.length) (hn : 1 ≤ (intSize w).toInt)
    (ht : (ucBatchDlParams (intSize w)).t < 31) (sid : List (Fin 256)) (aux : ℕ)
    (ωs : List (ℕ → ZMod q)) :
    ∃ out, ucBatchDlProve sha ro curve Q (w.map residue) sid aux ωs = .ok out ∧
      directProve sha ro curve (ucBatchDlParams (intSize w)) Q (w.take (intSize w).toInt.toNat)
        (((intSize w).toInt + 1).tdiv 2)
        sid aux ωs = .ok out := by
  obtain ⟨out, hdirect, hout, hout'⟩ :=
    proveBatchDl_direct hvalid hlow hsize sha ro curve Q w hn sid aux ωs ht
  have hpos : Q.isEmpty = false := by
    have hle := intSize_le w
    rw [List.isEmpty_eq_false_iff, ← List.length_pos_iff]
    omega
  refine ⟨out, ?_, hdirect⟩
  rw [ucBatchDlProve, hpos, List.length_map, decide_eq_true hlen, Bool.not_false, Bool.true_and,
    cbAssert_true, ok_bind]
  change (if getBinSize q = 32 then _ else _) = _
  split
  · exact hout' ‹_›
  · exact hout

end Instances

/-! ## The verifier -/

/-- `r` is the randomness of the row `i`, whose response is right and has a hash with enough
zeros. -/
structure DirectRow {q : ℕ} [Fact q.Prime] (sha : Sha) (bMask : BitVec 32)
    (commonHash : List (Fin 256)) (w : List (ZMod q)) (nHalf : ℤ) (eMax i : ℕ)
    (r : ZMod q) (e z : ℤ) : Prop where
  challenge : -nHalf ≤ e ∧ e < eMax - nHalf
  response : z = residue (r + batchValue w (e : ZMod q))
  accepted : sha (fischlinBytes commonHash i e [z]) &&& bMask = 0

section Prover

variable {q : ℕ} [hq : Fact q.Prime] {E : Type} [AddCommGroup E] [Module (ZMod q) E]

/-- The state of the plain prover with `k` rows saved under the samples `ω`. -/
structure DirectSaved (sha : Sha) (bMask : BitVec 32) (common : List E → List (Fin 256))
    (curve : Curve q E) (rho : ℕ) (w : List (ZMod q)) (nHalf : ℤ) (eMax : ℕ) (ω : ℕ → ZMod q)
    (k : ℕ) (st : DirectState q E) : Prop where
  r : st.r = ω
  R : st.R = (List.range rho).map fun i => ω i • curve.generator
  commonHash : st.commonHash = common st.R
  saved : ∀ i < k, DirectRow sha bMask st.commonHash w nHalf eMax i (ω i) (st.e i) (st.z i)

theorem directCalls_spec (sha : Sha) (bMask : BitVec 32) (common : List E → List (Fin 256))
    (curve : Curve q E) (rho : ℕ) (w : List (ZMod q)) (nHalf : ℤ) (eMax : ℕ) :
    FischlinSpec (directCalls sha common curve rho w nHalf) False eMax bMask rho (fun _ => True)
      (DirectSaved sha bMask common curve rho w nHalf eMax) (fun ω i _ =>
        DirectSaved sha bMask common curve rho w nHalf eMax ω i) where
  restart ω st _ := ⟨rfl, rfl, rfl, fun i hi => absurd hi (Nat.not_lt_zero i)⟩
  responseBegin ω i st _ hst := hst
  hash ω i e st hi he hst := by
    refine ⟨⟨hst.r, hst.R, hst.commonHash, hst.saved⟩, fun hmask =>
      ⟨hst.r, hst.R, hst.commonHash, fun k hk => ?_⟩⟩
    change DirectRow sha bMask st.commonHash w nHalf eMax k (ω k)
      (Function.update st.e i (e - nHalf) k)
      (Function.update st.z i (st.response w i (e - nHalf)) k)
    rcases Nat.lt_succ_iff_lt_or_eq.mp hk with hk | rfl
    · rw [Function.update_of_ne hk.ne, Function.update_of_ne hk.ne]
      exact hst.saved k hk
    · rw [Function.update_self, Function.update_self]
      refine ⟨⟨by omega, by omega⟩, ?_, hmask⟩
      rw [DirectState.response, hst.r]
  responseNext ω i e st _ _ hst := hst
  stop ω i e st hst := hst
  idle ω i st hst := trivial

/-- What the plain prover returns. -/
theorem directProve_ok {sha : Sha} {ro : UcBatchDlHash E → List (Fin 256)} {curve : Curve q E}
    {params : FischlinParams} (ht : params.t < 31) (hb : params.b < 31) {Q : List E}
    {w : List (ZMod q)} {nHalf : ℤ} {sid : List (Fin 256)} {aux : ℕ} {ωs : List (ℕ → ZMod q)}
    (hne : ωs ≠ []) {out : ProverEnd (UcBatchDl E)}
    (h : directProve sha ro curve params Q w nHalf sid aux ωs = .ok out) :
    (out.proof.params = params ∧ out.proof.e.length = params.rho.toNat ∧
      out.proof.z.length = params.rho.toNat) ∧
      ∃ ω ∈ ωs, out.proof.R = (List.range params.rho.toNat).map (fun i => ω i • curve.generator) ∧
      out.rows ≤ params.rho.toNat ∧
        ∀ i < out.rows, DirectRow sha params.mask (ro ⟨curve.generator, Q, out.proof.R, sid, aux⟩) w
          nHalf (2 ^ params.t.toNat) i
          (ω i) (out.proof.e.getD i 0) (out.proof.z.getD i 0) := by
  obtain ⟨run, hrun, h⟩ := bind_ok_iff.mp h
  cases h
  have hmask : params.bMask = .ok params.mask := by
    rw [FischlinParams.bMask, decide_eq_true hb, cbAssert_true, ok_bind]
  have hspec := directCalls_spec sha params.mask (fun R => ro ⟨curve.generator, Q, R, sid, aux⟩)
    curve params.rho.toNat w nHalf
    (2 ^ params.t.toNat)
  obtain ⟨-, hnil | ⟨ω, hω, hrows, hle⟩⟩ := (hspec.fischlinProve ht hmask ωs _ trivial).ok hrun
  · exact absurd hnil.1 hne
  · refine ⟨⟨rfl, by simp, by simp⟩, ω, hω, hrows.R, hle, fun i hi => ?_⟩
    have hrow := hrows.saved i hi
    rw [hrows.commonHash] at hrow
    have hlt : i < params.rho.toNat := lt_of_lt_of_le hi hle
    rw [getD_map_range _ _ hlt, getD_map_range _ _ hlt]
    exact hrow

end Prover

section Verifier

variable {q : ℕ} [hq : Fact q.Prime] {E : Type} [AddCommGroup E] [Module (ZMod q) E] [DecidableEq E]
  {sha : Sha} {ro : UcBatchDlHash E → List (Fin 256)} {curve : Curve q E}
  {sid : List (Fin 256)} {aux : ℕ}

/-- The equation that the verifier checks for one row. -/
def BatchRowHolds (G : E) (Q : List E) (R : E) (e : BitVec 32) (z : ℤ) : Prop :=
  R = (z : ZMod q) • G - horner (0 :: Q) (e.toInt : ZMod q)

/-- What the verifier accepts in one row. -/
structure BatchRowAccepted (sha : Sha) (curve : Curve q E) (commonHash : List (Fin 256))
    (Q : List E) (π : UcBatchDl E) (i : ℕ) :
    Prop where
  range : 0 ≤ π.z.getD i 0 ∧ π.z.getD i 0 < q
  holds : BatchRowHolds (q := q) curve.generator Q (π.R.getD i 0)
    (BitVec.ofInt 32 (π.e.getD i 0)) (π.z.getD i 0)
  hash : checkRow sha π.params.mask commonHash i (π.e.getD i 0) [π.z.getD i 0] = .ok ()

theorem checkWithEffectiveB_ok_iff {params : FischlinParams} {b : ℤ} :
    params.checkWithEffectiveB b = .ok () ↔
    0 < params.rho ∧ 0 < params.b ∧ params.b < 31 ∧ 0 < b ∧ secPCom ≤ params.rho * b := by
  simp only [FischlinParams.checkWithEffectiveB, unit_bind_ok_iff, require_ok_iff,
    decide_eq_true_eq]

/-- The verifier accepts the proofs whose parameters, lengths and points pass their checks and whose
rows all hold. -/
theorem ucBatchDlVerify_ok_iff {Q : List E} {π : UcBatchDl E} :
    ucBatchDlVerify sha ro curve Q sid aux π = .ok () ↔
      0 < (intSize Q).toInt ∧ π.params.checkWithEffectiveB
        (π.params.b - intLog2 (intSize Q).toNat) = .ok () ∧
      (π.R.length : ℤ) = π.params.rho ∧ (π.e.length : ℤ) = π.params.rho ∧
      (π.z.length : ℤ) = π.params.rho ∧
      (∀ P ∈ Q.take (intSize Q).toInt.toNat, P ≠ 0) ∧ (∀ P ∈ π.R, P ≠ 0) ∧
      ∀ i < π.params.rho.toNat, BatchRowAccepted sha curve (ro ⟨curve.generator, Q, π.R, sid, aux⟩)
        (Q.take (intSize Q).toInt.toNat) π i := by
  simp only [ucBatchDlVerify, unit_bind_ok_iff, require_ok_iff, decide_eq_true_eq, forEach_ok_iff,
    checkPoint_ok_iff]
  change (0 < (intSize Q).toInt ∧ _) ↔ _
  refine and_congr_right fun hn => and_congr_right fun hparams => and_congr_right fun _ => ?_
  refine and_congr_right fun _ => and_congr_right fun _ => and_congr_right fun _ => ?_
  obtain ⟨-, -, hb, heffective, -⟩ := checkWithEffectiveB_ok_iff.mp hparams
  have hmask : π.params.bMask = .ok π.params.mask := by
    rw [FischlinParams.bMask, decide_eq_true hb, cbAssert_true, ok_bind]
  change 0 < π.params.b - intLog2 (intSize Q).toNat at heffective
  have hlen : (0 :: Q.take (intSize Q).toInt.toNat).length ≤ intMax := by
    have hcond := (intSize Q).toInt_eq_toNat_cond
    have hlt := (intSize Q).isLt
    have hlog := le_two_pow_intLog2 (intSize Q).toNat
    have hpow : 2 ^ intLog2 (intSize Q).toNat ≤ 2 ^ 29 :=
      Nat.pow_le_pow_right (by norm_num) (by omega)
    have hmax : intMax = 2 ^ 31 - 1 := by decide
    have htake := List.length_take_le (intSize Q).toInt.toNat Q
    rw [List.length_cons]
    split_ifs at hcond <;> omega
  rw [hmask, ok_bind, unit_bind_ok_iff, forEach_ok_iff]
  simp only [checkPoint_ok_iff, forEach_ok_iff, List.mem_range]
  refine and_congr_right fun _ => forall_congr' fun i => forall_congr' fun _ => ?_
  rw [ucBatchDlStep, unit_bind_ok_iff, checkRightOpenRange_ok_iff]
  constructor
  · rintro ⟨hrange, h⟩
    rw [mulToGenerator_of_isInRange curve ((isInRange_iff _).mpr hrange), ok_bind] at h
    have hhorner := hornerPolySmallVartime_eq (q := q) (List.cons_ne_nil 0 _) hlen
      (BitVec.ofInt 32 (π.e.getD i 0))
    change (hornerPolySmallVartime (0 :: Q.take (intSize Q).toInt.toNat) _ >>= _) = _ at h
    rw [hhorner, ok_bind, unit_bind_ok_iff, require_ok_iff, decide_eq_true_eq] at h
    exact ⟨hrange, h.1, h.2⟩
  · rintro ⟨hrange, hholds, hhash⟩
    have hhorner := hornerPolySmallVartime_eq (q := q) (List.cons_ne_nil 0 _) hlen
      (BitVec.ofInt 32 (π.e.getD i 0))
    refine ⟨hrange, ?_⟩
    rw [mulToGenerator_of_isInRange curve ((isInRange_iff _).mpr hrange), ok_bind]
    change (hornerPolySmallVartime (0 :: Q.take (intSize Q).toInt.toNat) _ >>= _) = _
    rw [hhorner, ok_bind, unit_bind_ok_iff, require_ok_iff, decide_eq_true_eq]
    exact ⟨hholds, hhash⟩

theorem intSize_map {α β : Type} (f : α → β) (l : List α) : intSize (l.map f) = intSize l := by
  rw [intSize, intSize, List.length_map]

theorem ucBatchDlParams_ok {n : BitVec 32} (ht : (ucBatchDlParams n).t < 31) :
    (ucBatchDlParams n).checkWithEffectiveB ((ucBatchDlParams n).b - intLog2 n.toNat) = .ok () := by
  have hb := ucBatchDlParams_b_lt ht
  rw [checkWithEffectiveB_ok_iff]
  rw [ucBatchDlParams] at hb ⊢
  have hcom : (secPCom : ℤ) = 128 := by decide
  split_ifs at hb ⊢ <;> simp only at hb ⊢ <;> omega

omit [DecidableEq E] in
/-- In a row of the plain prover the equation of the verifier holds. -/
theorem DirectRow.holds {bMask : BitVec 32} {commonHash : List (Fin 256)} {w : List (ZMod q)}
    {nHalf : ℤ} {eMax i : ℕ} {r : ZMod q} {e z : ℤ}
    (h : DirectRow sha bMask commonHash w nHalf eMax i r e z) (hhalf : nHalf ≤ 2 ^ 30)
    (hhalf' : 0 ≤ nHalf) (heMax : eMax ≤ 2 ^ 30) :
    BatchRowHolds (q := q) curve.generator (w.map fun x => x • curve.generator)
      (r • curve.generator) (BitVec.ofInt 32 e) z := by
  have hchallenge := h.challenge
  have he : (BitVec.ofInt 32 e).toInt = e :=
    BitVec.toInt_ofInt_eq_self (by norm_num) (by omega) (by omega)
  have hmap :=
    horner_map (LinearMap.toSpanSingleton (ZMod q) E curve.generator) (0 :: w) (e : ZMod q)
  rw [List.map_cons, map_zero, ← batchValue_eq] at hmap
  have hmap' : horner (0 :: w.map fun x => x • curve.generator) (e : ZMod q) =
    batchValue w (e : ZMod q) • curve.generator := hmap
  rw [BatchRowHolds, he, hmap', h.response, cast_residue, add_smul, add_sub_cancel_right]

/-- The proofs that `prove` returns are accepted, if no secret and no randomness is zero. -/
theorem batch_dl_accepts (hvalid : isValidModulus q = true) (hlow : 2 ^ 64 ≤ q)
    (hsize : q.size ≤ 2048) (sha : Sha) (ro : UcBatchDlHash E → List (Fin 256)) (curve : Curve q E)
    (w : List (ZMod q)) (hn : 1 ≤ (intSize w).toInt) (sid : List (Fin 256)) (aux : ℕ)
    (ωs : List (ℕ → ZMod q)) (hne : ωs ≠ []) (out : ProverEnd (UcBatchDl E))
    (h : ucBatchDlProve sha ro curve (w.map fun x => x • curve.generator) (w.map residue) sid aux
      ωs = .ok out) (hrows : out.rows = out.proof.params.rho) :
    ∃ ω ∈ ωs, out.proof.R = (List.range out.proof.params.rho.toNat).map (fun i =>
      ω i • curve.generator) ∧
      ((∀ x ∈ w, x ≠ 0) → (∀ i < out.proof.params.rho.toNat, ω i ≠ 0) →
        ucBatchDlVerify sha ro curve (w.map fun x => x • curve.generator) sid aux out.proof =
          .ok ()) := by
  have ht : (ucBatchDlParams (intSize w)).t < 31 := by
    by_contra hge
    have hfail := proveBatchDl_overflows hvalid hlow hsize sha ro curve
      (w.map fun x => x • curve.generator) w sid aux ωs (not_lt.mp hge)
    obtain ⟨-, h⟩ := cbAssert_bind_ok_iff.mp h
    change (if getBinSize q = 32 then _ else _) = _ at h
    rw [List.length_map] at h
    split at h
    · exact absurd ((hfail.2 ‹_›).symm.trans h) nofun
    · exact absurd (hfail.1.symm.trans h) nofun
  have hroom := ucBatchDlParams_room hn
  have hlength : (w.map fun x => x • curve.generator).length = w.length := List.length_map _
  obtain ⟨out', hout, hdirect⟩ :=
    ucBatchDlProve_eq hvalid hlow hsize sha ro curve hlength hn ht sid aux ωs
  obtain rfl : out' = out := Except.ok.inj (hout.symm.trans h)
  obtain ⟨⟨hparams, he, hz⟩, ω, hω, hR, -, hsaved⟩ :=
    directProve_ok ht (ucBatchDlParams_b_lt ht) hne hdirect
  rw [hparams] at hrows ⊢
  refine ⟨ω, hω, hR, fun hw hr => ?_⟩
  have hrho : 0 ≤ (ucBatchDlParams (intSize w)).rho := by omega
  rw [ucBatchDlVerify_ok_iff, hparams, intSize_map]
  refine ⟨by omega, ucBatchDlParams_ok ht, ?_, by omega, by omega, fun P hP => ?_, fun P hP => ?_,
    fun i hi => ?_⟩
  · rw [hR, List.length_map, List.length_range]
    omega
  · obtain ⟨x, hx, rfl⟩ := List.mem_map.mp (List.mem_of_mem_take hP)
    rw [Ne, smul_generator_eq_zero]
    exact hw x hx
  · rw [hR] at hP
    obtain ⟨i, hi, rfl⟩ := List.mem_map.mp hP
    rw [Ne, smul_generator_eq_zero]
    exact hr i (List.mem_range.mp hi)
  · have hrow := hsaved i (by omega)
    have hpow : 2 ^ (ucBatchDlParams (intSize w)).t.toNat ≤ 2 ^ 30 :=
      Nat.pow_le_pow_right (by norm_num) (by omega)
    have hdiv : ((intSize w).toInt + 1).tdiv 2 = ((intSize w).toInt + 1) / 2 :=
      Int.tdiv_eq_ediv_of_nonneg (by omega)
    have hrange := (isInRange_iff _).mp
      (isInRange_residue (ω i + batchValue (w.take (intSize w).toInt.toNat)
      ((out'.proof.e.getD i 0 : ℤ) : ZMod q)))
    refine ⟨?_, ?_, ?_⟩
    · rw [hrow.response]
      exact hrange
    · rw [hR, getD_map_range _ _ hi, ← List.map_take]
      exact hrow.holds (by omega) (by omega) hpow
    · have hbytes : ∀ z ∈ [out'.proof.z.getD i 0], getBinSize z ≤ 256 := fun z hz => by
        rw [List.mem_singleton.mp hz, hrow.response]
        exact getBinSize_residue_le hsize _
      rw [hparams, checkRow, hash32bitForZkFischlin_eq sha _ i _ hbytes, ok_bind, hrow.accepted]
      rfl

/-- The same proof is accepted. -/
theorem batch_dl_accepts_sample : ∃ out,
    ucBatchDlProve (fun _ => 0#32) (fun _ => []) sampleBatchCurve [6]
      [residue (6 : ZMod losingPrime)] [] 0 [fun _ => 7] = .ok out ∧
    ucBatchDlVerify (fun _ => 0#32) (fun _ => []) sampleBatchCurve [6] [] 0 out.proof = .ok () := by
  obtain ⟨hlow, hsize, -⟩ := losingPrime_bounds
  have hone : (intSize [(6 : ZMod losingPrime)]).toInt = 1 := rfl
  have hpoints : [(6 : ZMod losingPrime)].map (fun x => x • sampleBatchCurve.generator) = [6] := by
    rw [List.map_singleton]
    exact congrArg (fun x => [x]) (mul_one _)
  obtain ⟨out, hout, hdirect⟩ :=
    ucBatchDlProve_eq losingPrime_valid hlow hsize (fun _ => 0#32) (fun _ => []) sampleBatchCurve
    (Q := [6]) (w := [6]) rfl hone.ge (by decide) [] 0 [fun _ => 7]
  have hrows : out.rows = out.proof.params.rho := by
    obtain ⟨run, hrun, h⟩ := bind_ok_iff.mp hdirect
    cases h
    have hall :=
        fischlinProve_zero (rfl : (ucBatchDlParams 1#32).bMask = .ok (ucBatchDlParams 1#32).mask)
          (fun i e st out h => by
      cases h
      exact BitVec.zero_and) (List.cons_ne_nil _ _) hrun
    exact congrArg Nat.cast hall
  have haccepts := batch_dl_accepts losingPrime_valid hlow hsize (fun _ => 0#32) (fun _ => [])
    sampleBatchCurve [6] hone.ge [] 0
    [fun _ => 7] (List.cons_ne_nil _ _) out (by rw [hpoints]; exact hout) hrows
  obtain ⟨ω, hω, -, haccept⟩ := haccepts
  obtain rfl := List.mem_singleton.mp hω
  rw [hpoints] at haccept
  have hne : ∀ n : ℕ, n < losingPrime → 0 < n →
      ((n : ℕ) : ZMod losingPrime) ≠ 0 := fun n hlt hpos h =>
    absurd (Nat.le_of_dvd hpos ((ZMod.natCast_eq_zero_iff _ _).mp h)) (by omega)
  refine ⟨out, hout, haccept (fun x hx => ?_) fun i _ => ?_⟩
  · rw [List.mem_singleton.mp hx]
    exact_mod_cast hne 6 (by omega) (by decide)
  · exact_mod_cast hne 7 (by omega) (by decide)

/-! ## What the verifier proves -/

omit [DecidableEq E] in
/-- Rows with one commitment at as many challenges as the polynomial has coefficients tell the
randomness and the secrets, and their responses are those that a prover with these secrets
computes. -/
theorem batchRows_extract {Q : List E} {R : E} (z : BitVec 32 → ℤ)
    {es : List (BitVec 32)} (hn : es.Nodup) (hlow : 2 ^ 64 ≤ q) (hlen : es.length = Q.length + 1)
    (h : ∀ e ∈ es, BatchRowHolds (q := q) curve.generator Q R e (z e)) :
    ∃ (r : ZMod q) (w : List (ZMod q)), R = r • curve.generator ∧
    Q = w.map (fun x => x • curve.generator) ∧
      ∀ e ∈ es, (z e : ZMod q) = r + batchValue w (e.toInt : ZMod q) := by
  have hinj : ∀ e e' : BitVec 32, (e.toInt : ZMod q) = (e'.toInt : ZMod q) → e = e' := by
    intro e e' heq
    have hdvd := (ZMod.intCast_eq_intCast_iff_dvd_sub _ _ q).mp heq
    have hlt := e.toInt_lt
    have hle := e.le_toInt
    have hlt' := e'.toInt_lt
    have hle' := e'.le_toInt
    have hzero := Int.eq_zero_of_abs_lt_dvd hdvd (by rw [abs_lt]; omega)
    exact BitVec.eq_of_toInt_eq (by omega)
  have hnodes : (es.map fun e => (e.toInt : ZMod q)).Nodup := hn.map (fun e e' => hinj e e')
  obtain ⟨b, hb, hthrough, -⟩ := exists_horner_through hnodes fun e => (z e : ZMod q)
  obtain ⟨r, w, rfl⟩ := List.exists_cons_of_ne_nil
    (List.ne_nil_of_length_pos (hb ▸ hlen ▸ Nat.succ_pos _ : 0 < b.length))
  have hpoints : R :: Q = (r :: w).map (fun x => x • curve.generator) := by
    apply eq_of_horner_eq hnodes
    · rw [List.length_map, hb, hlen, List.length_cons]
    · rw [List.length_map, hlen, List.length_cons]
    · intro x hx
      obtain ⟨e, he, rfl⟩ := List.mem_map.mp hx
      have hmap := horner_map (LinearMap.toSpanSingleton (ZMod q) E curve.generator)
        (r :: w) (e.toInt : ZMod q)
      rw [hthrough e he] at hmap
      have hrow : R = (z e : ZMod q) • curve.generator - horner (0 :: Q) (e.toInt : ZMod q) :=
        h e he
      rw [horner_cons, zero_add] at hrow
      rw [horner_cons, hrow, sub_add_cancel]
      exact hmap.symm
  rw [List.map_cons, List.cons.injEq] at hpoints
  refine ⟨r, w, hpoints.1, hpoints.2, fun e he => ?_⟩
  rw [← hthrough e he, horner_cons, batchValue_eq, horner_cons, zero_add]

/-- From accepted proofs that share the commitment of a row and differ in its challenge, one for
every point and one more, the discrete logarithms of all points are read. -/
theorem batch_dl_extracts (hlow : 2 ^ 64 ≤ q) (sha : Sha) (ro : UcBatchDlHash E → List (Fin 256))
    (curve : Curve q E) (Q : List E) (sid : List (Fin 256)) (aux i : ℕ) (R : E)
    (π : BitVec 32 → UcBatchDl E) (es : List (BitVec 32)) (hn : es.Nodup)
    (hlen : es.length = (intSize Q).toInt.toNat + 1)
    (h : ∀ e ∈ es, ucBatchDlVerify sha ro curve Q sid aux (π e) = .ok () ∧
      i < (π e).params.rho.toNat ∧ (π e).R.getD i 0 = R ∧
      BitVec.ofInt 32 ((π e).e.getD i 0) = e) :
    ∃ (r : ZMod q) (w : List (ZMod q)), R = r • curve.generator ∧
      Q.take (intSize Q).toInt.toNat = w.map (fun x => x • curve.generator) ∧
      ∀ e ∈ es, (π e).z.getD i 0 = residue (r + batchValue w (e.toInt : ZMod q)) := by
  have hrows : ∀ e ∈ es, BatchRowHolds (q := q) curve.generator (Q.take (intSize Q).toInt.toNat)
      R e ((π e).z.getD i 0) ∧
      0 ≤ (π e).z.getD i 0 ∧ (π e).z.getD i 0 < q := by
    intro e he
    obtain ⟨hverify, hi, hR, hchallenge⟩ := h e he
    have hrow := (ucBatchDlVerify_ok_iff.mp hverify).2.2.2.2.2.2.2 i hi
    have hholds := hrow.holds
    rw [hR, hchallenge] at hholds
    exact ⟨hholds, hrow.range⟩
  have hle := intSize_le Q
  have htake : es.length = (Q.take (intSize Q).toInt.toNat).length + 1 := by
    rw [List.length_take]
    omega
  obtain ⟨r, w, hR, hQ, hz⟩ :=
    batchRows_extract (fun e => (π e).z.getD i 0) hn hlow htake fun e he => (hrows e he).1
  refine ⟨r, w, hR, hQ, fun e he => ?_⟩
  have hrange := (hrows e he).2
  rw [← hz e he]
  exact eq_residue_of_isInRange ((isInRange_iff _).mpr hrange)

end Verifier

/-- A proof of the secret `w` whose rows all have the randomness `r` and the challenge `e`. -/
def sampleBatchProof (w r : ZMod losingPrime) (e : BitVec 32) : UcBatchDl (ZMod losingPrime) :=
  ⟨ucBatchDlParams 1#32, List.replicate 43 r, List.replicate 43 e.toInt,
    List.replicate 43 (residue (r + w * (e.toInt : ZMod losingPrime)))⟩

theorem sampleBatchProof_ok (e : BitVec 32) :
    ucBatchDlVerify (fun _ => 0#32) (fun _ => []) sampleBatchCurve [6] [] 0
      (sampleBatchProof 6 7 e) = .ok () := by
  obtain ⟨-, hsize, -⟩ := losingPrime_bounds
  have hne : ∀ n : ℕ, n < losingPrime → 0 < n →
      ((n : ℕ) : ZMod losingPrime) ≠ 0 := fun n hlt hpos h =>
    absurd (Nat.le_of_dvd hpos ((ZMod.natCast_eq_zero_iff _ _).mp h)) (by omega)
  have hlow := losingPrime_bounds.1
  have hone : (intSize [(6 : ZMod losingPrime)]).toInt = 1 := rfl
  rw [ucBatchDlVerify_ok_iff, hone]
  refine ⟨one_pos, ucBatchDlParams_ok (n := 1#32) (by decide), rfl, rfl, rfl, fun P hP => ?_,
    fun P hP => ?_, fun i hi => ?_⟩
  · rw [List.mem_singleton.mp hP]
    exact_mod_cast hne 6 (by omega) (by decide)
  · rw [List.eq_of_mem_replicate hP]
    exact_mod_cast hne 7 (by omega) (by decide)
  · have hi : i < 43 := hi
    have hR : (sampleBatchProof 6 7 e).R.getD i 0 = 7 := List.getD_replicate _ hi
    have he : (sampleBatchProof 6 7 e).e.getD i 0 = e.toInt := List.getD_replicate _ hi
    have hz : (sampleBatchProof 6 7 e).z.getD i 0 =
      residue (7 + 6 * (e.toInt : ZMod losingPrime)) := List.getD_replicate _ hi
    refine ⟨?_, ?_, ?_⟩
    · rw [hz]
      exact (isInRange_iff _).mp (isInRange_residue _)
    · have htake : ([(6 : ZMod losingPrime)].take (1 : ℤ).toNat) = [6] := rfl
      rw [hR, he, hz, BatchRowHolds, BitVec.ofInt_toInt, cast_residue, htake]
      change (7 : ZMod losingPrime) = (7 + 6 * (e.toInt : ZMod losingPrime)) *
        1 - horner [0, 6] (e.toInt : ZMod losingPrime)
      simp only [horner_cons, horner_nil, smul_eq_mul]
      ring
    · have hbytes : ∀ z ∈ [(sampleBatchProof 6 7 e).z.getD i 0],
          getBinSize z ≤ 256 := fun z hz' => by
        rw [List.mem_singleton.mp hz', hz]
        exact getBinSize_residue_le hsize _
      rw [checkRow, hash32bitForZkFischlin_eq (fun _ => 0#32) [] i _ hbytes, ok_bind,
        BitVec.zero_and]
      rfl

/-- Two of these proofs reveal the secret. -/
theorem batch_dl_extracts_sample : ∃ (r : ZMod losingPrime) (w : List (ZMod losingPrime)),
    (7 : ZMod losingPrime) = r • sampleBatchCurve.generator ∧
    [6] = w.map (fun x => x • sampleBatchCurve.generator) := by
  obtain ⟨r, w, hr, hw, -⟩ :=
    batch_dl_extracts losingPrime_bounds.1 (fun _ => 0#32) (fun _ => [])
      sampleBatchCurve [6] [] 0 0 7
    (sampleBatchProof 6 7) [0#32, 1#32] (by decide) rfl fun e _ =>
      ⟨sampleBatchProof_ok e, Nat.succ_pos 42, rfl, BitVec.ofInt_toInt⟩
  exact ⟨r, w, hr, hw⟩

end CbMpc
