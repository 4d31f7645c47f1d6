import CbMpc.BatchDlValues
import CbMpc.FischlinSimulation

/-!
# The run of the batch prover

The prover keeps the value at the current challenge at hand, through any number of tries, rows and
restarts: the table covers the challenges around zero, the rolling row the others, and what `sum`
has is never computed again. So it does what a prover does that evaluates the polynomial for every
response.
-/
namespace CbMpc

open DifferenceTable Interpolation

/-! ## The plain prover -/

/-- The state of a prover that computes every response from the polynomial. -/
structure DirectState (q : ℕ) (E : Type) where
  r : ℕ → ZMod q
  R : List E
  commonHash : List (Fin 256)
  e : ℕ → ℤ
  z : ℕ → ℤ
  queries : List (List (Fin 256))

section Direct

variable {q : ℕ} {E : Type} [AddCommGroup E] [Module (ZMod q) E]

def DirectState.start (q : ℕ) (E : Type) : DirectState q E :=
  ⟨fun _ => 0, [], [], fun _ => 0, fun _ => 0, []⟩

/-- The response of row `i` to the challenge `ei`. -/
def DirectState.response [Fact q.Prime] (w : List (ZMod q)) (i : ℕ) (ei : ℤ)
    (st : DirectState q E) : ℤ :=
  residue (st.r i + batchValue w (ei : ZMod q))

def directCalls [Fact q.Prime] (sha : Sha) (common : List E → List (Fin 256)) (curve : Curve q E)
    (rho : ℕ) (w : List (ZMod q)) (nHalf : ℤ) : FischlinCalls (DirectState q E) (ℕ → ZMod q) where
  restart ω st :=
    let R := (List.range rho).map fun i => ω i • curve.generator
    .ok { st with r := ω, R, commonHash := common R }
  responseBegin _ st := .ok st
  hash i tryNumber st :=
    let ei := tryNumber - nHalf
    let bytes := fischlinBytes st.commonHash i ei [st.response w i ei]
    .ok ({ st with queries := bytes :: st.queries }, sha bytes)
  save i tryNumber st :=
    let ei := tryNumber - nHalf
    .ok { st with e := Function.update st.e i ei, z := Function.update st.z i (st.response w i ei) }
  responseNext _ st := .ok st

/-- What `prove_batch_dl` is for. -/
def directProve [Fact q.Prime] (sha : Sha) (ro : UcBatchDlHash E → List (Fin 256))
    (curve : Curve q E) (params : FischlinParams) (Q : List E) (w : List (ZMod q)) (nHalf : ℤ)
    (sid : List (Fin 256)) (aux : ℕ) (ωs : List (ℕ → ZMod q)) :
    Outcome (ProverEnd (UcBatchDl E)) := do
  let rho := params.rho.toNat
  let run ← fischlinProve params
    (directCalls sha (fun R => ro ⟨curve.generator, Q, R, sid, aux⟩) curve rho w nHalf) ωs
    (DirectState.start q E)
  .ok ⟨⟨params, run.1.R, (List.range rho).map run.1.e, (List.range rho).map run.1.z⟩, run.2,
    run.1.queries⟩

end Direct

/-! ## One row of the table after the other -/

section Rolling

variable {α : Type} {q : ℕ} (Rep : α → ZMod q → Prop) (f : ZMod q → ZMod q) (n nHalf : ℤ) (size : ℕ)

/-- The two rows of the matrix beyond the table are written in turn, the values up to `k` are known,
and so is the row `k`. -/
structure BatchState.Tabulated {E : Type} (st : BatchState α E) : Prop where
  shape : st.tables.matrixSum.Shape n nHalf
  first : st.tables.matrixSum.Holds Rep f (-nHalf) (-nHalf) 0
  rows : st.last = nHalf ∧ st.current = nHalf + 1 ∨ st.last = nHalf + 1 ∧ st.current = nHalf
  last : ∀ i, 0 ≤ i → i ≤ n → st.tables.matrixSum.Holds Rep f st.last st.k i
  sum : st.tables.sum.Known Rep f nHalf size fun e => -nHalf ≤ e ∧ e ≤ st.k
  k_ge : nHalf ≤ st.k

variable {Rep f n nHalf size} {B : BnClass α} (hB : B.Lawful Rep)

include hB

/-- What `response_next` adds to the tables, and that it has the value at `ei` then. -/
theorem BatchState.Tabulated.extendSum (hf : (fwdDiff 1)^[n.toNat + 1] f = 0) (hn : 1 ≤ n)
    (hhalf : 1 ≤ nHalf) (hhalf' : 2 * nHalf ≤ n + 1) {E : Type} {st : BatchState α E}
    (h : st.Tabulated Rep f n nHalf size) {ei : ℤ} (hlow : -nHalf ≤ ei) (hei : ei ≤ st.k + 1)
    (hsize : ei + nHalf < size) :
    ∃ tables k last current, CbMpc.extendSum B n ei st = .ok { st with tables, k, last, current } ∧
      BatchState.Tabulated Rep f n nHalf size { st with tables, k, last, current } ∧ ei ≤ k := by
  by_cases hk : ei > st.k
  · obtain rfl : ei = st.k + 1 := by omega
    have hge := h.k_ge
    have hrows := h.rows
    obtain ⟨M, hM, hshape, hcurrent, hkept⟩ :=
      h.shape.nextRow hB hf hn (k := st.k) (by omega : st.last ≠ st.current)
      (by omega) (by omega) h.last
    obtain ⟨a, ha, hrep⟩ := hcurrent 0 le_rfl (by omega)
    obtain ⟨sum, hsum, hknown⟩ := h.sum.write (by omega) hsize hrep
    refine ⟨⟨M, sum⟩, st.k + 1, st.current, st.last, ?_, ⟨hshape, ?_, ?_, hcurrent, ?_, ?_⟩, le_rfl⟩
    · rw [CbMpc.extendSum, if_pos hk, hM, ok_bind, ha, ok_bind, hsum, ok_bind]
    · exact hkept _ _ _ (by omega) h.first
    · exact hrows.symm.imp And.symm And.symm
    · apply hknown.mono
      intro e he
      change -nHalf ≤ e ∧ e ≤ st.k + 1 at he
      omega
    · change nHalf ≤ st.k + 1
      omega
  · refine ⟨st.tables, st.k, st.last, st.current, ?_, h, not_lt.mp hk⟩
    rw [CbMpc.extendSum, if_neg hk]

end Rolling

/-! ## The simulation -/

section Simulation

variable {α : Type} {q : ℕ} [hq : Fact q.Prime] {E : Type} [AddCommGroup E] [Module (ZMod q) E]
  (Rep : α → ZMod q → Prop) (w : List (ZMod q)) (n nHalf : ℤ) (size rho : ℕ)

/-- The two provers have proved the same, and the tables are in order. -/
structure BatchState.Agrees (st : BatchState α E) (st' : DirectState q E) : Prop extends
    st.Tabulated Rep (batchValue w) n nHalf size where
  r : ∀ i < rho, Rep (st.r i) (st'.r i)
  R : st.R = st'.R
  commonHash : st.commonHash = st'.commonHash
  e : st.e = st'.e
  z : st.z = st'.z
  queries : st.queries = st'.queries

/-- The response at hand is the one of row `i` to the challenge of the try. -/
structure BatchState.AgreesTry (i tryNumber : ℕ) (st : BatchState α E)
    (st' : DirectState q E) : Prop extends
    st.Agrees Rep w n nHalf size rho st' where
  ri : Rep st.ri (st'.r i)
  zTag : Rep st.zTag (st'.r i + batchValue w ((tryNumber - nHalf : ℤ) : ZMod q))
  covered : tryNumber - nHalf ≤ st.k

variable {Rep w n nHalf size rho} {B : BnClass α} (hB : B.Lawful Rep)

include hB

theorem restart_agrees {sha : Sha} {common : List E → List (Fin 256)} (curve : Curve q E)
    (ω : ℕ → ZMod q) {st : BatchState α E} {st' : DirectState q E}
    (h : st.Agrees Rep w n nHalf size rho st') :
    Both ((batchCalls B sha common curve rho n nHalf).restart ω st)
      ((directCalls sha common curve rho w nHalf).restart ω st')
      (BatchState.Agrees Rep w n nHalf size rho) := by
  choose sample hsample hrep using hB.ofBn
  have hr : (List.range rho).mapM (fun i => B.ofBn (residue (ω i))) =
      .ok ((List.range rho).map fun i => sample (ω i)) :=
    mapM_ok fun i _ => hsample (ω i)
  have hR : ((List.range rho).map fun i => sample (ω i)).mapM (fun ri =>
      curve.mulToGenerator (B.toBn ri)) =
      .ok ((List.range rho).map fun i => ω i • curve.generator) := by
    rw [List.mapM_map]
    apply mapM_ok
    intro i _
    change curve.mulToGenerator (B.toBn (sample (ω i))) = _
    rw [hB.toBn _ _ (hrep (ω i)), mulToGenerator_residue]
  have hrestart : (batchCalls B sha common curve rho n nHalf).restart ω st = .ok { st with
      r := fun i => ((List.range rho).map fun i => sample (ω i)).getD i (B.ofInt 0)
      R := (List.range rho).map fun i => ω i • curve.generator
      commonHash := common ((List.range rho).map fun i => ω i • curve.generator) } := by
    change (((List.range rho).mapM fun i => B.ofBn (residue (ω i))) >>= _) = _
    rw [hr, ok_bind, hR, ok_bind]
  refine ⟨_, _, hrestart, rfl, ⟨h.shape, h.first, h.rows, h.last, h.sum, h.k_ge⟩, fun i hi => ?_,
    rfl, rfl, h.e, h.z, h.queries⟩
  · change Rep (((List.range rho).map fun i => sample (ω i)).getD i (B.ofInt 0)) (ω i)
    rw [getD_map_range _ _ hi]
    exact hrep (ω i)

/-- The batch prover does what the plain one does. -/
theorem batchCalls_simulation (sha : Sha) (common : List E → List (Fin 256)) (curve : Curve q E)
    (hf : (fwdDiff 1)^[n.toNat + 1] (batchValue w) = 0) (hn : 1 ≤ n) (hhalf : 1 ≤ nHalf)
    (hhalf' : 2 * nHalf ≤ n + 1) :
    FischlinSimulation (batchCalls B sha common curve rho n nHalf)
      (directCalls sha common curve rho w nHalf) size rho
      (BatchState.Agrees Rep w n nHalf size rho) (BatchState.AgreesTry Rep w n nHalf size rho) where
  restart ω st st' h := restart_agrees hB curve ω h
  responseBegin i st st' hi h := by
    obtain ⟨a, ha, hrep⟩ := h.first
    obtain ⟨zTag, hzTag, hrep'⟩ := hB.add _ _ _ _ (h.r i hi) hrep
    have hk := h.k_ge
    have hbegin : (batchCalls B sha common curve rho n nHalf).responseBegin i st =
        .ok { st with ri := st.r i, zTag } := by
      change (st.tables.matrixSum.get (0 - nHalf) 0 >>= fun a => B.add (st.r i) a >>= _) = _
      rw [zero_sub, ha, ok_bind, hzTag, ok_bind]
    have htables : BatchState.Tabulated Rep (batchValue w) n nHalf size
        { st with ri := st.r i, zTag } :=
      ⟨h.shape, h.first, h.rows, h.last, h.sum, h.k_ge⟩
    refine ⟨_, st', hbegin, rfl, ⟨htables, h.r, h.R, h.commonHash, h.e, h.z, h.queries⟩,
      h.r i hi, ?_, ?_⟩
    · rw [Nat.cast_zero, zero_sub]
      exact hrep'
    · change ((0 : ℕ) : ℤ) - nHalf ≤ st.k
      omega
  hash i tryNumber st st' hi htry h := by
    have hzs := hB.updateZs _ _ h.zTag
    have hbytes : st.commonHash ++ beSet4 i ++ beSet4 (tryNumber - nHalf) ++
        zBytes (residue (st'.r i + batchValue w ((tryNumber - nHalf : ℤ) : ZMod q))) =
          fischlinBytes st'.commonHash i (tryNumber - nHalf)
            [st'.response w i (tryNumber - nHalf)] := by
      rw [fischlinBytes, List.flatMap_singleton, h.commonHash]
      rfl
    have hhash : (batchCalls B sha common curve rho n nHalf).hash i tryNumber st =
        .ok ({ st with
          queries := fischlinBytes st'.commonHash i (tryNumber - nHalf)
            [st'.response w i (tryNumber - nHalf)] :: st.queries },
          sha (fischlinBytes st'.commonHash i (tryNumber - nHalf)
            [st'.response w i (tryNumber - nHalf)])) := by
      change (B.updateZs st.zTag >>= _) = _
      rw [hzs, ok_bind, hbytes]
    refine ⟨_, _, hhash, rfl, rfl,
      ⟨⟨h.shape, h.first, h.rows, h.last, h.sum, h.k_ge⟩, h.r, h.R, h.commonHash, h.e, h.z, ?_⟩,
      h.ri, h.zTag, h.covered⟩
    exact congrArg _ h.queries
  save i tryNumber st st' hi htry h := by
    refine ⟨_, _, rfl, rfl, ⟨h.shape, h.first, h.rows, h.last, h.sum, h.k_ge⟩, h.r, h.R,
      h.commonHash, ?_, ?_, h.queries⟩
    · change Function.update st.e i _ = Function.update st'.e i _
      rw [h.e]
    · change Function.update st.z i (B.toBn st.zTag) = Function.update st'.z i _
      rw [h.z, hB.toBn _ _ h.zTag]
      rfl
  responseNext i tryNumber st st' hi htry h := by
    have hcovered := h.covered
    have hlow : -nHalf ≤ ((tryNumber + 1 : ℕ) : ℤ) - nHalf := by omega
    obtain ⟨tables, k, last, current, hextend, htables, hle⟩ :=
      h.toTabulated.extendSum hB hf hn hhalf hhalf' hlow
      (by push_cast; omega) (by push_cast; omega)
    obtain ⟨a, ha, hrep⟩ := htables.sum.holds _ ⟨by omega, hle⟩
    obtain ⟨zTag, hzTag, hrep'⟩ := hB.addMod _ _ _ _ h.ri hrep
    have htables' : BatchState.Tabulated Rep (batchValue w) n nHalf size { st with tables, k, last,
                                                                                   current,
                                                                                   zTag } :=
      ⟨htables.shape, htables.first, htables.rows, htables.last, htables.sum, htables.k_ge⟩
    have hnext : (batchCalls B sha common curve rho n nHalf).responseNext (tryNumber + 1) st =
        .ok { st with tables, k, last, current, zTag } := by
      change (extendSum B n (((tryNumber + 1 : ℕ) : ℤ) - nHalf) st >>= _) = _
      rw [hextend, ok_bind]
      change (tables.sum.get (((tryNumber + 1 : ℕ) : ℤ) - nHalf) >>= _) = _
      rw [ha, ok_bind]
      change (B.addMod st.ri a >>= _) = _
      rw [hzTag, ok_bind]
    exact ⟨_, st', hnext, rfl, ⟨htables', h.r, h.R, h.commonHash, h.e, h.z, h.queries⟩,
      h.ri, hrep', hle⟩
  stop i tryNumber st st' h := h.toAgrees

end Simulation

end CbMpc
