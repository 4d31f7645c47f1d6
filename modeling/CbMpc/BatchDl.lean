import CbMpc.HornerPoly
import CbMpc.ZkUcProofs

/-!
# The batch proof of discrete logarithms

`uc_batch_dl_finite_difference_impl_t` proves knowledge of many discrete logarithms with one
Fischlin proof, whose responses are values of one polynomial. The prover computes a table of forward
differences once, and afterwards gets each further value of the polynomial by additions along a
rolling row of the table. `prove_batch_dl` is a template over the type of its numbers.
-/
namespace CbMpc

open WordArray Uint256

/-! ## Checked memory -/

/-- A read of a `std::vector`. -/
def readAt {α : Type} (l : List α) (i : ℤ) : Outcome α :=
  if 0 ≤ i then (l[i.toNat]?).elim (throwing .outOfBounds) .ok else throwing .outOfBounds

/-- A write of a `std::vector`. -/
def writeAt {α : Type} (l : List α) (i : ℤ) (a : α) : Outcome (List α) :=
  if 0 ≤ i ∧ i < l.length then .ok (l.set i.toNat a) else throwing .outOfBounds

/-- The values of a loop variable that counts up to `hi`. -/
def upTo (lo hi : ℤ) : List ℤ := (List.range (hi + 1 - lo).toNat).map fun k : ℕ => lo + k

/-- The values of a loop variable that counts down to `lo`. -/
def downTo (hi lo : ℤ) : List ℤ := (List.range (hi + 1 - lo).toNat).map fun k : ℕ => hi - k

/-- `matrix_sum_impl_t`. -/
structure MatrixSum (α : Type) where
  offset : ℤ
  data : List (List α)

/-- `vector_sum_impl_t`. -/
structure VectorSum (α : Type) where
  offset : ℤ
  data : List α

section Memory

variable {α : Type}

def MatrixSum.make (zero : α) (n : ℤ) : Outcome (MatrixSum α) :=
  if -1 ≤ n ∧ n + 3 ≤ intMax then
    .ok ⟨(n + 1).tdiv 2, List.replicate (n + 3).toNat (List.replicate (n + 1).toNat zero)⟩
  else throwing .overflow

def MatrixSum.get (M : MatrixSum α) (j i : ℤ) : Outcome α := do
  let row ← readAt M.data (j + M.offset)
  readAt row i

def MatrixSum.set (M : MatrixSum α) (j i : ℤ) (a : α) : Outcome (MatrixSum α) := do
  let row ← readAt M.data (j + M.offset)
  let row ← writeAt row i a
  let data ← writeAt M.data (j + M.offset) row
  .ok { M with data }

/-- `1 << t` is an `int`. -/
def VectorSum.make (zero : α) (n t : ℤ) : Outcome (VectorSum α) :=
  if 0 ≤ t ∧ t < 31 then .ok ⟨(n + 1).tdiv 2, List.replicate (2 ^ t.toNat) zero⟩ else
    throwing .overflow

def VectorSum.get (s : VectorSum α) (i : ℤ) : Outcome α := readAt s.data (i + s.offset)

def VectorSum.set (s : VectorSum α) (i : ℤ) (a : α) : Outcome (VectorSum α) := do
  let data ← writeAt s.data (i + s.offset) a
  .ok { s with data }

end Memory

/-! ## The numbers -/

/-- What `prove_batch_dl` uses of its type `BN`. The first three operators are those inside
`MODULO(q)`, and `addMod` is `add_mod`. -/
structure BnClass (α : Type) where
  ofInt : ℕ → α
  ofBn : ℤ → Outcome α
  toBn : α → ℤ
  add : α → α → Outcome α
  sub : α → α → Outcome α
  mul : α → α → Outcome α
  addMod : α → α → Outcome α
  updateZs : α → Outcome (List (Fin 256))

/-- `mod_t::_sub` on words. -/
def subWords (m : ℕ) (a b : List Limb) : Outcome (List Limb) := do
  cbAssert (decide (value a < m))
  cbAssert (decide (value b < m))
  .ok (ofNat 64 (wordCount 64 m) ((value a + m - value b) % m))

/-- `bn_t`, outside a `vartime_scope_t`. -/
def bnClass (q : ℕ) : BnClass (List Limb) where
  ofInt n := limbs n
  ofBn v := .ok (limbs v.toNat)
  toBn a := value a
  add := addWords q
  sub := subWords q
  mul := mulWords q
  addMod a b := .ok (ofNat 64 (wordCount 64 q) (bnModAddFixedTop q (value a) (value b)).toNat)
  updateZs a := do
    cbAssert (decide (getBinSize (value a) ≤ 256))
    .ok (zBytes (value a))

/-- `bn256_t::to_bin`. -/
def toBin256 (a : Uint256) : List (Fin 256) :=
  binPad 8 a.w3.toNat ++ binPad 8 a.w2.toNat ++ binPad 8 a.w1.toNat ++ binPad 8 a.w0.toNat

/-- `bn256_t::from_bin` on 32 bytes. -/
def fromBin256 (bin : List (Fin 256)) : Uint256 :=
  let word (i : ℕ) : Limb := BitVec.ofNat 64 (fromBin ((bin.drop i).take 8))
  ⟨word 24, word 16, word 8, word 0⟩

/-- `bn256_t`. -/
def bn256Class (q : ℕ) : BnClass Uint256 where
  ofInt n := ⟨BitVec.ofNat 64 n, 0#64, 0#64, 0#64⟩
  ofBn v := do
    let bin ← toBin v 32
    .ok (fromBin256 bin)
  toBn a := fromBin (toBin256 a)
  add a b := .ok (addMod (Bn256Mod.make q) a b)
  sub a b := .ok (subMod (Bn256Mod.make q) a b)
  mul a b := .ok (mulMod256 (Bn256Mod.make q) a b)
  addMod a b := .ok (addMod (Bn256Mod.make q) a b)
  updateZs a := do
    let temp := (toBin256 a).dropWhile fun b => decide (b = 0)
    .ok (beSet4 temp.length ++ temp)

/-! ## The prover -/

/-- `fischlin_params_t` and the rows of the proof. -/
structure UcBatchDl (E : Type) where
  params : FischlinParams
  R : List E
  e : List ℤ
  z : List ℤ

/-- What is hashed in front of the rows. -/
structure UcBatchDlHash (E : Type) where
  G : E
  Q : List E
  R : List E
  sid : List (Fin 256)
  aux : ℕ

section Prover

variable {α : Type} (B : BnClass α)

/-- The coefficients of the even and of the odd powers. -/
def splitWitness (q : ℕ) (w : List ℤ) : Outcome (List α × List α) :=
  w.zipIdx.foldlM (fun pw p => do
    cbAssert (isInRange q p.1)
    let wj ← B.ofBn p.1
    .ok (if p.2 % 2 = 0 then (pw.1, pw.2 ++ [wj]) else (pw.1 ++ [wj], pw.2))) ([B.ofInt 0], [])

/-- `horner_poly`. -/
def BnClass.hornerPoly (a : List α) (x : α) : Outcome α :=
  hornerLoop (fun ai b => do
    let product ← B.mul b x
    B.add ai product) a

/-- The two tables. -/
structure BatchTables (α : Type) where
  matrixSum : MatrixSum α
  sum : VectorSum α

/-- `sum[ei] = matrix_sum[ei][0] = a`. -/
def BatchTables.setValue (T : BatchTables α) (ei : ℤ) (a : α) : Outcome (BatchTables α) := do
  let matrixSum ← T.matrixSum.set ei 0 a
  let sum ← T.sum.set ei a
  .ok ⟨matrixSum, sum⟩

/-- The values at `ei` and at `-ei`. -/
def valueStep (pw : List α × List α) (T : BatchTables α) (ei : ℤ) : Outcome (BatchTables α) := do
  let eiValue := B.ofInt ei.toNat
  let eiSquare ← B.mul eiValue eiValue
  let alpha ← B.hornerPoly pw.1 eiSquare
  let beta ← B.hornerPoly pw.2 eiSquare
  let betaTimesEi ← B.mul beta eiValue
  let up ← B.add alpha betaTimesEi
  let T ← T.setValue ei up
  let down ← B.sub alpha betaTimesEi
  T.setValue (-ei) down

/-- `matrix_sum[j][i] = matrix_sum[j + 1][i - 1] - matrix_sum[j][i - 1]`. -/
def differenceStep (i : ℤ) (M : MatrixSum α) (j : ℤ) : Outcome (MatrixSum α) := do
  let above ← M.get (j + 1) (i - 1)
  let left ← M.get j (i - 1)
  let a ← B.sub above left
  M.set j i a

/-- The entries that are differences of values. -/
def differences (n nHalf : ℤ) (M : MatrixSum α) : Outcome (MatrixSum α) :=
  (upTo 1 n).foldlM (fun M i => (downTo (nHalf - i) (-nHalf)).foldlM (differenceStep B i) M) M

/-- `matrix_sum[j][i] = matrix_sum[j - 1][i] + matrix_sum[j - 1][i + 1]`. -/
def sumStep (j : ℤ) (M : MatrixSum α) (i : ℤ) : Outcome (MatrixSum α) := do
  let above ← M.get (j - 1) i
  let right ← M.get (j - 1) (i + 1)
  let a ← B.addMod above right
  M.set j i a

/-- The first entries of a row that the differences have left open, from the right. -/
def fillRow (n nHalf : ℤ) (M : MatrixSum α) (j : ℤ) : Outcome (MatrixSum α) := do
  let a ← M.get (j - 1) n
  let M ← M.set j n a
  (downTo (n - 1) (nHalf - j + 1)).foldlM (sumStep B j) M

/-- The other entries. -/
def fillTable (n nHalf : ℤ) (M : MatrixSum α) : Outcome (MatrixSum α) := do
  let a ← M.get (-nHalf) n
  let M ← M.set (-nHalf + 1) n a
  (upTo (-nHalf + 2) nHalf).foldlM (fillRow B n nHalf) M

/-- `current->at(i) = last->at(i) + last->at(i + 1)`. -/
def rollStep (last current : ℤ) (M : MatrixSum α) (i : ℤ) : Outcome (MatrixSum α) := do
  let left ← M.get last i
  let right ← M.get last (i + 1)
  let a ← B.addMod left right
  M.set current i a

/-- The row below `last`, written into `current`. -/
def nextRow (n : ℤ) (M : MatrixSum α) (last current : ℤ) : Outcome (MatrixSum α) := do
  let a ← M.get last n
  let M ← M.set current n a
  (downTo (n - 1) 0).foldlM (rollStep B last current) M

/-- What the functions that are passed to `fischlin_prove` share. `last` and `current` are rows of
the matrix. -/
structure BatchState (α E : Type) where
  tables : BatchTables α
  k : ℤ
  last : ℤ
  current : ℤ
  r : ℕ → α
  R : List E
  commonHash : List (Fin 256)
  ri : α
  zTag : α
  e : ℕ → ℤ
  z : ℕ → ℤ
  queries : List (List (Fin 256))

/-- The value at `ei`, when `sum` does not have it. -/
def extendSum {E : Type} (n ei : ℤ) (st : BatchState α E) : Outcome (BatchState α E) :=
  if ei > st.k then do
    let M ← nextRow B n st.tables.matrixSum st.last st.current
    let a ← M.get st.current 0
    let sum ← st.tables.sum.set ei a
    .ok { st with tables := ⟨M, sum⟩, k := st.k + 1, last := st.current, current := st.last }
  else .ok st

variable {q : ℕ} [hq : Fact q.Prime] {E : Type} [AddCommGroup E] [Module (ZMod q) E]

/-- The functions that `prove_batch_dl` passes to `fischlin_prove`. A restart samples the numbers
`r`. -/
def batchCalls (sha : Sha) (common : List E → List (Fin 256)) (curve : Curve q E)
    (rho : ℕ) (n nHalf : ℤ) :
    FischlinCalls (BatchState α E) (ℕ → ZMod q) where
  restart ω st := do
    let r ← (List.range rho).mapM fun i => B.ofBn (residue (ω i))
    let R ← r.mapM fun ri => curve.mulToGenerator (B.toBn ri)
    .ok { st with r := fun i => r.getD i (B.ofInt 0), R, commonHash := common R }
  responseBegin i st := do
    let a ← st.tables.matrixSum.get (0 - nHalf) 0
    let zTag ← B.add (st.r i) a
    .ok { st with ri := st.r i, zTag }
  hash i tryNumber st := do
    let ei := tryNumber - nHalf
    let zs ← B.updateZs st.zTag
    let bytes := st.commonHash ++ beSet4 i ++ beSet4 ei ++ zs
    .ok ({ st with queries := bytes :: st.queries }, sha bytes)
  save i tryNumber st :=
    .ok { st with e := Function.update st.e i (tryNumber - nHalf),
                  z := Function.update st.z i (B.toBn st.zTag) }
  responseNext tryNumber st := do
    let ei := tryNumber - nHalf
    let st ← extendSum B n ei st
    let a ← st.tables.sum.get ei
    let zTag ← B.addMod st.ri a
    .ok { st with zTag }

/-- `prove_batch_dl`. -/
def proveBatchDl (sha : Sha) (ro : UcBatchDlHash E → List (Fin 256)) (curve : Curve q E)
    (params : FischlinParams) (Q : List E) (w : List ℤ) (n : ℤ) (sid : List (Fin 256)) (aux : ℕ)
    (ωs : List (ℕ → ZMod q)) : Outcome (ProverEnd (UcBatchDl E)) := do
  let rho := params.rho.toNat
  let zero := B.ofInt 0
  let pw ← splitWitness B q (w.take n.toNat)
  let nHalf := (n + 1).tdiv 2
  let matrixSum ← MatrixSum.make zero n
  let sum ← VectorSum.make zero n params.t
  let T ← (upTo 0 nHalf).foldlM (valueStep B pw) ⟨matrixSum, sum⟩
  let M ← differences B n nHalf T.matrixSum
  let M ← fillTable B n nHalf M
  let run ← fischlinProve params
    (batchCalls B sha (fun R => ro ⟨curve.generator, Q, R, sid, aux⟩) curve rho n nHalf) ωs
    ⟨⟨M, T.sum⟩, nHalf, nHalf, nHalf + 1, fun _ => zero, [], [], zero, zero, fun _ => 0,
      fun _ => 0, []⟩
  .ok ⟨⟨params, run.1.R, (List.range rho).map run.1.e, (List.range rho).map run.1.z⟩, run.2,
    run.1.queries⟩

end Prover

/-! ## The proof -/

/-- `int_log2`. -/
def intLog2 (x : ℕ) : ℕ := if x ≤ 1 then x else (x - 1).size

/-- The parameters that `prove` chooses for `n` points. -/
def ucBatchDlParams (n : BitVec 32) : FischlinParams :=
  if n.toInt ≤ 28 then ⟨43, 3 + intLog2 n.toNat, 3 + intLog2 n.toNat + 5⟩
  else ⟨64, 2 + intLog2 n.toNat, 2 + intLog2 n.toNat + 5⟩

variable {q : ℕ} [hq : Fact q.Prime] {E : Type} [AddCommGroup E] [Module (ZMod q) E] [DecidableEq E]

/-- `uc_batch_dl_finite_difference_impl_t::prove`. -/
def ucBatchDlProve (sha : Sha) (ro : UcBatchDlHash E → List (Fin 256)) (curve : Curve q E)
    (Q : List E) (w : List ℤ) (sid : List (Fin 256)) (aux : ℕ) (ωs : List (ℕ → ZMod q)) :
    Outcome (ProverEnd (UcBatchDl E)) := do
  cbAssert (!Q.isEmpty && decide (Q.length = w.length))
  let n := BitVec.ofNat 32 w.length
  let params := ucBatchDlParams n
  if getBinSize q = 32 then proveBatchDl (bn256Class q) sha ro curve params Q w n.toInt sid aux ωs
  else proveBatchDl (bnClass q) sha ro curve params Q w n.toInt sid aux ωs

/-- The loop body of `verify`. -/
def ucBatchDlStep (sha : Sha) (curve : Curve q E) (bMask : BitVec 32)
    (commonHash : List (Fin 256)) (PQ : List E) (π : UcBatchDl E) (i : ℕ) : Outcome Unit := do
  let z := π.z.getD i 0
  checkRightOpenRange 0 z q
  let zG ← curve.mulToGenerator z
  let X ← hornerPolySmallVartime PQ (BitVec.ofInt 32 (π.e.getD i 0))
  require (decide (π.R.getD i 0 = zG - X)) .crypto
  checkRow sha bMask commonHash i (π.e.getD i 0) [z]

/-- `uc_batch_dl_finite_difference_impl_t::verify`. -/
def ucBatchDlVerify (sha : Sha) (ro : UcBatchDlHash E → List (Fin 256))
    (curve : Curve q E) (Q : List E) (sid : List (Fin 256)) (aux : ℕ)
    (π : UcBatchDl E) : Outcome Unit := do
  let n := BitVec.ofNat 32 Q.length
  let rho := π.params.rho
  require (decide (0 < n.toInt)) .crypto
  π.params.checkWithEffectiveB (π.params.b - intLog2 n.toNat)
  require (decide ((π.R.length : ℤ) = rho)) .crypto
  require (decide ((π.e.length : ℤ) = rho)) .crypto
  require (decide ((π.z.length : ℤ) = rho)) .crypto
  forEach checkPoint (Q.take n.toInt.toNat)
  let bMask ← π.params.bMask
  forEach checkPoint π.R
  let commonHash := ro ⟨curve.generator, Q, π.R, sid, aux⟩
  let PQ := 0 :: Q.take n.toInt.toNat
  forEach (ucBatchDlStep sha curve bMask commonHash PQ π) (List.range rho.toNat)

end CbMpc
