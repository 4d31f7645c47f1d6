import CbMpc.Pve
import CbMpc.VectorBin

/-!
# Publicly verifiable encryption of a batch

`ec_pve_batch_t` has the rows of `ec_pve_t` with vectors in them. The first part of a row is drawn
from a seed, and the seed is what is encrypted; the second part is encrypted as the bytes of its
scalars.
-/
namespace CbMpc

/-- `ec_pve_batch_t::MAX_BATCH_COUNT`. -/
def ecPveBatchMaxCount : ℕ := 100000

/-- `ec_pve_batch_t::row_t`. -/
structure PveBatchRow where
  xBin : List (Fin 256)
  r : List (Fin 256)
  c : List (Fin 256)

/-- `ec_pve_batch_t`. -/
structure EcPveBatch (E : Type) where
  n : ℕ
  L : List (Fin 256)
  Q : List E
  b : BitVec ecPveKappa
  rows : Fin ecPveKappa → PveBatchRow

section Model

variable {q : ℕ} {E : Type} [AddCommGroup E] [Module (ZMod q) E] [DecidableEq E] {EK DK : Type}

/-- The bytes of the first part of a row, drawn from its seed. -/
def x0SourceBin (curve : SizedCurve q E) (n : ℕ) (drbg01 : Drbg) : List (Fin 256) :=
  (drbg01.gen (n * (curve.size + bitsToBytes secPStat))).1

/-- `MODULO(q) x1[j] = x[j] - x0[j]`, for every `j`. -/
def subEach (q : ℕ) (x x0 : List ℤ) : Outcome (List ℤ) :=
  (x.zip x0).mapM fun p => modSub false q p.1 p.2

/-- A turn of the first loop of `ec_pve_batch_t::encrypt`: the row, and the bytes of the part that
may be opened. -/
def ecPveBatchEncryptRow (O : DrbgOracles) (pke : BasePke EK DK) (ek : EK)
    (innerLabel : List (Fin 256)) (curve : SizedCurve q E) (x : List ℤ) (Q : List E)
    (r01 r02 r1 : Buf128) : Outcome (PveSides (List E) × List (Fin 256)) := do
  let drbg01 ← drbgInit O r01.toList
  let drbg02 ← drbgInit O r02.toList
  let drbg1 ← drbgInit O r1.toList
  let (rho0, _) := drbg02.gen pveRhoSize
  let (rho1, _) := drbg1.gen pveRhoSize
  let x0 ← vectorFromBin (x0SourceBin curve x.length drbg01) x.length
    (curve.size + bitsToBytes secPStat) q
  let x1 ← subEach q x x0
  let X0 ← x0.mapM curve.mulToGenerator
  let x1Bin ← vectorToBin x1 curve.size
  let c0 ← pke.encrypt ek innerLabel r01.toList rho0
  let c1 ← pke.encrypt ek innerLabel x1Bin rho1
  .ok (⟨c0, c1, X0, List.zipWith (· - ·) Q X0⟩, x1Bin)

/-- `ec_pve_batch_t::encrypt`, of an object for `n` scalars. -/
def ecPveBatchEncrypt (O : PveOracles (List E)) (ro : PveHash (List E) → BitVec ecPveKappa)
    (pke : BasePke EK DK) (ek : EK) (label : List (Fin 256)) (curve : SizedCurve q E) (n : ℕ)
    (x : List ℤ) (r01 r02 r1 : Fin ecPveKappa → Buf128) :
    Outcome (EcPveBatch E) := do
  cbAssert (decide (0 < n ∧ n ≤ ecPveBatchMaxCount))
  cbAssert (decide (x.length = n))
  let x ← x.mapM (modReduce q)
  let Q ← x.mapM curve.mulToGenerator
  let innerLabel := genPveLabelWithPoint label (O.hashPoint Q)
  let rows ← forRows fun i =>
    ecPveBatchEncryptRow O.toDrbgOracles pke ek innerLabel curve x Q (r01 i) (r02 i) (r1 i)
  let b := ro (pveHash Q label fun i => (rows i).1)
  .ok {
    n := n
    L := label
    Q := Q
    b := b
    rows := fun i =>
      if b.getLsbD i then ⟨(rows i).2, (r1 i).toList, (rows i).1.c0⟩
      else ⟨[], (r01 i).toList ++ (r02 i).toList, (rows i).1.c1⟩ }

/-- What a row opens in `ec_pve_batch_t::verify`: the scalars and their ciphertext. -/
def ecPveBatchOpenRow (O : DrbgOracles) (pke : BasePke EK DK) (ek : EK)
    (innerLabel : List (Fin 256)) (curve : SizedCurve q E) (n : ℕ) (bi : Bool) (row : PveBatchRow) :
    Outcome (List ℤ × List (Fin 256)) :=
  if bi then do
    require (decide (row.r.length = 16)) .crypto
    require (decide (row.xBin.length = n * curve.size)) .crypto
    let xi ← vectorFromBin row.xBin n curve.size q
    let drbg1 ← drbgInit O row.r
    let (rho1, _) := drbg1.gen pveRhoSize
    let xBin ← vectorToBin xi curve.size
    let c1 ← pke.encrypt ek innerLabel xBin rho1
    .ok (xi, c1)
  else do
    require (decide (row.r.length = 32)) .crypto
    let drbg01 ← drbgInit O (row.r.take 16)
    let xi ← vectorFromBin (x0SourceBin curve n drbg01) n (curve.size + bitsToBytes secPStat) q
    let drbg02 ← drbgInit O (row.r.drop 16)
    let (rho0, _) := drbg02.gen pveRhoSize
    let c0 ← pke.encrypt ek innerLabel (row.r.take 16) rho0
    .ok (xi, c0)

/-- A turn of the loop of `ec_pve_batch_t::verify`. -/
def ecPveBatchVerifyRow (O : DrbgOracles) (pke : BasePke EK DK) (ek : EK)
    (innerLabel : List (Fin 256)) (curve : SizedCurve q E) (π : EcPveBatch E) (Q : List E)
    (i : Fin ecPveKappa) : Outcome (PveSides (List E)) := do
  let bi := π.b.getLsbD i
  let (xi, c) ← ecPveBatchOpenRow O pke ek innerLabel curve π.n bi (π.rows i)
  let X ← xi.mapM curve.mulToGenerator
  let rest := List.zipWith (· - ·) Q X
  .ok (if bi then ⟨(π.rows i).c, c, rest, X⟩ else ⟨c, (π.rows i).c, X, rest⟩)

/-- `ec_pve_batch_t::verify`. -/
def ecPveBatchVerify (O : PveOracles (List E)) (ro : PveHash (List E) → BitVec ecPveKappa)
    (pke : BasePke EK DK) (ek : EK) (curve : SizedCurve q E) (π : EcPveBatch E) (Q : List E)
    (label : List (Fin 256)) : Outcome Unit := do
  require (decide (0 < π.n ∧ π.n ≤ ecPveBatchMaxCount)) .badArg
  require (decide (Q.length = π.n)) .badArg
  forEach checkPoint Q
  require (decide (Q = π.Q)) .crypto
  require (decide (label = π.L)) .crypto
  let innerLabel := genPveLabelWithPoint label (O.hashPoint Q)
  let rows ← forRows (ecPveBatchVerifyRow O.toDrbgOracles pke ek innerLabel curve π Q)
  require (decide (ro (pveHash Q label rows) = π.b)) .crypto

/-- The last loop of `ec_pve_batch_t::restore_from_decrypted`. -/
def addEach (curve : Curve q E) : List E → List (ℤ × ℤ) → Outcome (List ℤ)
  | _, [] => .ok []
  | [], _ :: _ => throwing .outOfBounds
  | Q :: Qs, (x0, x1) :: rest => do
    let x ← modAdd false q x0 x1
    let P ← curve.mulToGenerator x
    require (decide (Q = P)) .crypto
    let xs ← addEach curve Qs rest
    .ok (x :: xs)

/-- The seed and the bytes of a row, of which one has been decrypted. -/
def ecPveBatchParts (curve : SizedCurve q E) (n : ℕ) (bi : Bool) (row : PveBatchRow)
    (decryptedXBuf : List (Fin 256)) :
    Outcome (List (Fin 256) × List (Fin 256)) :=
  if bi then do
    require (decide (row.xBin.length = n * curve.size)) .crypto
    require (decide (decryptedXBuf.length = 16)) .crypto
    .ok (decryptedXBuf, row.xBin)
  else do
    require (decide (row.r.length = 32)) .crypto
    require (decide (decryptedXBuf.length = n * curve.size)) .crypto
    .ok (row.r.take 16, decryptedXBuf)

/-- `ec_pve_batch_t::restore_from_decrypted`. -/
def ecPveBatchRestoreFromDecrypted (O : DrbgOracles) (curve : SizedCurve q E) (π : EcPveBatch E)
    (rowIndex : Fin ecPveKappa) (decryptedXBuf : List (Fin 256)) : Outcome (List ℤ) := do
  let (r01, x1Bin) ← ecPveBatchParts curve π.n (π.b.getLsbD rowIndex)
    (π.rows rowIndex) decryptedXBuf
  let drbg01 ← drbgInit O r01
  let x0 ← vectorFromBin (x0SourceBin curve π.n drbg01) π.n (curve.size + bitsToBytes secPStat) q
  let x1 ← vectorFromBin x1Bin π.n curve.size q
  addEach curve.toCurve π.Q (x0.zip x1)

/-- A turn of the loop of `ec_pve_batch_t::decrypt`. -/
def ecPveBatchDecryptRow (O : DrbgOracles) (pke : BasePke EK DK) (dk : DK)
    (innerLabel : List (Fin 256)) (curve : SizedCurve q E) (π : EcPveBatch E)
    (i : Fin ecPveKappa) : Outcome (List ℤ) := do
  let xBuf ← pke.decrypt dk innerLabel (π.rows i).c
  ecPveBatchRestoreFromDecrypted O curve π i xBuf

/-- `ec_pve_batch_t::decrypt`. -/
def ecPveBatchDecrypt (O : PveOracles (List E)) (ro : PveHash (List E) → BitVec ecPveKappa)
    (pke : BasePke EK DK) (dk : DK) (ek : EK) (label : List (Fin 256)) (curve : SizedCurve q E)
    (π : EcPveBatch E) (skipVerify : Bool) : Outcome (List ℤ) := do
  if skipVerify then pure () else ecPveBatchVerify O ro pke ek curve π π.Q label
  require (decide (label = π.L)) .crypto
  let innerLabel := genPveLabelWithPoint label (O.hashPoint π.Q)
  tryRows (ecPveBatchDecryptRow O.toDrbgOracles pke dk innerLabel curve π)
    (List.finRange ecPveKappa)

end Model

end CbMpc
