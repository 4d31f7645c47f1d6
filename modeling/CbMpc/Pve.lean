import CbMpc.CutAndChoose
import CbMpc.Drbg
import CbMpc.ZkUcProofs

/-!
# Publicly verifiable encryption of a scalar

`ec_pve_t` splits the scalar in two in each of its rows and encrypts both parts. The hash of all
rows opens one part of each, which the verifier encrypts again, and any row whose other part is
decrypted restores the scalar.
-/
namespace CbMpc

/-- `ec_pve_t::kappa` and `ec_pve_t::rho_size`. -/
def ecPveKappa : ℕ := secPCom
def pveRhoSize : ℕ := 32

/-- `pve_base_pke_i`: keys, a label, a plaintext and the randomness determine a ciphertext. -/
structure BasePke (EK DK : Type) where
  encrypt : EK → List (Fin 256) → List (Fin 256) → List (Fin 256) → Outcome (List (Fin 256))
  decrypt : DK → List (Fin 256) → List (Fin 256) → Outcome (List (Fin 256))

/-- What is encrypted to `ek` is decrypted with `dk`, and no exception leaves the decryption. -/
structure BasePke.Correct {EK DK : Type} (pke : BasePke EK DK) (ek : EK) (dk : DK) : Prop where
  decrypt_encrypt : ∀ {label plain rho ct}, pke.encrypt ek label plain rho = .ok ct →
    pke.decrypt dk label ct = .ok plain
  returns : ∀ label ct, Returns (pke.decrypt dk label ct)

/-- A digit as `print_hex_byte` writes it. -/
def hexDigit (v : ℕ) : Fin 256 := if v < 10 then Fin.ofNat 256 (48 + v) else Fin.ofNat 256 (87 + v)

/-- `strext::to_hex`. -/
def toHex (bytes : List (Fin 256)) : List (Fin 256) :=
  bytes.flatMap fun b => [hexDigit (b.val / 16), hexDigit (b.val % 16)]

/-- `genPVELabelWithPoint`, from the digest of the points. -/
def genPveLabelWithPoint (label digest : List (Fin 256)) : List (Fin 256) :=
  label ++ [45] ++ toHex digest

/-- `bn_t::to_bin`. -/
def toBinShort (x : ℤ) : List (Fin 256) := binPad (getBinSize x) x.natAbs

/-- The ciphertexts and points of one row, of both sides. -/
structure PveSides (E : Type) where
  c0 : List (Fin 256)
  c1 : List (Fin 256)
  X0 : E
  X1 : E

/-- What the challenge of `ec_pve_t` is hashed from. -/
structure PveHash (E : Type) where
  Q : E
  label : List (Fin 256)
  c0 : Fin ecPveKappa → List (Fin 256)
  c1 : Fin ecPveKappa → List (Fin 256)
  X0 : Fin ecPveKappa → E
  X1 : Fin ecPveKappa → E

/-- `ec_pve_t`. -/
structure EcPve (E : Type) where
  L : List (Fin 256)
  Q : E
  b : BitVec ecPveKappa
  xRows : Fin ecPveKappa → ℤ
  r : Fin ecPveKappa → Buf128
  c : Fin ecPveKappa → List (Fin 256)

/-- The generator's parts, and the digest of a point. -/
structure PveOracles (E : Type) extends DrbgOracles where
  hashPoint : E → List (Fin 256)

def pveHash {E : Type} (Q : E) (label : List (Fin 256)) (rows : Fin ecPveKappa → PveSides E) :
    PveHash E :=
  ⟨Q, label, fun i => (rows i).c0, fun i => (rows i).c1, fun i => (rows i).X0, fun i => (rows i).X1⟩

section Model

variable {q : ℕ} {E : Type} [AddCommGroup E] [Module (ZMod q) E] [DecidableEq E] {EK DK : Type}

/-- A turn of the loop of `ec_pve_t::encrypt`, from its two random seeds: the row, and the part that
may be opened. -/
def ecPveEncryptRow (O : DrbgOracles) (pke : BasePke EK DK) (ek : EK) (innerLabel : List (Fin 256))
    (curve : Curve q E) (x : ℤ) (Q : E) (r0 r1 : Buf128) : Outcome (PveSides E × ℤ) := do
  let drbg0 ← drbgInit O r0.toList
  let drbg1 ← drbgInit O r1.toList
  let (x0, drbg0) ← drbg0.genBn q
  let (rho0, _) := drbg0.gen pveRhoSize
  let x1 ← modSub false q x x0
  let (rho1, _) := drbg1.gen pveRhoSize
  let c0 ← pke.encrypt ek innerLabel (toBinShort x0) rho0
  let X0 ← curve.mulToGenerator x0
  let c1 ← pke.encrypt ek innerLabel (toBinShort x1) rho1
  .ok (⟨c0, c1, X0, Q - X0⟩, x1)

/-- `ec_pve_t::encrypt`. -/
def ecPveEncrypt (O : PveOracles E) (ro : PveHash E → BitVec ecPveKappa) (pke : BasePke EK DK)
    (ek : EK) (label : List (Fin 256)) (curve : Curve q E) (x : ℤ)
    (r0 r1 : Fin ecPveKappa → Buf128) : Outcome (EcPve E) := do
  let x ← modReduce q x
  let Q ← curve.mulToGenerator x
  let innerLabel := genPveLabelWithPoint label (O.hashPoint Q)
  let rows ← forRows fun i =>
    ecPveEncryptRow O.toDrbgOracles pke ek innerLabel curve x Q (r0 i) (r1 i)
  let b := ro (pveHash Q label fun i => (rows i).1)
  .ok {
    L := label
    Q := Q
    b := b
    xRows := fun i => if b.getLsbD i then (rows i).2 else 0
    r := fun i => if b.getLsbD i then r1 i else r0 i
    c := fun i => if b.getLsbD i then (rows i).1.c0 else (rows i).1.c1 }

/-- A turn of the loop of `ec_pve_t::verify`. -/
def ecPveVerifyRow (O : DrbgOracles) (pke : BasePke EK DK) (ek : EK) (innerLabel : List (Fin 256))
    (curve : Curve q E) (π : EcPve E) (Q : E) (i : Fin ecPveKappa) : Outcome (PveSides E) := do
  require (decide (getBinSize (π.xRows i) ≤ getBinSize q)) .crypto
  require (isInRange q (π.xRows i)) .crypto
  let bi := π.b.getLsbD i
  let drbg ← drbgInit O (π.r i).toList
  let (xi, drbg) ← if bi then .ok (π.xRows i, drbg) else drbg.genBn q
  let (rho, _) := drbg.gen pveRhoSize
  let X ← curve.mulToGenerator xi
  let c ← pke.encrypt ek innerLabel (toBinShort xi) rho
  .ok (if bi then ⟨π.c i, c, Q - X, X⟩ else ⟨c, π.c i, X, Q - X⟩)

/-- `ec_pve_t::verify`. -/
def ecPveVerify (O : PveOracles E) (ro : PveHash E → BitVec ecPveKappa) (pke : BasePke EK DK)
    (ek : EK) (curve : Curve q E) (π : EcPve E) (Q : E)
    (label : List (Fin 256)) : Outcome Unit := do
  checkPoint Q
  require (decide (Q = π.Q)) .crypto
  require (decide (label = π.L)) .crypto
  let innerLabel := genPveLabelWithPoint label (O.hashPoint Q)
  let rows ← forRows (ecPveVerifyRow O.toDrbgOracles pke ek innerLabel curve π Q)
  require (decide (ro (pveHash Q label rows) = π.b)) .crypto

/-- The part of a row that `ec_pve_t::restore_from_decrypted` has without decryption. -/
def ecPveOpenedPart (O : DrbgOracles) (q : ℕ) (π : EcPve E)
    (rowIndex : Fin ecPveKappa) : Outcome ℤ :=
  if π.b.getLsbD rowIndex then do
    require (decide (getBinSize (π.xRows rowIndex) ≤ getBinSize q)) .crypto
    require (isInRange q (π.xRows rowIndex)) .crypto
    .ok (π.xRows rowIndex)
  else do
    let drbg0 ← drbgInit O (π.r rowIndex).toList
    let (xBi, _) ← drbg0.genBn q
    .ok xBi

/-- `ec_pve_t::restore_from_decrypted`. -/
def ecPveRestoreFromDecrypted (O : DrbgOracles) (curve : Curve q E) (π : EcPve E)
    (rowIndex : Fin ecPveKappa) (decryptedXBuf : List (Fin 256)) : Outcome ℤ := do
  require (decide (decryptedXBuf.length ≤ getBinSize q)) .crypto
  require (isInRange q (fromBin decryptedXBuf)) .crypto
  let xBi ← ecPveOpenedPart O q π rowIndex
  let xValue ← modAdd false q (fromBin decryptedXBuf) xBi
  let P ← curve.mulToGenerator xValue
  require (decide (P = π.Q)) .crypto
  .ok xValue

/-- A turn of the loop of `ec_pve_t::decrypt`. -/
def ecPveDecryptRow (O : DrbgOracles) (pke : BasePke EK DK) (dk : DK) (innerLabel : List (Fin 256))
    (curve : Curve q E) (π : EcPve E) (i : Fin ecPveKappa) : Outcome ℤ := do
  let xBuf ← pke.decrypt dk innerLabel (π.c i)
  ecPveRestoreFromDecrypted O curve π i xBuf

/-- `ec_pve_t::decrypt`. -/
def ecPveDecrypt (O : PveOracles E) (ro : PveHash E → BitVec ecPveKappa) (pke : BasePke EK DK)
    (dk : DK) (ek : EK) (label : List (Fin 256)) (curve : Curve q E) (π : EcPve E)
    (skipVerify : Bool) : Outcome ℤ := do
  if skipVerify then pure () else ecPveVerify O ro pke ek curve π π.Q label
  let innerLabel := genPveLabelWithPoint label (O.hashPoint π.Q)
  tryRows (ecPveDecryptRow O.toDrbgOracles pke dk innerLabel curve π) (List.finRange ecPveKappa)

end Model

end CbMpc
