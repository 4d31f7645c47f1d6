import CbMpc.PveBatch
import CbMpc.PveBlob
import CbMpc.Reconstruct
import CbMpc.SeededSharing

/-!
# Publicly verifiable encryption to an access structure

In a row of `ec_pve_ac_t` each part is sealed with a key that is shared along the access structure,
and the leaves' shares of the key are encrypted to the leaves. A quorum decrypts its shares of one
row, and the aggregation restores the scalars from them.
-/
namespace CbMpc

/-- What `ec_pve_ac_t` takes from elsewhere: `sha256_t::hash(label, Q)`, the key and the nonce that
are hashed from `K`, and AES-GCM. -/
structure PveAcOracles (E : Type) extends DrbgOracles where
  hashLabel : List (Fin 256) → List E → List (Fin 256)
  hashKey : ℤ → List (Fin 256) → List (Fin 256)
  aesGcmEncrypt : List (Fin 256) → List (Fin 256) → List (Fin 256) → List (Fin 256) → List (Fin 256)
  aesGcmDecrypt : List (Fin 256) → List (Fin 256) → List (Fin 256) → List (Fin 256) →
    Outcome (List (Fin 256))
  aesGcm_correct : ∀ key iv aad plain,
    aesGcmDecrypt key iv aad (aesGcmEncrypt key iv aad plain) = .ok plain

/-- `pve_ac_seed_size`. -/
def pveAcSeedSize : ℕ := bitsToBytes secPCom

/-- `ec_pve_ac_t`. -/
structure EcPveAc (E : Type) where
  Q : List E
  L : List (Fin 256)
  b : BitVec ecPveKappa
  rows : Fin ecPveKappa → PveRow

/-- The ciphertexts and points of one row, of both sides. -/
structure PveAcRow (E : Type) where
  c0 : List (Fin 256)
  c1 : List (Fin 256)
  quorumC0 : List (List (Fin 256))
  quorumC1 : List (List (Fin 256))
  X0 : List E
  X1 : List E

/-- What the challenge of `ec_pve_ac_t` is hashed from. -/
structure PveAcHash (E : Type) where
  Q : List E
  label : List (Fin 256)
  c0 : Fin ecPveKappa → List (Fin 256)
  c1 : Fin ecPveKappa → List (Fin 256)
  quorumC0 : Fin ecPveKappa → List (List (Fin 256))
  quorumC1 : Fin ecPveKappa → List (List (Fin 256))
  X0 : Fin ecPveKappa → List E
  X1 : Fin ecPveKappa → List E

def pveAcHash {E : Type} (Q : List E) (label : List (Fin 256))
    (rows : Fin ecPveKappa → PveAcRow E) : PveAcHash E :=
  ⟨Q, label, fun i => (rows i).c0, fun i => (rows i).c1, fun i => (rows i).quorumC0,
    fun i => (rows i).quorumC1,
    fun i => (rows i).X0, fun i => (rows i).X1⟩

/-- `ac_t::list_leaf_names`, in the order of a `std::set`. -/
def leafSet (t : Node) : List PName := (OrderedMap.ofKeys (fun _ => ()) t.listLeafNames).keys

/-- The product of the number of scalars and their size, in an `int`. -/
def batchBytes (batchSize curveSize : ℕ) : Outcome ℕ :=
  if batchSize * curveSize < 2 ^ 31 then .ok (batchSize * curveSize) else throwing .overflow

/-- `batch_to_bin`. -/
def batchToBin (curveSize : ℕ) (x : List ℤ) : Outcome (List (Fin 256)) := do
  let _ ← batchBytes x.length curveSize
  let bins ← x.mapM fun v => toBin v curveSize
  .ok bins.flatten

/-- The integers of a string of bytes, which are not reduced. -/
def batchInts (curveSize batchSize : ℕ) (bin : List (Fin 256)) : List ℤ :=
  (chunks curveSize batchSize bin).map fun piece => (fromBin piece : ℤ)

/-- `batch_from_bin`. -/
def batchFromBin (curveSize batchSize : ℕ) (bin : List (Fin 256)) : Outcome (List ℤ) := do
  let size ← batchBytes batchSize curveSize
  require (decide (bin.length = size)) .crypto
  .ok (batchInts curveSize batchSize bin)

/-- `gen_bn`, for one scalar of a batch after another. -/
def genBnBatch (q : ℕ) : ℕ → Drbg → Outcome (List ℤ)
  | 0, _ => .ok []
  | n + 1, d => do
    let (x, d) ← d.genBn q
    let xs ← genBnBatch q n d
    .ok (x :: xs)

section Model

variable {q : ℕ} {E : Type} [AddCommGroup E] [Module (ZMod q) E] [DecidableEq E] {EK DK : Type}

/-- The loop over the keys in `ec_pve_ac_t::encrypt_row`. -/
def encryptQuorum (pke : BasePke EK DK) (L : List (Fin 256)) (KShares : OrderedMap PName ℤ) :
    List (PName × EK) → Drbg → Outcome (List (List (Fin 256)))
  | [], _ => .ok []
  | (path, pubKey) :: rest, drbg => do
    let (rho, drbg) := drbg.gen 32
    let ct ← pke.encrypt pubKey L (toBinShort ((KShares.find path).getD 0)) rho
    let cts ← encryptQuorum pke L KShares rest drbg
    .ok (ct :: cts)

variable (O : PveAcOracles E) (pke : BasePke EK DK) (pid : PName → ℕ) (ac : Node)

/-- `ec_pve_ac_t::encrypt_row`. -/
def ecPveAcEncryptRow (acPks : OrderedMap PName EK) (L : List (Fin 256)) (q : ℕ)
    (seed plain : List (Fin 256)) :
    Outcome (List (Fin 256) × List (List (Fin 256))) := do
  require (decide (seed.length = pveAcSeedSize)) .crypto
  let drbg ← drbgInit O.toDrbgOracles seed
  let (K, drbg) ← drbg.genBn q
  let (KShares, drbg) ← shareSeeded q pid ac K drbg
  let quorumC ← encryptQuorum pke L KShares acPks.entries drbg
  let kAndIv := O.hashKey K L
  .ok (O.aesGcmEncrypt (kAndIv.take 32) (kAndIv.drop 32) L plain, quorumC)

/-- `ec_pve_ac_t::encrypt_row0`. -/
def ecPveAcEncryptRow0 (acPks : OrderedMap PName EK) (L : List (Fin 256)) (q : ℕ)
    (r01 r02 : List (Fin 256)) (batchSize : ℕ) :
    Outcome (List ℤ × List (Fin 256) × List (List (Fin 256))) := do
  require (decide (r01.length = pveAcSeedSize)) .crypto
  let drbg ← drbgInit O.toDrbgOracles r01
  let x0 ← genBnBatch q batchSize drbg
  let sealed ← ecPveAcEncryptRow O pke pid ac acPks L q r02 r01
  .ok (x0, sealed)

/-- `ec_pve_ac_t::encrypt_row1`. -/
def ecPveAcEncryptRow1 (acPks : OrderedMap PName EK) (L : List (Fin 256)) (q : ℕ)
    (r1 x1Bin : List (Fin 256)) :
    Outcome (List (Fin 256) × List (List (Fin 256))) :=
  ecPveAcEncryptRow O pke pid ac acPks L q r1 x1Bin

/-- A turn of the first loop of `ec_pve_ac_t::encrypt`: the row, and the bytes of the part that may
be opened. -/
def ecPveAcSplitRow (acPks : OrderedMap PName EK) (L : List (Fin 256)) (curve : SizedCurve q E)
    (x : List ℤ) (Q : List E) (r01 r02 r1 : Buf128) : Outcome (PveAcRow E × List (Fin 256)) := do
  let (x0, c0, quorumC0) ← ecPveAcEncryptRow0 O pke pid ac acPks L q r01.toList r02.toList x.length
  let x1 ← subEach q x x0
  let xBin ← batchToBin curve.size x1
  let (c1, quorumC1) ← ecPveAcEncryptRow1 O pke pid ac acPks L q r1.toList xBin
  let X0 ← x0.mapM curve.mulToGenerator
  .ok (⟨c0, c1, quorumC0, quorumC1, X0, List.zipWith (· - ·) Q X0⟩, xBin)

/-- `ec_pve_ac_t::encrypt`. -/
def ecPveAcEncrypt (ro : PveAcHash E → BitVec ecPveKappa) (acPks : OrderedMap PName EK)
    (label : List (Fin 256)) (curve : SizedCurve q E) (x : List ℤ)
    (r01 r02 r1 : Fin ecPveKappa → Buf128) : Outcome (EcPveAc E) := do
  let x ← x.mapM (modReduce q)
  let Q ← x.mapM curve.mulToGenerator
  let L := O.hashLabel label Q
  let rows ← forRows fun i => ecPveAcSplitRow O pke pid ac acPks L curve x Q (r01 i) (r02 i) (r1 i)
  let b := ro (pveAcHash Q label fun i => (rows i).1)
  .ok {
    Q := Q
    L := L
    b := b
    rows := fun i =>
      if b.getLsbD i then ⟨(rows i).2, (r1 i).toList, (rows i).1.c0, (rows i).1.quorumC0⟩
      else ⟨[], (r01 i).toList ++ (r02 i).toList, (rows i).1.c1, (rows i).1.quorumC1⟩ }

/-- A turn of the loop of `ec_pve_ac_t::verify`. -/
def ecPveAcVerifyRow (acPks : OrderedMap PName EK) (L : List (Fin 256)) (curve : SizedCurve q E)
    (π : EcPveAc E) (Q : List E) (i : Fin ecPveKappa) : Outcome (PveAcRow E) :=
  if π.b.getLsbD i then do
    let xb ← batchFromBin curve.size Q.length (π.rows i).xBin
    let (c1, quorumC1) ← ecPveAcEncryptRow1 O pke pid ac acPks L q (π.rows i).r (π.rows i).xBin
    let X ← xb.mapM curve.mulToGenerator
    .ok ⟨(π.rows i).c, c1, (π.rows i).quorumC, quorumC1, List.zipWith (· - ·) Q X, X⟩
  else do
    require (decide ((π.rows i).r.length = 2 * pveAcSeedSize)) .crypto
    let (xb, c0, quorumC0) ← ecPveAcEncryptRow0 O pke pid ac acPks L q
      ((π.rows i).r.take pveAcSeedSize)
      ((π.rows i).r.drop pveAcSeedSize) Q.length
    let X ← xb.mapM curve.mulToGenerator
    .ok ⟨c0, (π.rows i).c, quorumC0, (π.rows i).quorumC, X, List.zipWith (· - ·) Q X⟩

/-- `ec_pve_ac_t::verify`. -/
def ecPveAcVerify (ro : PveAcHash E → BitVec ecPveKappa) (acPks : OrderedMap PName EK)
    (curve : SizedCurve q E) (π : EcPveAc E) (Q : List E)
    (label : List (Fin 256)) : Outcome Unit := do
  require (decide (Q.length ≠ 0)) .badArg
  require (decide (Q.length = π.Q.length)) .crypto
  forEach checkPoint Q
  require (decide (Q = π.Q)) .crypto
  let L := O.hashLabel label Q
  require (decide (L = π.L)) .crypto
  let rows ← forRows (ecPveAcVerifyRow O pke pid ac acPks L curve π Q)
  require (decide (ro (pveAcHash Q label rows) = π.b)) .crypto

/-- `ec_pve_ac_t::find_quorum_ciphertext`. -/
def findQuorumCiphertext (sortedLeaves : List PName) (path : PName) (row : PveRow) :
    Outcome (List (Fin 256)) := do
  require (decide (path ∈ sortedLeaves)) .notFound
  match row.quorumC[sortedLeaves.idxOf path]? with
  | none => fail .notFound
  | some c => .ok c

/-- `ec_pve_ac_t::party_decrypt_row`. -/
def partyDecryptRow (q : ℕ) (π : EcPveAc E) (rowIndex : Fin ecPveKappa) (path : PName) (prvKey : DK)
    (label : List (Fin 256)) :
    Outcome ℤ := do
  require (decide (π.Q ≠ [])) .badArg
  let L := O.hashLabel label π.Q
  let c ← findQuorumCiphertext (leafSet ac) path (π.rows rowIndex)
  let plain ← pke.decrypt prvKey L c
  require (decide (plain.length ≤ getBinSize q)) .crypto
  .ok (fromBin plain : ℤ)

/-- The seed and the bytes of a row, of which one has been unsealed. -/
def ecPveAcParts (bit : Bool) (row : PveRow) (decryptedData : List (Fin 256)) :
    Outcome (List (Fin 256) × List (Fin 256)) :=
  if bit then .ok (decryptedData, row.xBin)
  else do
    require (decide (row.r.length = 2 * pveAcSeedSize)) .crypto
    .ok (row.r.take pveAcSeedSize, decryptedData)

/-- The end of `ec_pve_ac_t::aggregate_to_restore_row`, behind the decryption. -/
def restoreUnsealed (O : DrbgOracles) (curve : SizedCurve q E) (π : EcPveAc E)
    (rowIndex : Fin ecPveKappa) (decryptedData : List (Fin 256)) : Outcome (List ℤ) := do
  let (seed, xBin) ← ecPveAcParts (π.b.getLsbD rowIndex) (π.rows rowIndex) decryptedData
  let size ← batchBytes π.Q.length curve.size
  require (decide (xBin.length = size)) .crypto
  require (decide (seed.length = pveAcSeedSize)) .crypto
  let drbg ← drbgInit O seed
  let x0 ← genBnBatch q π.Q.length drbg
  addEach curve.toCurve π.Q (x0.zip (batchInts curve.size π.Q.length xBin))

/-- `ec_pve_ac_t::aggregate_to_restore_row`. -/
def aggregateToRestoreRow (ro : PveAcHash E → BitVec ecPveKappa) (curve : SizedCurve q E)
    (π : EcPveAc E) (rowIndex : Fin ecPveKappa) (label : List (Fin 256))
    (quorumDecrypted : OrderedMap PName ℤ) (skipVerify : Bool) (allAcPks : OrderedMap PName EK) :
    Outcome (List ℤ) := do
  require (decide (π.Q ≠ [])) .badArg
  if skipVerify then pure () else do
    require (decide (allAcPks.entries ≠ [])) .badArg
    ecPveAcVerify O pke pid ac ro allAcPks curve π π.Q label
  let L := O.hashLabel label π.Q
  let K ← reconstruct q pid ac quorumDecrypted
  let kAndIv := O.hashKey K L
  let decryptedData ← O.aesGcmDecrypt (kAndIv.take 32) (kAndIv.drop 32) L (π.rows rowIndex).c
  restoreUnsealed O.toDrbgOracles curve π rowIndex decryptedData

end Model

end CbMpc
