import CbMpc.Ecdsa2pKeys
import CbMpc.DetachedKey

/-!
# Key blobs of two-party ECDSA

The blob of a party carries its Paillier key, private at the first party. A detached blob has the
modulus in the place of the share, which no deserializer accepts. The share of the first party is an
integer that refreshes let grow, and it is written with as many bytes as it has.
-/
namespace CbMpc

open ReadM WriteM

/-- What a `paillier_t` is made of; the primes are 0 without the private key. -/
structure PaillierFields where
  hasPrivate : Bool
  N : ℤ
  p : ℤ
  q : ℤ
  deriving DecidableEq

def Paillier.fields : Paillier → PaillierFields
  | .pub N => ⟨false, N, 0, 0⟩
  | .prv key _ => ⟨true, key.N, key.p, key.q⟩

/-- What `update_private` and `decrypt` do with numbers that are not two primes of a key.
Deserializing does not validate them. -/
structure LoosePaillier where
  update : PaillierFields → Outcome Unit
  decrypt : PaillierFields → ℤ → Outcome ℤ

namespace PaillierFields

/-- The primes of a key. -/
structure IsKey (P : PaillierFields) : Prop where
  hasPrivate : P.hasPrivate = true
  nonneg : 0 ≤ P.p ∧ 0 ≤ P.q
  N_eq : P.N = P.p * P.q
  prime_p : P.p.toNat.Prime
  prime_q : P.q.toNat.Prime
  lt : P.q.toNat < P.p.toNat
  lt_two_mul : P.p.toNat < 2 * P.q.toNat
  two_lt : 2 < P.q.toNat

instance (P : PaillierFields) : Decidable P.IsKey :=
  decidable_of_iff (P.hasPrivate = true ∧ (0 ≤ P.p ∧ 0 ≤ P.q) ∧ P.N = P.p * P.q ∧
    P.p.toNat.Prime ∧ P.q.toNat.Prime ∧
    P.q.toNat < P.p.toNat ∧ P.p.toNat < 2 * P.q.toNat ∧ 2 < P.q.toNat)
    ⟨fun ⟨h1, h2, h3, h4, h5, h6, h7, h8⟩ => ⟨h1, h2, h3, h4, h5, h6, h7, h8⟩,
      fun h => ⟨h.1, h.2, h.3, h.4, h.5, h.6, h.7, h.8⟩⟩

def key (P : PaillierFields) : Option PaillierPrimes :=
  if h : P.IsKey then
    some ⟨P.p.toNat, P.q.toNat, h.prime_p, h.prime_q, h.lt, h.lt_two_mul, h.two_lt⟩ else none

theorem key_fields (key : PaillierPrimes) (hkey : key.Updates) :
    (Paillier.prv key hkey).fields.key = some key := by
  have hkey : (Paillier.prv key hkey).fields.IsKey := by
    refine ⟨rfl, ⟨Int.natCast_nonneg _, Int.natCast_nonneg _⟩, ?_, key.prime_p, key.prime_q, key.lt,
      key.lt_two_mul, key.two_lt⟩
    exact Int.natCast_mul key.p key.q
  rw [PaillierFields.key, dif_pos hkey]
  rfl

variable (L : LoosePaillier)

/-- `update_private`, which puts the larger prime first. -/
def updatePrivate (P : PaillierFields) : Outcome PaillierFields := do
  let ordered := if P.p < P.q then { P with p := P.q, q := P.p } else P
  match ordered.key with
  | some key => do
    let _ ← key.updatePrivate
    .ok ordered
  | none => do
    L.update ordered
    .ok ordered

/-- `decrypt`. -/
def decrypt (P : PaillierFields) (src : ℤ) : Outcome ℤ :=
  match P.key with
  | some key => key.decrypt src
  | none => L.decrypt P src

/-- `paillier_t::convert`. -/
def write (P : PaillierFields) : WriteM Unit := do
  writeBool P.hasPrivate
  writeMod P.N
  if P.hasPrivate then do
    writeBn P.p
    writeBn P.q
  else
    return

/-- The end of `paillier_t::convert` in the reading mode. -/
def load (P : PaillierFields) : ReadM PaillierFields := do
  if ← ReadM.isError then
    return P
  else if paillierBits < P.N.natAbs.size then do
    ReadM.setError .format
    return P
  else if P.hasPrivate then
    StateT.lift (P.updatePrivate L)
  else
    return P

def read : ReadM PaillierFields := do
  let hasPrivate ← readBool
  let N ← readMod
  if hasPrivate then do
    let p ← readBn
    let q ← readBn
    load L ⟨true, N, p, q⟩
  else
    load L ⟨false, N, 0, 0⟩

/-- The code word. -/
def enc (P : PaillierFields) : Bytes :=
  encBool P.hasPrivate ++ (encBn P.N ++ if P.hasPrivate then encBn P.p ++ encBn P.q else [])

end PaillierFields

/-- `key_blob_v1_t` of `ecdsa_2p`. -/
structure KeyBlob2p where
  version : Word .w32
  role : Word .w32
  curve : Word .w32
  QCompressed : Bytes
  xShare : ℤ
  cKey : ℤ
  paillier : PaillierFields

/-- The members before the Paillier key. -/
def headTy : Ty :=
  .pair (.uint .w32) (.pair (.uint .w32) (.pair (.uint .w32) (.pair .buf (.pair .bn .bn))))

namespace KeyBlob2p

def headVal (blob : KeyBlob2p) : headTy.Val noCurves :=
  (blob.version, blob.role, blob.curve, blob.QCompressed, blob.xShare, blob.cKey)

def ofVal : headTy.Val noCurves → PaillierFields → KeyBlob2p
  | (version, role, curve, QCompressed, xShare, cKey), paillier =>
    ⟨version, role, curve, QCompressed, xShare, cKey, paillier⟩

/-- `convert` of the members in one call: the Paillier key is left out after an error. -/
def write (blob : KeyBlob2p) : WriteM Unit := do
  CbMpc.write headTy blob.headVal
  writeRest blob.paillier.write

def read (L : LoosePaillier) : ReadM KeyBlob2p := do
  let v ← CbMpc.read nameOrder headTy
  let paillier ← readRest ⟨false, 0, 0, 0⟩ (PaillierFields.read L)
  return ofVal v paillier

def bytes (blob : KeyBlob2p) : Bytes := enc headTy blob.headVal ++ blob.paillier.enc

end KeyBlob2p

/-- A test whose error code is replaced. -/
def withCode {α : Type} (rv : ErrorCode) (x : Outcome α) : Outcome α :=
  match x with
  | .error (.code _) => fail rv
  | .error (.thrown e) => throwing e
  | .ok a => .ok a

/-- `party_t`. -/
inductive Role where
  | p1 | p2
  deriving DecidableEq, Repr

def Role.code : Role → Word .w32
  | p1 => 0
  | p2 => 1

/-- The public `job_2p_t`. -/
structure ApiJob2p where
  self : ℤ
  p1Name : PName
  p2Name : PName

/-- `validate_job_2p`, which tells the parties apart by the values 0 and 1. -/
def validateJob2p (job : ApiJob2p) : Outcome Unit := do
  require (decide (job.self = 0 ∨ job.self = 1)) .badArg
  require (decide (job.p1Name ≠ [])) .badArg
  require (decide (job.p2Name ≠ [])) .badArg
  require (decide (job.p1Name ≠ job.p2Name)) .badArg

def ApiJob2p.role (job : ApiJob2p) : Role := if job.self = 0 then .p1 else .p2

section Vartime

variable {α : Type}

/-- `compute_power` inside a `vartime_scope_t`. -/
def Crt.computePowerVartime (crt : Crt) (NN : ℕ) (c : ℤ) : Outcome ℤ := do
  let cModP ← modReduce crt.p c
  let cModQ ← modReduce crt.q c
  let mp ← modPow crt.p cModP crt.dp
  let mq ← modPow crt.q cModQ crt.dq
  let d ← modSub true crt.p mp mq
  let h ← modMul true crt.p crt.qinv d
  let hq ← modMul true NN h crt.q
  modAdd true NN mq hq

/-- `paillier_t::decrypt` inside a `vartime_scope_t`. -/
def PaillierPrimes.decryptVartime (key : PaillierPrimes) (src : ℤ) : Outcome ℤ := do
  cbAssert (decide (0 < src ∧ src < (key.N * key.N : ℕ)))
  let isCoprime ← coprime true src key.N
  cbAssert isCoprime
  let cache ← key.updatePrivate
  let c1 ← cache.crtDec.computePowerVartime (key.N * key.N) src
  let tmpLow := (c1 - 1) % 2 ^ paillierBits
  let m1 := tmpLow * cache.invNMod2k % 2 ^ paillierBits
  modMul true key.N m1 cache.invPhiN

def PaillierFields.decryptVartime (L : LoosePaillier) (P : PaillierFields) (src : ℤ) : Outcome ℤ :=
  match P.key with
  | some key => key.decryptVartime src
  | none => L.decrypt P src

end Vartime

section Api

variable (garbage : ℕ → Fin 256) (L : LoosePaillier) (F : CurveId → CurveBackend)

/-- `ecdsa2pc::key_t` with the identifier of its curve. -/
structure ApiKey2p where
  role : Role
  curve : CurveId
  Q : (F curve).E
  xShare : ℤ
  cKey : ℤ
  paillier : PaillierFields

variable {F}

/-- The blob of a key. -/
def ApiKey2p.blob (key : ApiKey2p F) : KeyBlob2p :=
  ⟨1, key.role.code, key.curve.code, (F key.curve).toCompressedBin key.Q, key.xShare, key.cKey,
    key.paillier⟩

/-- `serialize_key_blob`. -/
def serializeKeyBlob2p (key : ApiKey2p F) : Outcome Bytes := do
  require (decide (key.curve ≠ .ed25519)) .badArg
  ser garbage key.blob.write

variable (F)

/-- The share against its encryption, at the first party. -/
def checkPlain (decrypt : ℤ → Outcome ℤ) (P : PaillierFields) (cKey x : ℤ) : Outcome Unit :=
  if P.hasPrivate then do
    let plain ← decrypt cKey
    let xModN ← modReduce P.N.toNat x
    require (decide (plain = xModN)) .format
  else .ok ()

def blobToKey (blob : KeyBlob2p) : Outcome (ApiKey2p F) := do
  require (decide (blob.role.toNat ≤ 1)) .format
  let c ← blobCurve blob.curve
  require (decide (blob.role = 0) == blob.paillier.hasPrivate) .format
  require (decide (paillierBits ≤ blob.paillier.N.natAbs.size)) .format
  require (isInRange blob.paillier.N.toNat blob.xShare) .format
  withCode .format ((Paillier.pub blob.paillier.N.toNat).verifyCipher blob.cKey)
  checkPlain (blob.paillier.decrypt L) blob.paillier blob.cKey blob.xShare
  let Q ← (F c).fromBin blob.QCompressed
  let Q ← withCode .format (curveCheck false (.on Q))
  .ok ⟨if blob.role = 0 then .p1 else .p2, c, Q, blob.xShare, blob.cKey, blob.paillier⟩

/-- `deserialize_key_blob`, which looks at the version before it parses. -/
def deserializeKeyBlob2p (src : Bytes) : Outcome (ApiKey2p F) := do
  require (decide (4 ≤ src.length)) .format
  require (decide (fromBin (src.take 4) = 1)) .format
  let blob ← convertFrom (KeyBlob2p.read L) src
  require (decide (blob.version = 1)) .format
  blobToKey L F blob

variable {α : Type} (rest : ApiKey2p F → Outcome α)

def refresh2p (job : ApiJob2p) (src : Bytes) : Outcome α := do
  validateJob2p job
  validateMemArgMaxSize src maxOpaqueBlobSize
  let key ← deserializeKeyBlob2p L F src
  require (decide (key.role = job.role)) .badArg
  rest key

/-- `sign_common`. -/
def sign2p (job : ApiJob2p) (src msgHash : Bytes) : Outcome α := do
  validateJob2p job
  validateMemArgMaxSize src maxOpaqueBlobSize
  validateMemArgMaxSize msgHash maxMessageDigestSize
  let key ← deserializeKeyBlob2p L F src
  require (decide (key.role = job.role)) .badArg
  rest key

/-- `get_public_share_compressed`. -/
def getPublicShareCompressed2p (src : Bytes) : Outcome Bytes := do
  validateMemArgMaxSize src maxOpaqueBlobSize
  let key ← deserializeKeyBlob2p L F src
  let x ← modReduce (F key.curve).q key.xShare
  let X ← (F key.curve).curve.mulToGenerator x
  .ok ((F key.curve).toCompressedBin X)

/-- `detach_private_scalar`: the blob without the scalar, and the scalar in as many bytes as it
has. -/
def detachPrivateScalar2p (src : Bytes) : Outcome (Bytes × Bytes) := do
  validateMemArgMaxSize src maxOpaqueBlobSize
  let key ← deserializeKeyBlob2p L F src
  require (decide (key.curve ≠ .ed25519)) .badArg
  let scalar ← toBin key.xShare (getBinSize key.xShare)
  let out ← ser garbage { key.blob with xShare := key.paillier.N }.write
  .ok (out, scalar)

def attachPrivateScalar2p (src scalar publicShare : Bytes) : Outcome Bytes := do
  validateMemArgMaxSize src maxOpaqueBlobSize
  let blob ← convertFrom (KeyBlob2p.read L) src
  require (decide (blob.version = 1)) .format
  require (decide (blob.role.toNat ≤ 1)) .format
  let c ← blobCurve blob.curve
  validateMemArg scalar
  validateMemArg publicShare
  require (decide (blob.role = 0) == blob.paillier.hasPrivate) .format
  require (decide (paillierBits ≤ blob.paillier.N.natAbs.size)) .format
  withCode .format ((Paillier.pub blob.paillier.N.toNat).verifyCipher blob.cKey)
  require (isInRange blob.paillier.N.toNat (fromBin scalar)) .format
  checkPlain (blob.paillier.decryptVartime L) blob.paillier blob.cKey (fromBin scalar)
  let x ← modReduce (F c).q (fromBin scalar)
  require (isInRange (F c).q x) .format
  let P ← (F c).fromBin publicShare
  let P ← curveCheck false (.on P)
  let X ← (F c).curve.mulToGenerator x
  require (decide (X = P)) .format
  let Q ← (F c).fromBin blob.QCompressed
  let Q ← curveCheck false (.on Q)
  ser garbage { blob with QCompressed := (F c).toCompressedBin Q, xShare := fromBin scalar }.write

end Api

section Sizes

theorem getBinSize_le_of_lt_pow {x : ℤ} {k : ℕ} (h0 : 0 ≤ x)
    (h : x < 2 ^ (8 * k)) : getBinSize x ≤ k := by
  obtain ⟨n, rfl⟩ := Int.eq_ofNat_of_zero_le h0
  have hn : n < 2 ^ (8 * k) := by exact_mod_cast h
  have hsize := Nat.size_le.mpr hn
  rw [getBinSize, Int.natAbs_natCast, bitsToBytes]
  omega

namespace PaillierFields

/-- A Paillier key that the conversions can express. -/
structure Sized (P : PaillierFields) : Prop where
  modulus : isValidModulus P.N = true
  N_size : getBinSize P.N ≤ 256
  p_size : getBinSize P.p ≤ 256
  q_size : getBinSize P.q ≤ 256

variable {P : PaillierFields}

theorem Sized.writes (h : P.Sized) : Writes P.write P.enc := by
  have hmax : 256 ≤ maxSerializedBignumBytes := by decide
  have hp := writes_writeBn (h.p_size.trans hmax)
  have hq := writes_writeBn (h.q_size.trans hmax)
  refine (writes_writeUint _).bind ((writes_writeBn (h.N_size.trans hmax)).bind ?_)
  cases P.hasPrivate with
  | false => exact .pure
  | true => exact hp.bind hq

theorem Sized.length_enc_le (h : P.Sized) : P.enc.length ≤ 1 + 3 * 260 := by
  have hN := length_encBn_le P.N
  have hp := length_encBn_le P.p
  have hq := length_encBn_le P.q
  have hbool : (encBool P.hasPrivate).length = 1 := by rw [encBool, encUint, length_binPad]; rfl
  have := h.N_size
  have := h.p_size
  have := h.q_size
  rw [enc, List.length_append, List.length_append, hbool]
  cases P.hasPrivate with
  | false =>
    simp only [Bool.false_eq_true, if_false, List.length_nil]
    omega
  | true =>
    simp only [if_true, List.length_append]
    omega

variable {L : LoosePaillier}

/-- Loading restores the fields when it accepts them. -/
theorem Sized.decodes (h : P.Sized) (hbits : P.N.natAbs.size ≤ paillierBits)
    (hpub : P.hasPrivate = false → P.p = 0 ∧ P.q = 0)
    (hprv : P.hasPrivate = true → P.updatePrivate L = .ok P) :
    Decodes (read L) P.enc P := by
  have hmax : 256 ≤ maxSerializedBignumBytes := by decide
  have hp := decodes_readBn (h.p_size.trans hmax)
  have hq := decodes_readBn (h.q_size.trans hmax)
  have hN := decodes_readMod (h.N_size.trans hmax) h.modulus
  obtain ⟨hasPrivate, N, p, q⟩ := P
  refine (decodes_readBool hasPrivate).bind (hN.bind ?_)
  cases hasPrivate with
  | false =>
    obtain ⟨hp0, hq0⟩ := hpub rfl
    simp only at hp0 hq0
    subst hp0 hq0
    rw [if_neg Bool.false_ne_true, if_neg Bool.false_ne_true]
    refine .bind_nil decodes_isError ?_
    rw [if_neg Bool.false_ne_true, if_neg (not_lt.mpr hbits)]
    exact .pure _
  | true =>
    rw [if_pos rfl, if_pos rfl]
    refine hp.bind (hq.bind_end (.bind_nil decodes_isError ?_))
    rw [if_neg Bool.false_ne_true, if_neg (not_lt.mpr hbits), if_pos rfl]
    intro src offset rest _ _ _
    rw [hprv rfl]
    rfl

end PaillierFields

namespace KeyBlob2p

/-- The sizes that keys have. -/
structure Sized (blob : KeyBlob2p) : Prop where
  QCompressed : blob.QCompressed.length ≤ 67
  xShare : getBinSize blob.xShare ≤ 256
  cKey : getBinSize blob.cKey ≤ 512
  paillier : blob.paillier.Sized

variable {blob : KeyBlob2p}

theorem Sized.fits (h : blob.Sized) : Fits nameOrder headTy blob.headVal := by
  have hbuf : 67 ≤ maxConvertLen := by decide
  have hbn : 512 ≤ maxSerializedBignumBytes := by decide
  have hsmall : 256 ≤ maxSerializedBignumBytes := by decide
  exact ⟨trivial, trivial, trivial, h.QCompressed.trans hbuf, h.xShare.trans hsmall,
    h.cKey.trans hbn⟩

theorem bytes_eq (blob : KeyBlob2p) :
    blob.bytes = encUint blob.version ++ (encUint blob.role ++ encUint blob.curve ++
    encBuf blob.QCompressed ++ encBn blob.xShare ++ encBn blob.cKey ++ blob.paillier.enc) := by
  simp only [List.append_assoc]
  rw [bytes]
  change (encUint blob.version ++
    (encUint blob.role ++ (encUint blob.curve ++ (encBuf blob.QCompressed ++
    (encBn blob.xShare ++ encBn blob.cKey))))) ++ blob.paillier.enc = _
  simp only [List.append_assoc]

/-- The blob of a key is far below the limit of the public functions. -/
theorem Sized.length_bytes (h : blob.Sized) : blob.bytes.length ≤ maxOpaqueBlobSize := by
  have hQ := h.QCompressed
  have hx := h.xShare
  have hc := h.cKey
  have hP := h.paillier.length_enc_le
  have hlen := length_encLen_le blob.QCompressed.length
  have hxlen := length_encBn_le blob.xShare
  have hclen := length_encBn_le blob.cKey
  have hmax : maxOpaqueBlobSize = 1048576 := rfl
  rw [bytes_eq]
  simp only [encUint, encBuf, List.length_append, length_binPad, IntWidth.bytes]
  omega

theorem maxOpaqueBlobSize_le : maxOpaqueBlobSize ≤ intMax := by decide

theorem Sized.ser_eq (h : blob.Sized) (garbage : ℕ → Fin 256) :
    ser garbage blob.write = .ok blob.bytes := by
  have hw : Writes blob.write blob.bytes :=
    (writes_write h.fits).bind (writes_writeRest h.paillier.writes)
  rw [CbMpc.ser_eq hw]
  exact if_pos (h.length_bytes.trans maxOpaqueBlobSize_le)

theorem Sized.parse_eq {L : LoosePaillier} (h : blob.Sized)
    (hP : Decodes (PaillierFields.read L) blob.paillier.enc blob.paillier) :
    convertFrom (read L) blob.bytes = .ok blob :=
  convertFrom_eq ((decodes_read h.fits).bind ((decodes_readRest hP).bind_end (.pure _)))
    (h.length_bytes.trans maxOpaqueBlobSize_le)

theorem take_bytes (blob : KeyBlob2p) : blob.bytes.take 4 = encUint blob.version := by
  rw [bytes_eq]
  exact List.take_left' (length_binPad _ _)

theorem four_le_length (blob : KeyBlob2p) : 4 ≤ blob.bytes.length := by
  rw [bytes_eq, List.length_append, encUint, length_binPad]
  exact Nat.le_add_right 4 _

end KeyBlob2p

end Sizes

section RoundTrip

variable {E : Type} {F : CurveId → CurveBackend} {L : LoosePaillier}

/-- What the deserializer tests of a two-party key, apart from the curve. -/
structure ConsistentKey2p (role : Role) (key : Ecdsa2pKey E) : Prop where
  modulus : 1 < key.paillier.N ∧ key.paillier.N.size = paillierBits ∧ key.paillier.N % 2 = 1
  role_iff : role = .p1 ↔ key.paillier.fields.hasPrivate = true
  range : isInRange key.paillier.N key.xShare = true
  cipher : key.paillier.verifyCipher key.cKey = .ok ()
  plain : ∀ pk hpk, key.paillier = .prv pk hpk → pk.decrypt key.cKey = .ok key.xShare

/-- A key of the protocol as the public functions see it. -/
def ApiKey2p.ofKey (role : Role) (c : CurveId) (key : Ecdsa2pKey (F c).E) : ApiKey2p F :=
  ⟨role, c, key.Q, key.xShare, key.cKey, key.paillier.fields⟩

theorem Paillier.fields_N (P : Paillier) : P.fields.N = P.N := by cases P <;> rfl

theorem Paillier.verifyCipher_pub (P : Paillier) (c : ℤ) :
    (Paillier.pub P.N).verifyCipher c = P.verifyCipher c := rfl

theorem Paillier.verifyCipher_ok {P : Paillier} {c : ℤ} (h : P.verifyCipher c = .ok ()) :
    0 < c ∧ c < (P.N * P.N : ℕ) ∧ Int.gcd c P.N = 1 := by
  obtain ⟨u, hrange, h⟩ := bind_ok_iff.mp h
  have hr := of_decide_eq_true ((require_ok_iff _ _).mp hrange)
  have hgcd : Int.gcd c P.N = 1 := by simpa [coprime] using h
  have hN : P.NN = P.N * P.N := rfl
  rw [hN] at hr
  exact ⟨by omega, by omega, hgcd⟩

variable {role : Role} {key : Ecdsa2pKey E}

theorem ConsistentKey2p.N_lt (h : ConsistentKey2p role key) : (key.paillier.N : ℤ) < 2 ^ 2048 := by
  have hlt := Int.ofNat_lt.mpr (Nat.size_le.mp h.modulus.2.1.le)
  rw [Nat.cast_pow, Nat.cast_ofNat, paillierBits_eq] at hlt
  exact hlt

theorem ConsistentKey2p.sized_fields (h : ConsistentKey2p role key) :
    key.paillier.fields.Sized := by
  have hlt := h.N_lt
  have hsize := h.modulus.2.1
  have hvalid : isValidModulus key.paillier.N = true := by
    have h1 := h.modulus.1
    have h2 := h.modulus.2.2
    refine decide_eq_true ⟨by exact_mod_cast h1, ?_, by exact_mod_cast h2⟩
    rw [Int.natAbs_natCast, hsize, paillierBits_eq, maxModulusBits]
    norm_num
  have hsub : ∀ n : ℕ, n ≤ key.paillier.N → getBinSize n ≤ 256 := fun n hn =>
    getBinSize_le_of_lt_pow (Int.natCast_nonneg n) (lt_of_le_of_lt (by exact_mod_cast hn) hlt)
  obtain ⟨Q, x, c, P⟩ := key
  cases P with
  | pub N => exact ⟨hvalid, hsub N le_rfl, hsub 0 (Nat.zero_le _), hsub 0 (Nat.zero_le _)⟩
  | prv pk _ =>
    exact ⟨hvalid, hsub pk.N le_rfl, hsub pk.p (Nat.le_mul_of_pos_right _ pk.prime_q.pos),
      hsub pk.q (Nat.le_mul_of_pos_left _ pk.prime_p.pos)⟩

theorem ConsistentKey2p.decodes_fields (h : ConsistentKey2p role key) :
    Decodes (PaillierFields.read L) key.paillier.fields.enc key.paillier.fields := by
  have hsize := h.modulus.2.1
  have hsized := h.sized_fields
  obtain ⟨Q, x, c, P⟩ := key
  cases P with
  | pub N =>
    exact hsized.decodes hsize.le (fun _ => ⟨rfl, rfl⟩) fun hprv => absurd hprv Bool.false_ne_true
  | prv pk hpk =>
    refine hsized.decodes hsize.le (fun hpub => absurd hpub.symm Bool.false_ne_true) fun _ => ?_
    have hlt : ¬((pk.p : ℤ) < pk.q) := by
      have := pk.lt
      omega
    obtain ⟨cache, hcache, -⟩ := pk.updatePrivate_cached hpk
    have hkey := PaillierFields.key_fields pk hpk
    rw [PaillierFields.updatePrivate]
    simp only [Paillier.fields, hlt, if_false] at hkey ⊢
    rw [hkey]
    simp only [hcache, ok_bind]

/-- The sizes of a blob whose share lies between 0 and the modulus, which may take its place. -/
theorem ConsistentKey2p.sized_blob {c : CurveId} {key : Ecdsa2pKey (F c).E}
    (h : ConsistentKey2p role key) {x : ℤ} (hx : 0 ≤ x ∧ x ≤ key.paillier.N) :
    KeyBlob2p.Sized { (ApiKey2p.ofKey (F := F) role c key).blob with xShare := x } where
  QCompressed := by
    have hsize := (F c).size_le
    change ((F c).toCompressedBin key.Q).length ≤ 67
    rw [CurveBackend.length_toCompressedBin]
    omega
  xShare := getBinSize_le_of_lt_pow hx.1 (lt_of_le_of_lt hx.2 h.N_lt)
  cKey := by
    obtain ⟨h0, hlt, -⟩ := Paillier.verifyCipher_ok h.cipher
    have hN := h.N_lt
    have hsq : ((key.paillier.N * key.paillier.N : ℕ) : ℤ) < 2 ^ (2048 + 2048) := by
      rw [Nat.cast_mul, pow_add]
      exact mul_lt_mul'' hN hN (Int.natCast_nonneg _) (Int.natCast_nonneg _)
    exact getBinSize_le_of_lt_pow h0.le (hlt.trans hsq)
  paillier := h.sized_fields

end RoundTrip

end CbMpc
