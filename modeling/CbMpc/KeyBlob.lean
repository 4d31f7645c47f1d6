import CbMpc.Refresh
import CbMpc.Serialization

/-!
# Key blobs

The public functions of multi-party ECDSA hand a key share out as a blob, and take it in again
with a job that may list the parties in another order. The private scalar can be taken out of a
blob and put back. What a protocol does with a key is an argument of the function that starts it.
-/
namespace OrderedMap

variable {K V : Type} [LinearOrder K]

/-- A map that is filled entry by entry. -/
def ofEntries (l : List (K × V)) : OrderedMap K V := l.foldl (fun m e => m.insert e.1 e.2) empty

theorem ofEntries_entries (m : OrderedMap K V) : ofEntries m.entries = m := by
  have hout : ∀ (l : List (K × V)) (m : OrderedMap K V) (k : K), (∀ e ∈ l, e.1 ≠ k) →
      (l.foldl (fun m e => m.insert e.1 e.2) m).find k = m.find k := by
    intro l
    induction l with
    | nil =>
      intro m k _
      rfl
    | cons e l ih =>
      intro m k hk
      rw [List.foldl_cons, ih _ k fun e' he' => hk e' (by simp [he']), find_insert,
        if_neg (hk e (by simp)).symm]
  have hfind : ∀ (l : List (K × V)) (m : OrderedMap K V) (k : K),
      l.Pairwise (fun a b => a.1 < b.1) → m.find k = none →
      (l.foldl (fun m e => m.insert e.1 e.2) m).find k = findEntries k l := by
    intro l
    induction l with
    | nil =>
      intro m k _ hm
      exact hm
    | cons e l ih =>
      intro m k hl hm
      obtain ⟨he, hl⟩ := List.pairwise_cons.mp hl
      rw [List.foldl_cons, findEntries]
      by_cases hk : k = e.1
      · rw [if_pos hk, hout l _ k fun e' he' => by rw [hk]; exact (he e' he').ne',
          find_insert, if_pos hk]
      · rw [if_neg hk, ih _ k hl (by rw [find_insert, if_neg hk, hm])]
  exact ext_find fun k => hfind m.entries empty k m.sorted rfl

end OrderedMap

namespace CbMpc

open ReadM WriteM

/-- `MAX_OPAQUE_BLOB_SIZE`. -/
def maxOpaqueBlobSize : ℕ := 1048576

/-- `MAX_MESSAGE_DIGEST_SIZE`. -/
def maxMessageDigestSize : ℕ := 64

def validateMemArg (m : Bytes) : Outcome Unit := require (decide (m ≠ [])) .badArg

def validateMemArgMaxSize (m : Bytes) (maxSize : ℕ) : Outcome Unit := do
  validateMemArg m
  require (decide (m.length ≤ maxSize)) .range

/-- The public `job_mp_t`, as the caller gives it. -/
structure ApiJob where
  self : ℤ
  partyNames : List PName

def ApiJob.SelfInRange (job : ApiJob) : Prop := 0 ≤ job.self ∧ job.self < job.partyNames.length

instance (job : ApiJob) : Decidable job.SelfInRange := inferInstanceAs (Decidable (_ ∧ _))

/-- The name at `self`. -/
def ApiJob.selfName (job : ApiJob) : PName := job.partyNames.getD job.self.toNat []

/-- `validate_job_mp`. -/
def validateJobMp (job : ApiJob) : Outcome Unit := do
  require (decide (2 ≤ job.partyNames.length)) .badArg
  require (decide (job.partyNames.length ≤ 64)) .range
  require (decide job.SelfInRange) .badArg
  require (decide ([] ∉ job.partyNames ∧ job.partyNames.Nodup)) .badArg

/-- `curve_id`. -/
inductive CurveId where
  | p256 | secp256k1 | ed25519
  deriving DecidableEq, Repr

def CurveId.code : CurveId → Word .w32
  | p256 => 1
  | secp256k1 => 2
  | ed25519 => 3

/-- `to_internal_curve` of any 32-bit value, with the curves that the ECDSA blobs refuse. -/
def blobCurve (code : Word .w32) : Outcome CurveId :=
  if code = CurveId.code .p256 then .ok .p256
  else if code = CurveId.code .secp256k1 then .ok .secp256k1
  else fail .format

theorem blobCurve_code {c : CurveId} (hc : c ≠ .ed25519) : blobCurve c.code = .ok c := by
  cases c with
  | p256 => rfl
  | secp256k1 => rfl
  | ed25519 => exact absurd rfl hc

/-- A curve of the library with its point encoding. `oct` encodes a point other than infinity in
compressed form, and `parse` is the decoder of the backend. -/
structure CurveBackend where
  q : ℕ
  prime : Fact q.Prime
  order_size : q.size ≤ 521
  E : Type
  group : AddCommGroup E
  module : Module (ZMod q) E
  decEq : DecidableEq E
  curve : Curve q E
  size : ℕ
  size_le : size ≤ 66
  oct : E → Bytes
  parse : Bytes → Option E
  length_oct : ∀ P, P ≠ 0 → (oct P).length = 1 + size
  head_oct : ∀ P, P ≠ 0 → (oct P).head? ≠ some 0
  parse_oct : ∀ P, P ≠ 0 → parse (oct P) = some P

attribute [instance] CurveBackend.prime CurveBackend.group CurveBackend.module CurveBackend.decEq

namespace CurveBackend

variable (B : CurveBackend)

/-- `to_compressed_bin`; both backends leave zeros for infinity. -/
def toCompressedBin (P : B.E) : Bytes := if P = 0 then List.replicate (1 + B.size) 0 else B.oct P

/-- `from_bin`; only the OpenSSL curves know infinity. -/
def fromBin (bin : Bytes) : Outcome B.E :=
  if B.curve.type = .ossl ∧ bin.head? = some 0 then do
    require (decide (bin.length = 1 + B.size ∨ bin.length = 1 + 2 * B.size)) .format
    require (decide (∀ b ∈ bin, b = 0)) .crypto
    .ok 0
  else
    match B.parse bin with
    | some P => .ok P
    | none => fail .crypto

/-- The points that `from_bin` finds again. -/
def Encodable (P : B.E) : Prop := B.curve.type = .ossl ∨ P ≠ 0

variable {B}

theorem length_toCompressedBin (P : B.E) : (B.toCompressedBin P).length = 1 + B.size := by
  by_cases hP : P = 0
  · rw [toCompressedBin, if_pos hP, List.length_replicate]
  · rw [toCompressedBin, if_neg hP, B.length_oct P hP]

theorem toCompressedBin_ne_nil (P : B.E) : B.toCompressedBin P ≠ [] := by
  apply List.ne_nil_of_length_pos
  rw [length_toCompressedBin]
  omega

theorem fromBin_toCompressedBin {P : B.E} (h : B.Encodable P) :
    B.fromBin (B.toCompressedBin P) = .ok P := by
  by_cases hP : P = 0
  · have htype : B.curve.type = .ossl := h.resolve_right fun hne => hne hP
    have hzero : ∀ b ∈ List.replicate (1 + B.size) (0 : Fin 256), b = 0 := fun b hb =>
      List.eq_of_mem_replicate hb
    rw [toCompressedBin, if_pos hP, fromBin,
      if_pos ⟨htype, by rw [Nat.add_comm, List.replicate_succ, List.head?_cons]⟩,
      List.length_replicate, decide_eq_true (Or.inl rfl), decide_eq_true hzero, hP]
    rfl
  · rw [toCompressedBin, if_neg hP, fromBin, if_neg fun hand => B.head_oct P hP hand.2,
      B.parse_oct P hP]

theorem returns_fromBin (bin : Bytes) : Returns (B.fromBin bin) := by
  unfold fromBin
  split
  · exact returns_bind_iff.mpr ⟨returns_require _ _, fun _ _ => returns_bind_iff.mpr
      ⟨returns_require _ _, fun _ _ => returns_ok 0⟩⟩
  · split
    · exact returns_ok _
    · exact returns_fail .crypto

theorem mulToGenerator_zero : B.curve.mulToGenerator 0 = .ok 0 := by
  have hrange : isInRange B.q 0 = true :=
    (isInRange_iff 0).mpr ⟨le_rfl, by exact_mod_cast B.prime.out.pos⟩
  rw [mulToGenerator_of_isInRange B.curve hrange, Int.cast_zero, zero_smul]

end CurveBackend

/-- `coinbase::convert(dst, src)`, which does not look for trailing bytes. -/
def convertFrom {α : Type} (x : ReadM α) (src : Bytes) : Outcome α := do
  let out ← x ⟨src, 0, none⟩
  match out.2.error with
  | some rv => fail rv
  | none => .ok out.1

theorem convertFrom_eq {α : Type} {x : ReadM α} {bytes : Bytes} {a : α} (h : Decodes x bytes a)
    (hlen : bytes.length ≤ intMax) : convertFrom x bytes = .ok a := by
  rw [convertFrom, h bytes 0 [] hlen (Nat.zero_le _) (by simp)]
  rfl

/-- No curve is serialized as such in a blob. -/
def noCurves : CurveTable where
  Curve := Empty
  code := Empty.elim
  find := fun _ => none
  code_ne_zero := fun c => c.elim
  find_code := fun c => c.elim
  Point := Unit
  pointSize := Empty.elim
  toBin := Empty.elim
  fromBin := Empty.elim
  length_toBin := fun c => c.elim

/-- `operator<` of `std::string`. -/
def nameLess (a b : PName) : Bool := decide (a < b)

theorem nameLess_asymm {a b : PName} (h : nameLess a b = true) : nameLess b a = false := by
  have hlt : a < b := of_decide_eq_true h
  exact decide_eq_false hlt.asymm

def nameOrder : KeyOrder noCurves where
  less
    | .string, a, b => nameLess a b
    | _, _, _ => false
  asymm k a b h := by
    cases k with
    | string => exact nameLess_asymm h
    | _ => rfl

/-- `key_blob_v1_t` of `ecdsa_mp`. -/
structure KeyBlob where
  version : Word .w32
  curve : Word .w32
  partyName : PName
  QCompressed : Bytes
  QisCompressed : OrderedMap PName Bytes
  xShare : ℤ

def keyBlobTy : Ty :=
  .pair (.uint .w32) (.pair (.uint .w32)
    (.pair .string (.pair .buf (.pair (.map .string .buf) .bn))))

namespace KeyBlob

/-- The members in the order of `convert`. -/
def val (blob : KeyBlob) : keyBlobTy.Val noCurves :=
  (blob.version, blob.curve, blob.partyName, blob.QCompressed, blob.QisCompressed.entries,
    blob.xShare)

def ofVal : keyBlobTy.Val noCurves → KeyBlob
  | (version, curve, partyName, QCompressed, entries, xShare) =>
    ⟨version, curve, partyName, QCompressed, OrderedMap.ofEntries entries, xShare⟩

/-- `coinbase::convert(blob)`, into a buffer with arbitrary contents. -/
def convert (garbage : ℕ → Fin 256) (blob : KeyBlob) : Outcome Bytes :=
  ser garbage (write keyBlobTy blob.val)

/-- `coinbase::convert(blob, in)`. -/
def parse (src : Bytes) : Outcome KeyBlob := do
  let v ← convertFrom (read nameOrder keyBlobTy) src
  .ok (ofVal v)

def bytes (blob : KeyBlob) : Bytes := enc keyBlobTy blob.val

/-- The sizes that the conversions allow. -/
structure Sized (blob : KeyBlob) : Prop where
  partyName : blob.partyName.length ≤ shrtMax
  QCompressed : blob.QCompressed.length ≤ maxConvertLen
  size : blob.QisCompressed.entries.length ≤ 64
  entry : ∀ e ∈ blob.QisCompressed.entries, e.1.length ≤ shrtMax ∧ e.2.length ≤ 67
  xShare : getBinSize blob.xShare ≤ 66

end KeyBlob

section Api

variable (garbage : ℕ → Fin 256) (F : CurveId → CurveBackend)

/-- `key_t` with the identifier of its curve, as `from_internal_curve` finds it. -/
structure ApiKey where
  curve : CurveId
  share : KeyShareMp (F curve).q (F curve).E
  curve_eq : share.curve = (F curve).curve

variable {F}

/-- The loop that fills `blob.Qis_compressed`. -/
def compressQis (partyNames : List PName) (key : ApiKey F) : Outcome (OrderedMap PName Bytes) :=
  partyNames.foldlM (fun m name =>
    match key.share.Qis.find name with
    | none => fail .format
    | some P => .ok (m.insert name ((F key.curve).toCompressedBin P))) .empty

def serializeKeyBlobForPartyNames (partyNames : List PName) (selfName : PName)
    (key : ApiKey F) (version : Word .w32) :
    Outcome Bytes := do
  require (decide (key.curve ≠ .ed25519)) .badArg
  require (decide (selfName ∈ partyNames)) .badArg
  require (decide (key.share.partyName = selfName)) .badArg
  let Qis ← compressQis partyNames key
  KeyBlob.convert garbage ⟨version, key.curve.code, key.share.partyName,
    (F key.curve).toCompressedBin key.share.Q, Qis, key.share.xShare⟩

/-- `key_blob_version_v1` and `ac_key_blob_version_v1`. -/
def blobVersion (additive : Bool) : Word .w32 := if additive then 1 else 2

/-- `serialize_key_blob` of an additive key, else `serialize_ac_key_blob`. -/
def serializeBlob (additive : Bool) (job : ApiJob) (key : ApiKey F) : Outcome Bytes := do
  require (decide job.SelfInRange) .badArg
  serializeKeyBlobForPartyNames garbage job.partyNames job.selfName key (blobVersion additive)

/-- The loop that decodes `Qis`. -/
def loadQis (B : CurveBackend) (entries : List (PName × Bytes)) : Outcome (OrderedMap PName B.E) :=
  entries.foldlM (fun m e => do
    let P ← B.fromBin e.2
    .ok (m.insert e.1 P)) .empty

variable (F)

/-- The second half of the three deserializers: curve, share and points. The sum of the points is
tested for an additive key only. -/
def loadKey (additive : Bool) (blob : KeyBlob) (entries : List (PName × Bytes)) :
    Outcome (ApiKey F) := do
  let c ← blobCurve blob.curve
  require (isInRange (F c).q blob.xShare) .format
  let Q ← (F c).fromBin blob.QCompressed
  let Qis ← loadQis (F c) entries
  require (!additive || decide (Q = Qis.values.sum)) .format
  match Qis.find blob.partyName with
  | none => fail .format
  | some Qi => do
    let X ← (F c).curve.mulToGenerator blob.xShare
    require (decide (X = Qi)) .format
    .ok ⟨c, ⟨blob.xShare, Q, Qis, (F c).curve, blob.partyName⟩, rfl⟩

/-- The points of the parties of a job, in the order of the job. -/
def KeyBlob.entriesFor (blob : KeyBlob) (partyNames : List PName) : List (PName × Bytes) :=
  partyNames.map fun name => (name, (blob.QisCompressed.find name).getD [])

def deserializeBlob (additive : Bool) (job : ApiJob) (src : Bytes) : Outcome (ApiKey F) := do
  require (decide job.SelfInRange) .badArg
  let blob ← KeyBlob.parse src
  require (decide (blob.version = blobVersion additive)) .format
  require (decide (blob.partyName ≠ [])) .format
  require (decide (blob.partyName = job.selfName)) .badArg
  require (decide (job.partyNames.length = blob.QisCompressed.size)) .badArg
  forEach (fun name => require (blob.QisCompressed.find name).isSome .badArg) job.partyNames
  loadKey F additive blob (blob.entriesFor job.partyNames)

/-- `deserialize_key_blob`. -/
def deserializeKeyBlob (job : ApiJob) (src : Bytes) : Outcome (ApiKey F) :=
  deserializeBlob F true job src

/-- `deserialize_ac_key_blob` with a job. -/
def deserializeAcKeyBlob (job : ApiJob) (src : Bytes) : Outcome (ApiKey F) :=
  deserializeBlob F false job src

/-- `deserialize_ac_key_blob` without a job. -/
def deserializeAcKeyBlobOfAll (src : Bytes) : Outcome (ApiKey F) := do
  let blob ← KeyBlob.parse src
  require (decide (blob.version = blobVersion false)) .format
  require (decide (blob.partyName ≠ [])) .format
  require (decide (blob.QisCompressed.entries ≠ [])) .format
  loadKey F false blob blob.QisCompressed.entries

variable {α : Type} (rest : ApiKey F → Outcome α)

def refreshAdditive (job : ApiJob) (src : Bytes) : Outcome α := do
  validateJobMp job
  validateMemArgMaxSize src maxOpaqueBlobSize
  let key ← deserializeKeyBlob F job src
  rest key

def refreshAc (job : ApiJob) (src : Bytes) : Outcome α := do
  validateJobMp job
  validateMemArgMaxSize src maxOpaqueBlobSize
  let key ← deserializeAcKeyBlob F job src
  rest key

/-- The checks of the arguments of `sign_additive` and `sign_ac`. -/
def validateSign (job : ApiJob) (src msg : Bytes) (sigReceiver : ℤ) : Outcome Unit := do
  validateJobMp job
  validateMemArgMaxSize src maxOpaqueBlobSize
  validateMemArgMaxSize msg maxMessageDigestSize
  require (decide (0 ≤ sigReceiver ∧ sigReceiver < job.partyNames.length)) .badArg

def signAdditive (job : ApiJob) (src msg : Bytes) (sigReceiver : ℤ) : Outcome α := do
  validateSign job src msg sigReceiver
  let key ← deserializeKeyBlob F job src
  rest key

def signAc (job : ApiJob) (src msg : Bytes) (sigReceiver : ℤ) : Outcome α := do
  validateSign job src msg sigReceiver
  let key ← deserializeAcKeyBlobOfAll F src
  require (decide (key.share.partyName = job.selfName)) .badArg
  rest key

/-- `parse_key_blob_any_version`. -/
def parseKeyBlobAnyVersion (src : Bytes) : Outcome (KeyBlob × CurveId) := do
  validateMemArgMaxSize src maxOpaqueBlobSize
  let blob ← KeyBlob.parse src
  require (decide (blob.version = blobVersion true ∨ blob.version = blobVersion false)) .format
  let c ← blobCurve blob.curve
  .ok (blob, c)

/-- `get_self_Qi_compressed_from_blob`. -/
def KeyBlob.selfQi (blob : KeyBlob) : Outcome Bytes := do
  require (decide (blob.partyName ≠ [])) .format
  match blob.QisCompressed.find blob.partyName with
  | none => fail .format
  | some bin => do
    require (decide (bin ≠ [])) .format
    .ok bin

def getPublicShareCompressed (src : Bytes) : Outcome Bytes := do
  let p ← parseKeyBlobAnyVersion src
  p.1.selfQi

/-- `detach_private_scalar`: the public blob and the scalar. -/
def detachPrivateScalar (src : Bytes) : Outcome (Bytes × Bytes) := do
  let p ← parseKeyBlobAnyVersion src
  require (isInRange (F p.2).q p.1.xShare) .format
  require (decide (0 < getBinSize (F p.2).q)) .general
  let scalar ← toBin p.1.xShare (getBinSize (F p.2).q)
  let out ← KeyBlob.convert garbage { p.1 with xShare := 0 }
  .ok (out, scalar)

def attachPrivateScalar (src scalar publicShare : Bytes) : Outcome Bytes := do
  let p ← parseKeyBlobAnyVersion src
  require (decide (0 < getBinSize (F p.2).q)) .general
  validateMemArg scalar
  require (decide (scalar.length = getBinSize (F p.2).q)) .badArg
  validateMemArg publicShare
  let Qi ← p.1.selfQi
  require (decide (publicShare = Qi)) .badArg
  let P ← (F p.2).fromBin Qi
  let P ← curveCheck false (.on P)
  let x ← modReduce (F p.2).q (fromBin scalar)
  require (isInRange (F p.2).q x) .format
  let X ← (F p.2).curve.mulToGenerator x
  require (decide (X = P)) .format
  KeyBlob.convert garbage { p.1 with xShare := x }

end Api

section Bytes

theorem length_encLen_le (len : ℕ) : (encLen len).length ≤ 4 := by
  unfold encLen
  split
  · simp
  · split
    · simp
    · split <;> simp

theorem length_encBn_le (x : ℤ) : (encBn x).length ≤ 4 + getBinSize x := by
  have hlen := length_encLen_le
  simp only [encBn, List.length_append, length_binPad]
  gcongr
  exact hlen _

theorem length_flatMap_le {α : Type} {f : α → Bytes} {l : List α} {k : ℕ}
    (h : ∀ a ∈ l, (f a).length ≤ k) :
    (l.flatMap f).length ≤ l.length * k := by
  rw [List.length_flatMap]
  have hsum := List.sum_le_card_nsmul (l.map fun a => (f a).length) k fun n hn => by
    obtain ⟨a, ha, rfl⟩ := List.mem_map.mp hn
    exact h a ha
  simpa using hsum

namespace KeyBlob

variable {blob : KeyBlob}

/-- The bytes before the share. -/
def head (blob : KeyBlob) : Bytes :=
  encUint blob.version ++ encUint blob.curve ++ encString blob.partyName ++
    encBuf blob.QCompressed ++
    encMap encString encBuf blob.QisCompressed.entries

theorem bytes_eq (blob : KeyBlob) : blob.bytes = blob.head ++ encBn blob.xShare := by
  simp only [head, List.append_assoc]
  rfl

theorem bytes_ne_nil (blob : KeyBlob) : blob.bytes ≠ [] := by
  apply List.ne_nil_of_length_pos
  rw [bytes_eq, head]
  simp only [encUint, List.length_append, length_binPad, IntWidth.bytes]
  omega

theorem Sized.withShare (h : blob.Sized) {x : ℤ} (hx : getBinSize x ≤ 66) :
    Sized { blob with xShare := x } :=
  ⟨h.partyName, h.QCompressed, h.size, h.entry, hx⟩

theorem Sized.fits (h : blob.Sized) : Fits nameOrder keyBlobTy blob.val := by
  have hsmall : 66 ≤ maxSerializedBignumBytes := by decide
  have hcount : 64 ≤ maxContainerElements := by decide
  have hbuf : 67 ≤ maxConvertLen := by decide
  have hsorted : SortedKeys (nameOrder.less .string) blob.QisCompressed.entries :=
    blob.QisCompressed.sorted.imp fun hlt => decide_eq_true hlt
  refine ⟨trivial, trivial, h.partyName, h.QCompressed, ⟨h.size.trans hcount, hsorted, ?_⟩,
    h.xShare.trans hsmall⟩
  exact List.forall_iff_forall_mem.mpr fun e he => ⟨(h.entry e he).1, (h.entry e he).2.trans hbuf⟩

theorem Sized.length_bytes (h : blob.Sized) : blob.bytes.length ≤ intMax := by
  have hname := h.partyName
  have hQ := h.QCompressed
  have hx := h.xShare
  have hsize := h.size
  have hentries : (blob.QisCompressed.entries.flatMap fun e => encString e.1 ++ encBuf e.2).length ≤
      blob.QisCompressed.entries.length * (shrtMax + 73) := by
    refine length_flatMap_le fun e he => ?_
    have he := h.entry e he
    have hlen := length_encLen_le e.2.length
    simp only [encString, encBuf, List.length_append, length_binPad]
    omega
  have hmul : blob.QisCompressed.entries.length * (shrtMax + 73) ≤ 64 * (shrtMax + 73) :=
    Nat.mul_le_mul_right _ hsize
  have hlens := length_encLen_le
  have hQlen := hlens blob.QCompressed.length
  have hclen := hlens blob.QisCompressed.entries.length
  have hbn := length_encBn_le blob.xShare
  have hbytes : blob.bytes.length = 4 + 4 + (2 + blob.partyName.length) +
      ((encLen blob.QCompressed.length).length +
      blob.QCompressed.length) + ((encLen blob.QisCompressed.entries.length).length +
      (blob.QisCompressed.entries.flatMap fun e => encString e.1 ++ encBuf e.2).length) +
        (encBn blob.xShare).length := by
    rw [bytes_eq, head]
    simp only [encUint, encString, encBuf, encMap, List.length_append, length_binPad,
      IntWidth.bytes]
  have hshrt : shrtMax = 32767 := rfl
  have hconv : maxConvertLen = 67108864 := rfl
  have hint : intMax = 2147483647 := rfl
  omega

theorem Sized.convert_eq (h : blob.Sized) (garbage : ℕ → Fin 256) :
    blob.convert garbage = .ok blob.bytes := by
  rw [convert, ser_eq (writes_write h.fits)]
  exact if_pos h.length_bytes

theorem ofVal_val (blob : KeyBlob) : ofVal blob.val = blob := by
  obtain ⟨version, curve, partyName, Q, Qis, x⟩ := blob
  simp only [val, ofVal, OrderedMap.ofEntries_entries]

theorem Sized.parse_bytes (h : blob.Sized) : parse blob.bytes = .ok blob := by
  rw [parse, bytes, convertFrom_eq (decodes_read h.fits) h.length_bytes, ok_bind, ofVal_val]

end KeyBlob

end Bytes

/-- What the deserializers test of a key share. -/
structure ConsistentShare {q : ℕ} {E : Type} [AddCommGroup E]
    [Module (ZMod q) E] (curve : Curve q E) (names : List PName) (key : KeyShareMp q E) : Prop where
  curve_eq : key.curve = curve
  nodup : names.Nodup
  nonempty : [] ∉ names
  count : names.length ≤ 64
  self_mem : key.partyName ∈ names
  find_isSome : ∀ name, (key.Qis.find name).isSome = true ↔ name ∈ names
  range : isInRange q key.xShare = true
  self : key.Qis.find key.partyName = some ((key.xShare : ZMod q) • curve.generator)

/-- A job of the listed parties, in any order, at the party with the given name. -/
structure ApiJob.IsOf (job : ApiJob) (names : List PName) (name : PName) : Prop where
  perm : job.partyNames.Perm names
  inRange : job.SelfInRange
  selfName : job.selfName = name

section RoundTrip

variable {F : CurveId → CurveBackend}

/-- A key within the limits of the conversions: no name is too long, and no point is an infinity
that `from_bin` refuses. -/
structure ApiKey.Representable (names : List PName) (key : ApiKey F) : Prop where
  curve_ne : key.curve ≠ .ed25519
  name_length : ∀ name ∈ names, name.length ≤ shrtMax
  Q : (F key.curve).Encodable key.share.Q
  Qi : ∀ name P, key.share.Qis.find name = some P → (F key.curve).Encodable P

/-- The blob of a key. -/
def ApiKey.blob (additive : Bool) (key : ApiKey F) : KeyBlob where
  version := blobVersion additive
  curve := key.curve.code
  partyName := key.share.partyName
  QCompressed := (F key.curve).toCompressedBin key.share.Q
  QisCompressed := key.share.Qis.mapValues (F key.curve).toCompressedBin
  xShare := key.share.xShare

variable {names : List PName} {key : ApiKey F} {additive : Bool} {job : ApiJob}

theorem foldlM_insert {V : Type} {f : PName → Outcome V} {g : PName → V} {l : List PName}
    (m : OrderedMap PName V) (h : ∀ name ∈ l, f name = .ok (g name)) :
    l.foldlM (fun m name => do
      let v ← f name
      .ok (m.insert name v)) m = .ok (m.insertAll g l) := by
  induction l generalizing m with
  | nil => rfl
  | cons name l ih =>
    rw [List.foldlM_cons, h name (by simp), ok_bind, ok_bind, ih _ fun n hn => h n (by simp [hn])]
    rfl

theorem eq_ofKeys {V : Type} {m : OrderedMap PName V} {g : PName → V} {l : List PName}
    (hkeys : ∀ name, (m.find name).isSome = true ↔ name ∈ l)
    (hg : ∀ name v, m.find name = some v → g name = v) :
    OrderedMap.ofKeys g l = m := by
  refine OrderedMap.ext_find fun name => ?_
  rw [OrderedMap.find_ofKeys]
  by_cases hname : name ∈ l
  · obtain ⟨v, hv⟩ := Option.isSome_iff_exists.mp ((hkeys name).mpr hname)
    rw [if_pos hname, hv, hg name v hv]
  · rw [if_neg hname]
    exact (Option.not_isSome_iff_eq_none.mp fun h => hname ((hkeys name).mp h)).symm

theorem compressQis_eq (hkey : ConsistentShare (F key.curve).curve names key.share)
    {l : List PName} (hl : l.Perm names) :
    compressQis l key = .ok (key.share.Qis.mapValues (F key.curve).toCompressedBin) := by
  have hfind : ∀ name ∈ l, (match key.share.Qis.find name with
      | none => fail .format
      | some P => .ok ((F key.curve).toCompressedBin P)) =
      .ok ((F key.curve).toCompressedBin ((key.share.Qis.find name).getD 0)) := by
    intro name hname
    obtain ⟨P, hP⟩ := Option.isSome_iff_exists.mp
      ((hkey.find_isSome name).mpr (hl.mem_iff.mp hname))
    rw [hP]
    rfl
  have hloop := foldlM_insert .empty hfind
  have hmap : OrderedMap.ofKeys (fun name =>
      (F key.curve).toCompressedBin ((key.share.Qis.find name).getD 0)) l =
      key.share.Qis.mapValues (F key.curve).toCompressedBin := by
    refine eq_ofKeys (fun name => ?_) fun name v hv => ?_
    · rw [OrderedMap.find_mapValues, Option.isSome_map, hkey.find_isSome, hl.mem_iff]
    · rw [OrderedMap.find_mapValues] at hv
      obtain ⟨P, hP, rfl⟩ := Option.map_eq_some_iff.mp hv
      rw [hP, Option.getD_some]
  rw [← hmap, OrderedMap.ofKeys, ← hloop, compressQis]
  refine congrArg (fun f => l.foldlM f OrderedMap.empty) (funext fun m => funext fun name => ?_)
  cases key.share.Qis.find name <;> rfl

theorem getBinSize_le_of_isInRange {B : CurveBackend} {x : ℤ} (h : isInRange B.q x = true) :
    getBinSize x ≤ getBinSize B.q := by
  obtain ⟨h0, hx⟩ := (isInRange_iff x).mp h
  obtain ⟨v, rfl⟩ := Int.eq_ofNat_of_zero_le h0
  exact getBinSize_le_of_lt (by exact_mod_cast hx)

theorem getBinSize_order_le (B : CurveBackend) : getBinSize B.q ≤ 66 := by
  have hsize := B.order_size
  rw [getBinSize, Int.natAbs_natCast, bitsToBytes]
  omega

theorem ApiKey.Representable.sized (h : key.Representable names)
    (hkey : ConsistentShare (F key.curve).curve names key.share) :
    (key.blob additive).Sized where
  partyName := h.name_length _ hkey.self_mem
  QCompressed := by
    have hsize := (F key.curve).size_le
    have hconv : maxConvertLen = 67108864 := rfl
    change ((F key.curve).toCompressedBin key.share.Q).length ≤ _
    rw [CurveBackend.length_toCompressedBin]
    omega
  size := by
    have hperm : key.share.Qis.size = names.length :=
      OrderedMap.size_of_find id names (by simpa using hkey.nodup)
      fun name => by simpa using hkey.find_isSome name
    change (key.share.Qis.entries.map _).length ≤ 64
    rw [List.length_map]
    exact hperm.trans_le hkey.count
  entry e he := by
    obtain ⟨⟨name, P⟩, hmem, rfl⟩ := List.mem_map.mp he
    have hname : name ∈ names := (hkey.find_isSome name).mp (by
      rw [(key.share.Qis.mem_entries_iff name P).mp hmem, Option.isSome_some])
    refine ⟨h.name_length name hname, ?_⟩
    have hsize := (F key.curve).size_le
    rw [CurveBackend.length_toCompressedBin]
    omega
  xShare := (getBinSize_le_of_isInRange hkey.range).trans (getBinSize_order_le _)

/-- The bytes of a key do not depend on the order of the parties. -/
theorem serializeBlob_eq (garbage : ℕ → Fin 256) (h : key.Representable names)
    (hkey : ConsistentShare (F key.curve).curve names key.share)
    (hjob : job.IsOf names key.share.partyName) :
    serializeBlob garbage additive job key = .ok (key.blob additive).bytes := by
  have hself : job.selfName ∈ job.partyNames := by
    rw [hjob.selfName, hjob.perm.mem_iff]
    exact hkey.self_mem
  rw [serializeBlob, decide_eq_true hjob.inRange, require_true, ok_bind,
    serializeKeyBlobForPartyNames, decide_eq_true h.curve_ne, require_true, ok_bind,
    decide_eq_true hself, require_true, ok_bind, decide_eq_true hjob.selfName.symm, require_true,
    ok_bind, compressQis_eq hkey hjob.perm, ok_bind]
  exact (h.sized hkey).convert_eq garbage

theorem loadQis_eq {B : CurveBackend} {Qis : OrderedMap PName B.E}
    (h : ∀ name P, Qis.find name = some P → B.Encodable P) {l : List PName}
    (hl : ∀ name, (Qis.find name).isSome = true ↔ name ∈ l) :
    loadQis B (l.map fun name => (name, ((Qis.mapValues B.toCompressedBin).find name).getD [])) =
      .ok Qis := by
  have hdecode : ∀ name ∈ l, B.fromBin (((Qis.mapValues B.toCompressedBin).find name).getD []) =
      .ok ((Qis.find name).getD 0) := by
    intro name hname
    obtain ⟨P, hP⟩ := Option.isSome_iff_exists.mp ((hl name).mpr hname)
    rw [OrderedMap.find_mapValues, hP]
    exact CurveBackend.fromBin_toCompressedBin (h name P hP)
  rw [loadQis, List.foldlM_map, foldlM_insert .empty hdecode]
  exact congrArg Except.ok (eq_ofKeys hl fun name P hP => by rw [hP, Option.getD_some])

theorem loadKey_eq (h : key.Representable names)
    (hkey : ConsistentShare (F key.curve).curve names key.share)
    (hsum : additive = true → key.share.Q = key.share.Qis.values.sum)
    {entries : List (PName × Bytes)}
    (hentries : loadQis (F key.curve) entries = .ok key.share.Qis) :
    loadKey F additive (key.blob additive) entries = .ok key := by
  have hcheck : (!additive || decide (key.share.Q = key.share.Qis.values.sum)) = true := by
    cases additive with
    | false => rfl
    | true => exact decide_eq_true (hsum rfl)
  have hX := mulToGenerator_of_isInRange (F key.curve).curve hkey.range
  obtain ⟨c, ⟨x, Q, Qis, curve, name⟩, hcurve⟩ := key
  have hrange := hkey.range
  have hself := hkey.self
  have hQ := h.Q
  simp only at hcurve hrange hself hQ hentries hcheck hX
  subst hcurve
  rw [loadKey]
  simp only [ApiKey.blob, blobCurve_code h.curve_ne, ok_bind, hrange, require_true,
    CurveBackend.fromBin_toCompressedBin hQ, hentries, hcheck, hself, hX, decide_true]

/-- A blob is read back with a job that lists the parties in any order. -/
theorem deserializeBlob_eq (h : key.Representable names)
    (hkey : ConsistentShare (F key.curve).curve names key.share)
    (hsum : additive = true → key.share.Q = key.share.Qis.values.sum)
    (hjob : job.IsOf names key.share.partyName) :
    deserializeBlob F additive job (key.blob additive).bytes = .ok key := by
  have hname : key.share.partyName ≠ [] := fun he => hkey.nonempty (he ▸ hkey.self_mem)
  have hfind : ∀ name, ((key.blob additive).QisCompressed.find name).isSome = true ↔
      name ∈ job.partyNames := by
    intro name
    rw [hjob.perm.mem_iff, ← hkey.find_isSome name]
    change ((key.share.Qis.mapValues _).find name).isSome = true ↔ _
    rw [OrderedMap.find_mapValues, Option.isSome_map]
  have hsize : job.partyNames.length = (key.blob additive).QisCompressed.size := by
    have hnd : (job.partyNames.map id).Nodup := by
      rw [List.map_id]
      exact hjob.perm.nodup_iff.mpr hkey.nodup
    exact (OrderedMap.size_of_find id job.partyNames hnd fun name => by simpa using hfind name).symm
  have hall : forEach (fun name =>
      require ((key.blob additive).QisCompressed.find name).isSome .badArg) job.partyNames =
      .ok () := forEach_ok_iff.mpr fun name hmem => by rw [(hfind name).mpr hmem, require_true]
  rw [deserializeBlob, decide_eq_true hjob.inRange, require_true, ok_bind,
    (h.sized hkey).parse_bytes, ok_bind,
    decide_eq_true (show (key.blob additive).version = blobVersion additive from rfl),
    require_true, ok_bind, decide_eq_true (show (key.blob additive).partyName ≠ [] from hname),
    require_true, ok_bind,
    decide_eq_true (show (key.blob additive).partyName = job.selfName from hjob.selfName.symm),
    require_true, ok_bind, decide_eq_true hsize, require_true, ok_bind, hall, ok_bind]
  refine loadKey_eq h hkey hsum (loadQis_eq h.Qi fun name => ?_)
  rw [hkey.find_isSome, hjob.perm.mem_iff]

end RoundTrip

end CbMpc
