import CbMpc.Converter
import CbMpc.Curve
import CbMpc.AccessTree

/-!
# Conversions of single values

The overloads of `converter_t::convert` for integers, strings, byte and bit
buffers, big numbers, moduli, curves and points. Each comes with the bytes it stands
for: it writes them, it reads the value back from them, and its reading mode is
safe on any other input.
-/
namespace CbMpc

open ReadM WriteM

/-- `SHRT_MAX`. -/
def shrtMax : ℕ := 32767

/-- `MAX_CONVERT_LEN`. -/
def maxConvertLen : ℕ := 67108864

/-- `MAX_CONTAINER_ELEMENTS`. -/
def maxContainerElements : ℕ := 1048576

/-- `bn_t::MAX_SERIALIZED_BIGNUM_BYTES`. -/
def maxSerializedBignumBytes : ℕ := 1048576

inductive IntWidth where
  | w8 | w16 | w32 | w64
  deriving DecidableEq, Repr

def IntWidth.bytes : IntWidth → ℕ
  | w8 => 1
  | w16 => 2
  | w32 => 4
  | w64 => 8

/-- An integer of either signedness; the signed overloads convert the unsigned value of the same
bits. -/
abbrev Word (w : IntWidth) := BitVec (8 * w.bytes)

def encUint {w : IntWidth} (v : Word w) : List Octet := binPad w.bytes v.toNat

/-- `convert(uintN_t&)`. -/
def writeUint {w : IntWidth} (v : Word w) : WriteM Unit := put (encUint v)

def readUint (w : IntWidth) : ReadM (Word w) := do
  match ← fetch w.bytes with
  | some bytes => return BitVec.ofNat _ (fromBin bytes)
  | none => return 0

/-- `convert(bool&)`. -/
def writeBool (v : Bool) : WriteM Unit := writeUint (if v then 1 else 0 : Word .w8)

def readBool : ReadM Bool := do
  let v ← readUint .w8
  return decide (v ≠ 0)

/-- `convert(byte_t&)` on the low byte of a number. -/
def writeByte (n : ℕ) : WriteM Unit := put [Fin.ofNat 256 n]

def readByte : ReadM ℕ := do
  let b ← readUint .w8
  return b.toNat

/-- `convert_len`. -/
def writeLen (len : ℕ) : WriteM Unit := do
  assert (decide (len ≤ maxConvertLen))
  if len ≤ 0x7f then
    writeByte len
  else if len ≤ 0x3fff then do
    writeByte (len / 2 ^ 8 + 0x80)
    writeByte len
  else if len ≤ 0x1fffff then do
    writeByte (len / 2 ^ 16 + 0xc0)
    writeByte (len / 2 ^ 8)
    writeByte len
  else do
    writeByte (len / 2 ^ 24 + 0xe0)
    writeByte (len / 2 ^ 16)
    writeByte (len / 2 ^ 8)
    writeByte len

/-- How every branch of `convert_len` ends. -/
def checkLen (len : ℕ) : ReadM ℕ := do
  if ← isError then
    return 0
  else if maxConvertLen < len then
    setError .format
    return 0
  else
    return len

/-- The bits of the first byte that are tested or kept do not overlap the marker above them. -/
def readLen : ReadM ℕ := do
  let b ← readByte
  if ← isError then
    return 0
  else if b / 0x80 % 2 = 0 then
    checkLen b
  else if b / 0x40 % 2 = 0 then do
    let b₁ ← readByte
    checkLen (b % 0x40 * 2 ^ 8 + b₁)
  else if b / 0x20 % 2 = 0 then do
    let b₁ ← readByte
    let b₂ ← readByte
    checkLen ((b % 0x20 * 2 ^ 8 + b₁) * 2 ^ 8 + b₂)
  else do
    let b₁ ← readByte
    let b₂ ← readByte
    let b₃ ← readByte
    checkLen (((b % 0x20 * 2 ^ 8 + b₁) * 2 ^ 8 + b₂) * 2 ^ 8 + b₃)

/-- `convert(std::string&)`, whose length is a `short`. -/
def writeString (v : List Octet) : WriteM Unit := do
  assert (decide (v.length ≤ shrtMax))
  writeUint (BitVec.ofNat _ v.length : Word .w16)
  put v

def readString : ReadM (List Octet) := do
  let size ← readUint .w16
  if size.toInt < 0 then
    setError .format
    return []
  else
    match ← fetch size.toInt.toNat with
    | some bytes => return bytes
    | none => return []

/-- `buf_t::convert`. -/
def writeBuf (v : List Octet) : WriteM Unit := do
  writeLen v.length
  put v

def readBuf : ReadM (List Octet) := do
  let size ← readLen
  if intMax < size then
    setError .format
    return []
  else
    match ← fetch size with
    | some bytes => return bytes
    | none => return []

/-- The bytes of a `bits_t`, with its unused bits cleared. -/
def packBits (v : List Bool) : List Octet :=
  (List.range (bitsToBytes v.length)).map fun k =>
    Fin.ofNat 256 (Nat.ofBits fun j : Fin 8 => v.getD (8 * k + j) false)

def unpackBits (count : ℕ) (bytes : List Octet) : List Bool :=
  (List.range count).map fun i => (bytes.getD (i / 8) 0).val.testBit (i % 8)

/-- `bits_t::convert`. -/
def writeBits (v : List Bool) : WriteM Unit := do
  writeLen v.length
  put (packBits v)

/-- Here only `at_least` is asked for: after an error the length is 0. -/
def readBitsData (count : ℕ) : ReadM (List Bool) := do
  if ← ensure (bitsToBytes count) then
    let bytes ← current (bitsToBytes count)
    forward (bitsToBytes count)
    return unpackBits count bytes
  else
    return []

def readBits : ReadM (List Bool) := do
  let count ← readLen
  readBitsData count

/-- `buf128_t::convert`, `buf256_t::convert` and `bn256_t::convert`, by the number of their
bytes. -/
def writeFixed (v : List Octet) : WriteM Unit := put v

def readFixed (n : ℕ) : ReadM (List Octet) := do
  match ← fetch n with
  | some bytes => return bytes
  | none => return List.replicate n 0

/-- `bn_t::convert`. -/
def writeBn (v : ℤ) : WriteM Unit := do
  assert (decide (getBinSize v ≤ maxSerializedBignumBytes))
  writeLen (2 * getBinSize v + if v < 0 then 1 else 0)
  put (binPad (getBinSize v) v.natAbs)

def readBn : ReadM ℤ := do
  let header ← readLen
  if maxSerializedBignumBytes < header / 2 ∨ intMax < header / 2 then
    setError .format
    return 0
  else
    match ← fetch (header / 2) with
    | none => return 0
    | some bytes =>
      if header / 2 = 0 ∧ header % 2 = 1 then do
        setError .format
        return 0
      else
        return if header % 2 = 1 then -(fromBin bytes : ℤ) else fromBin bytes

/-- `mod_t::is_valid_modulus`. -/
def isValidModulus (m : ℤ) : Bool := decide (1 < m ∧ m.natAbs.size ≤ maxModulusBits ∧ m % 2 = 1)

/-- `mod_t::convert`. -/
def writeMod (m : ℤ) : WriteM Unit := writeBn m

def readMod : ReadM ℤ := do
  let m ← readBn
  if ← isError then
    return m
  else if isValidModulus m then
    -- `init`
    ReadM.assert (decide (m.natAbs.size ≤ maxModulusBits))
    return m
  else
    setError .format
    return m

/-- The curves that `ecurve_t::find` knows by their codes, and their point encodings; `fromBin`
stands for `from_bin` and `check`. -/
structure CurveTable where
  Curve : Type
  code : Curve → Word .w16
  find : Word .w16 → Option Curve
  code_ne_zero : ∀ c, code c ≠ 0
  find_code : ∀ c, find (code c) = some c
  Point : Type
  pointSize : Curve → ℕ
  toBin : Curve → Point → List Octet
  fromBin : Curve → List Octet → Except ErrorCode Point
  length_toBin : ∀ c P, (toBin c P).length = pointSize c

section Curves

variable (L : CurveTable)

/-- `ecurve_t::convert`, where `none` is the null pointer. -/
def writeCurve (c : Option L.Curve) : WriteM Unit := do
  let code := (c.map L.code).getD 0
  writeUint code
  if ← isError then
    return
  else if code = 0 then
    return
  else
    match L.find code with
    | none => setError .format
    | some _ => return

def readCurve : ReadM (Option L.Curve) := do
  let code ← readUint .w16
  if ← isError then
    return none
  else if code = 0 then
    setError .format
    return none
  else
    match L.find code with
    | none => do
      setError .format
      return none
    | some c => return some c

/-- `ecc_point_t::convert`, where `none` is a point without a curve. -/
def writePoint (P : Option (L.Curve × L.Point)) : WriteM Unit := do
  writeCurve L (P.map Prod.fst)
  if ← isError then
    return
  else
    match P with
    | none => return
    | some (c, P) => put (L.toBin c P)

def readPoint : ReadM (Option (L.Curve × L.Point)) := do
  let c ← readCurve L
  if ← isError then
    return none
  else
    match c with
    | none => return none
    | some c =>
      match ← checked (L.pointSize c) (L.fromBin c) with
      | none => return none
      | some P => return some (c, P)

end Curves

/-- The bytes of a length prefix. -/
def encLen (len : ℕ) : List Octet :=
  if len ≤ 0x7f then [Fin.ofNat 256 len]
  else if len ≤ 0x3fff then [Fin.ofNat 256 (len / 2 ^ 8 + 0x80), Fin.ofNat 256 len]
  else if len ≤ 0x1fffff then
    [Fin.ofNat 256 (len / 2 ^ 16 + 0xc0), Fin.ofNat 256 (len / 2 ^ 8), Fin.ofNat 256 len]
  else
    [Fin.ofNat 256 (len / 2 ^ 24 + 0xe0), Fin.ofNat 256 (len / 2 ^ 16), Fin.ofNat 256 (len / 2 ^ 8),
      Fin.ofNat 256 len]

def encString (v : List Octet) : List Octet := binPad 2 v.length ++ v

def encBuf (v : List Octet) : List Octet := encLen v.length ++ v

def encBits (v : List Bool) : List Octet := encLen v.length ++ packBits v

def encBn (v : ℤ) : List Octet :=
  encLen (2 * getBinSize v + if v < 0 then 1 else 0) ++ binPad (getBinSize v) v.natAbs

/-- The two properties of reading untrusted bytes. -/
structure Sound {α : Type} (x : ReadM α) : Prop where
  safe : Safe x
  stable : Stable x

section Sound

variable {α β : Type}

theorem Sound.pure (a : α) : Sound (pure a : ReadM α) := ⟨.pure a, .pure a⟩

theorem Sound.bind {x : ReadM α} {f : α → ReadM β} (hx : Sound x)
    (hf : ∀ a, Sound (f a)) : Sound (x >>= f) :=
  ⟨hx.safe.bind fun a => (hf a).safe, hx.stable.bind fun a => (hf a).stable⟩

theorem Sound.ite {c : Prop} [Decidable c] {x y : ReadM α} (hx : Sound x) (hy : Sound y) :
    Sound (if c then x else y) := ⟨hx.safe.ite hy.safe, hx.stable.ite hy.stable⟩

theorem sound_isError : Sound isError := ⟨safe_isError, stable_isError⟩

theorem sound_setError (rv : ErrorCode) (a : α) : Sound (setError rv >>= fun _ => pure a) :=
  ⟨(safe_setError rv).bind fun _ => .pure a, (stable_setError rv).bind fun _ => .pure a⟩

theorem sound_checked (n : ℕ) (f : List Octet → Except ErrorCode α) : Sound (checked n f) :=
  ⟨safe_checked n f, stable_checked n f⟩

theorem sound_fetch (n : ℕ) : Sound (fetch n) := sound_checked n .ok

theorem Sound.forAll {x : ReadM α} (hx : Sound x) (n : ℕ) : Sound (forAll x n) :=
  ⟨hx.safe.forAll n, hx.stable.forAll n⟩

theorem Sound.whileNoError {x : ReadM α} (hx : Sound x) (n : ℕ) : Sound (whileNoError x n) :=
  ⟨hx.safe.whileNoError n, hx.stable.whileNoError n⟩

theorem sound_readUint (w : IntWidth) : Sound (readUint w) := by
  refine (sound_fetch w.bytes).bind fun o => ?_
  cases o with
  | none => exact .pure 0
  | some bytes => exact .pure _

theorem sound_readBool : Sound readBool := (sound_readUint .w8).bind fun _ => .pure _

theorem sound_readByte : Sound readByte := (sound_readUint .w8).bind fun _ => .pure _

theorem sound_checkLen (len : ℕ) : Sound (checkLen len) :=
  sound_isError.bind fun _ => .ite (.pure 0) (.ite (sound_setError .format 0) (.pure len))

theorem sound_readLen : Sound readLen :=
  sound_readByte.bind fun b => sound_isError.bind fun _ => .ite (.pure 0) (.ite (sound_checkLen b)
    (.ite (sound_readByte.bind fun _ => sound_checkLen _)
      (.ite (sound_readByte.bind fun _ => sound_readByte.bind fun _ => sound_checkLen _)
        (sound_readByte.bind fun _ => sound_readByte.bind fun _ =>
          sound_readByte.bind fun _ => sound_checkLen _))))

theorem sound_readString : Sound readString := by
  refine (sound_readUint .w16).bind fun size =>
    .ite (sound_setError .format []) ((sound_fetch _).bind fun o => ?_)
  cases o with
  | none => exact .pure []
  | some bytes => exact .pure bytes

theorem sound_readBuf : Sound readBuf := by
  refine sound_readLen.bind fun size =>
    .ite (sound_setError .format []) ((sound_fetch _).bind fun o => ?_)
  cases o with
  | none => exact .pure []
  | some bytes => exact .pure bytes

theorem sound_readFixed (n : ℕ) : Sound (readFixed n) := by
  refine (sound_fetch n).bind fun o => ?_
  cases o with
  | none => exact .pure _
  | some bytes => exact .pure bytes

theorem checkLen_zero {len n : ℕ} {r r' : Reader} (h : checkLen len r = .ok (n, r'))
    (he : r'.error.isSome = true) :
    n = 0 := by
  unfold checkLen at h
  rw [ReadM.bind_apply, ReadM.isError_apply, ok_bind] at h
  by_cases hr : r.error.isSome = true
  · simp only [hr, if_true] at h
    cases h
    rfl
  · simp only [hr, Bool.false_eq_true, if_false] at h
    by_cases hmax : maxConvertLen < len
    · rw [if_pos hmax] at h
      cases h
      rfl
    · rw [if_neg hmax] at h
      cases h
      exact absurd he hr

/-- After an error the length is 0. -/
theorem readLen_zero {n : ℕ} {r r' : Reader} (h : readLen r = .ok (n, r'))
    (he : r'.error.isSome = true) : n = 0 := by
  unfold readLen at h
  rw [ReadM.bind_apply] at h
  obtain ⟨⟨b, r₁⟩, -, h⟩ := bind_ok_iff.mp h
  rw [ReadM.bind_apply, ReadM.isError_apply, ok_bind] at h
  simp only at h
  split at h
  · cases h
    rfl
  · split at h
    · exact checkLen_zero h he
    · split at h
      · rw [ReadM.bind_apply] at h
        obtain ⟨⟨b₁, r₂⟩, -, h⟩ := bind_ok_iff.mp h
        exact checkLen_zero h he
      · split at h
        · rw [ReadM.bind_apply] at h
          obtain ⟨⟨b₁, r₂⟩, -, h⟩ := bind_ok_iff.mp h
          rw [ReadM.bind_apply] at h
          obtain ⟨⟨b₂, r₃⟩, -, h⟩ := bind_ok_iff.mp h
          exact checkLen_zero h he
        · rw [ReadM.bind_apply] at h
          obtain ⟨⟨b₁, r₂⟩, -, h⟩ := bind_ok_iff.mp h
          rw [ReadM.bind_apply] at h
          obtain ⟨⟨b₂, r₃⟩, -, h⟩ := bind_ok_iff.mp h
          rw [ReadM.bind_apply] at h
          obtain ⟨⟨b₃, r₄⟩, -, h⟩ := bind_ok_iff.mp h
          exact checkLen_zero h he

theorem readBitsData_apply {count : ℕ} {r : Reader} (hr : r.Inside)
    (hn : bitsToBytes count ≤ r.src.length - r.offset) :
    readBitsData count r = .ok (unpackBits count ((r.src.drop r.offset).take (bitsToBytes count)),
      { r with offset := r.offset + bitsToBytes count }) := by
  have hle := hr.offset_le
  have hlen := hr.length_le
  unfold readBitsData
  rw [ReadM.bind_apply, ensure_apply, if_pos ⟨hle, hn⟩]
  simp only [ok_bind, if_true]
  rw [ReadM.bind_apply, current_apply (by omega)]
  simp only [ok_bind]
  rw [ReadM.bind_apply, forward_apply (by omega)]
  rfl

theorem sound_readBits : Sound readBits where
  safe := by
    intro r hr
    obtain ⟨count, r', hlen, hreach, hr'⟩ := sound_readLen.safe r hr
    have happly : readBits r = readBitsData count r' := by
      unfold readBits
      rw [ReadM.bind_apply, hlen, ok_bind]
    rw [happly]
    have hle := hr'.offset_le
    by_cases hn : bitsToBytes count ≤ r'.src.length - r'.offset
    · rw [readBitsData_apply hr' hn]
      refine ⟨_, _, rfl, hreach.trans ⟨rfl, Nat.le_add_right _ _, fun he => ?_⟩, ?_, hr'.length_le⟩
      · have hzero : count = 0 := readLen_zero hlen he
        subst hzero
        rfl
      · show r'.offset + bitsToBytes count ≤ r'.src.length
        omega
    · refine ⟨[], r'.setError .format, ?_, hreach.trans (r'.reaches_setError .format),
        hr'.setError .format⟩
      unfold readBitsData
      rw [ReadM.bind_apply, ensure_apply, if_neg (fun hand => hn hand.2)]
      rfl
  stable := sound_readLen.stable.bind fun count => (stable_ensure _).bind fun _ =>
    .ite ((stable_current _).bind fun _ => (stable_forward _).bind fun _ => .pure _) (.pure [])

theorem sound_readBn : Sound readBn := by
  refine sound_readLen.bind fun header =>
    .ite (sound_setError .format 0) ((sound_fetch _).bind fun o => ?_)
  cases o with
  | none => exact .pure 0
  | some bytes => exact .ite (sound_setError .format 0) (.pure _)

theorem sound_readMod : Sound readMod := by
  refine sound_readBn.bind fun m => sound_isError.bind fun _ => .ite (.pure m) ?_
  by_cases h : isValidModulus m = true
  · rw [if_pos h]
    have hbits : decide (m.natAbs.size ≤ maxModulusBits) = true :=
      decide_eq_true (of_decide_eq_true h).2.1
    exact ⟨(safe_assert hbits).bind fun _ => .pure m, (stable_assert _).bind fun _ => .pure m⟩
  · rw [if_neg h]
    exact sound_setError .format m

variable (L : CurveTable)

theorem sound_readCurve : Sound (readCurve L) := by
  refine (sound_readUint .w16).bind fun code => sound_isError.bind fun _ => .ite (.pure none)
    (.ite (sound_setError .format none) ?_)
  cases L.find code with
  | none => exact sound_setError .format none
  | some c => exact .pure (some c)

theorem sound_readPoint : Sound (readPoint L) := by
  refine (sound_readCurve L).bind fun o => sound_isError.bind fun _ => .ite (.pure none) ?_
  cases o with
  | none => exact .pure none
  | some c =>
    refine (sound_checked _ _).bind fun o => ?_
    cases o with
    | none => exact .pure none
    | some P => exact .pure (some (c, P))

end Sound

section Codes

theorem decodes_readUint {w : IntWidth} (v : Word w) : Decodes (readUint w) (encUint v) v := by
  have hfetch := decodes_fetch (encUint v)
  rw [encUint, length_binPad, ← encUint] at hfetch
  have hv : v.toNat < 256 ^ w.bytes := by
    have := v.isLt
    rwa [pow_mul] at this
  have hvalue : BitVec.ofNat (8 * w.bytes) (fromBin (encUint v)) = v := by
    rw [encUint, fromBin_binPad hv, BitVec.ofNat_toNat, BitVec.setWidth_eq]
  refine hfetch.bind_end ?_
  simp only [hvalue]
  exact .pure v

theorem writes_writeUint {w : IntWidth} (v : Word w) :
    Writes (writeUint v) (encUint v) := writes_put _

theorem decodes_readBool (v : Bool) :
    Decodes readBool (encUint (if v then 1 else 0 : Word .w8)) v := by
  refine (decodes_readUint _).bind_end ?_
  cases v
  · exact .pure false
  · exact .pure true

theorem decodes_readByte (n : ℕ) : Decodes readByte [Fin.ofNat 256 n] (n % 256) := by
  have henc : encUint (BitVec.ofNat _ n : Word .w8) = [Fin.ofNat 256 n] := by
    simp only [encUint, IntWidth.bytes, binPad, List.nil_append, BitVec.toNat_ofNat]
    refine congrArg (fun b => [b]) (Fin.ext ?_)
    simp
  have h := decodes_readUint (BitVec.ofNat _ n : Word .w8)
  rw [henc] at h
  refine h.bind_end ?_
  rw [BitVec.toNat_ofNat]
  exact .pure _

theorem decodes_checkLen {len : ℕ} (h : len ≤ maxConvertLen) : Decodes (checkLen len) [] len := by
  refine .bind_nil decodes_isError ?_
  rw [if_neg Bool.false_ne_true, if_neg (by omega)]
  exact .pure len

theorem decodes_readLen {len : ℕ} (h : len ≤ maxConvertLen) : Decodes readLen (encLen len) len := by
  have hmax : maxConvertLen = 67108864 := rfl
  unfold encLen
  by_cases h1 : len ≤ 0x7f
  · rw [if_pos h1]
    refine (decodes_readByte len).bind_end (.bind_nil decodes_isError ?_)
    have hb : len % 256 / 0x80 % 2 = 0 := by omega
    have hlen : len % 256 = len := by omega
    rw [if_neg Bool.false_ne_true, if_pos hb, hlen]
    exact decodes_checkLen h
  · rw [if_neg h1]
    by_cases h2 : len ≤ 0x3fff
    · rw [if_pos h2]
      refine (decodes_readByte (len / 2 ^ 8 + 0x80)).bind (.bind_nil decodes_isError ?_)
      have hb : ¬ (len / 2 ^ 8 + 0x80) % 256 / 0x80 % 2 = 0 := by omega
      have hb' : (len / 2 ^ 8 + 0x80) % 256 / 0x40 % 2 = 0 := by omega
      have hlen : (len / 2 ^ 8 + 0x80) % 256 % 0x40 * 2 ^ 8 + len % 256 = len := by omega
      rw [if_neg Bool.false_ne_true, if_neg hb, if_pos hb']
      refine (decodes_readByte len).bind_end ?_
      rw [hlen]
      exact decodes_checkLen h
    · rw [if_neg h2]
      by_cases h3 : len ≤ 0x1fffff
      · rw [if_pos h3]
        refine (decodes_readByte (len / 2 ^ 16 + 0xc0)).bind (.bind_nil decodes_isError ?_)
        have hb : ¬ (len / 2 ^ 16 + 0xc0) % 256 / 0x80 % 2 = 0 := by omega
        have hb' : ¬ (len / 2 ^ 16 + 0xc0) % 256 / 0x40 % 2 = 0 := by omega
        have hb'' : (len / 2 ^ 16 + 0xc0) % 256 / 0x20 % 2 = 0 := by omega
        have hlen : ((len / 2 ^ 16 + 0xc0) % 256 % 0x20 * 2 ^ 8 + len / 2 ^ 8 % 256) *
            2 ^ 8 + len % 256 = len := by
          omega
        rw [if_neg Bool.false_ne_true, if_neg hb, if_neg hb', if_pos hb'']
        refine (decodes_readByte (len / 2 ^ 8)).bind ((decodes_readByte len).bind_end ?_)
        rw [hlen]
        exact decodes_checkLen h
      · rw [if_neg h3]
        refine (decodes_readByte (len / 2 ^ 24 + 0xe0)).bind (.bind_nil decodes_isError ?_)
        have hb : ¬ (len / 2 ^ 24 + 0xe0) % 256 / 0x80 % 2 = 0 := by omega
        have hb' : ¬ (len / 2 ^ 24 + 0xe0) % 256 / 0x40 % 2 = 0 := by omega
        have hb'' : ¬ (len / 2 ^ 24 + 0xe0) % 256 / 0x20 % 2 = 0 := by omega
        have hlen : (((len / 2 ^ 24 + 0xe0) % 256 % 0x20 * 2 ^ 8 + len / 2 ^ 16 % 256) * 2 ^ 8 +
            len / 2 ^ 8 % 256) * 2 ^ 8 + len % 256 = len := by omega
        rw [if_neg Bool.false_ne_true, if_neg hb, if_neg hb', if_neg hb'']
        refine (decodes_readByte (len / 2 ^ 16)).bind
          ((decodes_readByte (len / 2 ^ 8)).bind ((decodes_readByte len).bind_end ?_))
        rw [hlen]
        exact decodes_checkLen h

theorem writes_writeByte (n : ℕ) : Writes (writeByte n) [Fin.ofNat 256 n] := writes_put _

theorem writes_writeLen {len : ℕ} (h : len ≤ maxConvertLen) :
    Writes (writeLen len) (encLen len) := by
  refine .bind_nil (writes_assert (decide_eq_true h)) ?_
  unfold encLen
  by_cases h1 : len ≤ 0x7f
  · rw [if_pos h1, if_pos h1]
    exact writes_writeByte _
  · rw [if_neg h1, if_neg h1]
    by_cases h2 : len ≤ 0x3fff
    · rw [if_pos h2, if_pos h2]
      exact (writes_writeByte _).bind (writes_writeByte _)
    · rw [if_neg h2, if_neg h2]
      by_cases h3 : len ≤ 0x1fffff
      · rw [if_pos h3, if_pos h3]
        exact (writes_writeByte _).bind ((writes_writeByte _).bind (writes_writeByte _))
      · rw [if_neg h3, if_neg h3]
        exact (writes_writeByte _).bind
          ((writes_writeByte _).bind ((writes_writeByte _).bind (writes_writeByte _)))

theorem encLen_ne_nil (len : ℕ) : encLen len ≠ [] := by
  unfold encLen
  split_ifs <;> simp

theorem decodes_readString {v : List Octet} (h : v.length ≤ shrtMax) :
    Decodes readString (encString v) v := by
  have hmax : shrtMax = 32767 := rfl
  have hsize : (BitVec.ofNat _ v.length : Word .w16).toInt = v.length := by
    rw [BitVec.toInt_eq_toNat_of_lt] <;> simp only [BitVec.toNat_ofNat, IntWidth.bytes] <;> omega
  have henc : encUint (BitVec.ofNat _ v.length : Word .w16) = binPad 2 v.length := by
    rw [encUint, BitVec.toNat_ofNat, Nat.mod_eq_of_lt]
    · rfl
    · simp only [IntWidth.bytes]
      omega
  rw [encString, ← henc]
  refine (decodes_readUint _).bind ?_
  rw [hsize, if_neg (by omega)]
  exact (decodes_fetch v).bind_end (.pure v)

theorem writes_writeString {v : List Octet} (h : v.length ≤ shrtMax) :
    Writes (writeString v) (encString v) := by
  have hmax : shrtMax = 32767 := rfl
  have henc : encUint (BitVec.ofNat _ v.length : Word .w16) = binPad 2 v.length := by
    rw [encUint, BitVec.toNat_ofNat, Nat.mod_eq_of_lt]
    · rfl
    · simp only [IntWidth.bytes]
      omega
  rw [encString, ← henc]
  exact .bind_nil (writes_assert (decide_eq_true h)) ((writes_writeUint _).bind (writes_put v))

theorem maxConvertLen_le_intMax : maxConvertLen ≤ intMax := by decide

theorem decodes_readBuf {v : List Octet} (h : v.length ≤ maxConvertLen) :
    Decodes readBuf (encBuf v) v := by
  have hmax := maxConvertLen_le_intMax
  refine (decodes_readLen h).bind ?_
  rw [if_neg (by omega)]
  exact (decodes_fetch v).bind_end (.pure v)

theorem writes_writeBuf {v : List Octet} (h : v.length ≤ maxConvertLen) :
    Writes (writeBuf v) (encBuf v) :=
  (writes_writeLen h).bind (writes_put v)

theorem length_packBits (v : List Bool) :
    (packBits v).length = bitsToBytes v.length := by simp [packBits]

theorem unpackBits_packBits (v : List Bool) : unpackBits v.length (packBits v) = v := by
  refine List.ext_getElem (by simp [unpackBits]) fun i hi hi' => ?_
  have hk : i / 8 < (packBits v).length := by
    rw [length_packBits, bitsToBytes]
    omega
  have hlt : Nat.ofBits (fun j : Fin 8 => v.getD (8 * (i / 8) + j) false) < 256 :=
    Nat.ofBits_lt_two_pow _
  have hbyte : ((packBits v).getD (i / 8) 0).val = Nat.ofBits fun j : Fin 8 =>
      v.getD (8 * (i / 8) + j) false := by
    rw [List.getD_eq_getElem _ _ hk]
    simp only [packBits, List.getElem_map, List.getElem_range, Fin.val_ofNat]
    exact Nat.mod_eq_of_lt hlt
  simp only [unpackBits, List.getElem_map, List.getElem_range, hbyte]
  rw [Nat.testBit_ofBits_lt _ _ (Nat.mod_lt _ (by decide))]
  simp only [Nat.div_add_mod]
  rw [List.getD_eq_getElem _ _ hi']

theorem decodes_readBitsData (v : List Bool) : Decodes (readBitsData v.length) (packBits v) v := by
  intro src offset rest hlen hle hdrop
  have hcount := congrArg List.length hdrop
  simp only [List.length_drop, List.length_append, length_packBits] at hcount
  rw [readBitsData_apply ⟨hle, hlen⟩ (by simp only; omega)]
  simp only [hdrop]
  rw [← length_packBits, List.take_left, unpackBits_packBits]

theorem decodes_readBits {v : List Bool} (h : v.length ≤ maxConvertLen) :
    Decodes readBits (encBits v) v :=
  (decodes_readLen h).bind (decodes_readBitsData v)

theorem writes_writeBits {v : List Bool} (h : v.length ≤ maxConvertLen) :
    Writes (writeBits v) (encBits v) :=
  (writes_writeLen h).bind (writes_put _)

theorem decodes_readBn {v : ℤ} (h : getBinSize v ≤ maxSerializedBignumBytes) :
    Decodes readBn (encBn v) v := by
  have hmax : maxSerializedBignumBytes = 1048576 := rfl
  have hint : intMax = 2147483647 := rfl
  have hconv : maxConvertLen = 67108864 := rfl
  have hmag : v.natAbs < 256 ^ getBinSize v := by
    have hsize : getBinSize (v.natAbs : ℤ) = getBinSize v := by
      rw [getBinSize, Int.natAbs_natCast, ← getBinSize]
    exact lt_pow_of_getBinSize_le hsize.le
  have hfetch := decodes_fetch (binPad (getBinSize v) v.natAbs)
  rw [length_binPad] at hfetch
  unfold encBn
  by_cases hneg : v < 0
  · have hpos : getBinSize v ≠ 0 := by
      intro h0
      rw [h0, pow_zero] at hmag
      omega
    rw [if_pos hneg]
    refine (decodes_readLen (by omega)).bind ?_
    have hhalf : (2 * getBinSize v + 1) / 2 = getBinSize v := by omega
    have hbit : (2 * getBinSize v + 1) % 2 = 1 := by omega
    rw [hhalf, hbit, if_neg (by omega)]
    refine hfetch.bind_end ?_
    simp only [hpos, false_and, if_false, if_true, fromBin_binPad hmag]
    have hval : -((v.natAbs : ℕ) : ℤ) = v := by omega
    rw [hval]
    exact .pure v
  · rw [if_neg hneg, Nat.add_zero]
    refine (decodes_readLen (by omega)).bind ?_
    have hhalf : 2 * getBinSize v / 2 = getBinSize v := by omega
    have hbit : 2 * getBinSize v % 2 = 0 := by omega
    rw [hhalf, hbit, if_neg (by omega)]
    refine hfetch.bind_end ?_
    simp only [and_false, if_false, Nat.zero_ne_one, fromBin_binPad hmag]
    have hval : ((v.natAbs : ℕ) : ℤ) = v := by omega
    rw [hval]
    exact .pure v

theorem writes_writeBn {v : ℤ} (h : getBinSize v ≤ maxSerializedBignumBytes) :
    Writes (writeBn v) (encBn v) := by
  have hmax : maxSerializedBignumBytes = 1048576 := rfl
  have hconv : maxConvertLen = 67108864 := rfl
  refine .bind_nil (writes_assert (decide_eq_true h)) ((writes_writeLen ?_).bind (writes_put _))
  split_ifs <;> omega

theorem decodes_readMod {m : ℤ} (h : getBinSize m ≤ maxSerializedBignumBytes)
    (hm : isValidModulus m = true) :
    Decodes readMod (encBn m) m := by
  have hbits : decide (m.natAbs.size ≤ maxModulusBits) = true :=
    decide_eq_true (of_decide_eq_true hm).2.1
  refine (decodes_readBn h).bind_end (.bind_nil decodes_isError ?_)
  rw [if_neg Bool.false_ne_true, if_pos hm]
  exact (decodes_assert hbits).bind_nil (.pure m)

theorem decodes_readFixed (v : List Octet) : Decodes (readFixed v.length) v v :=
  (decodes_fetch v).bind_end (.pure v)

variable (L : CurveTable)

/-- The code of a curve, and 0 for the null pointer. -/
def encCurve (c : Option L.Curve) : List Octet := encUint ((c.map L.code).getD 0)

theorem decodes_readCurve (c : L.Curve) : Decodes (readCurve L) (encCurve L (some c)) (some c) := by
  refine (decodes_readUint (L.code c)).bind_end (.bind_nil decodes_isError ?_)
  rw [if_neg Bool.false_ne_true, if_neg (L.code_ne_zero c), L.find_code]
  exact .pure (some c)

theorem writes_writeCurve (c : Option L.Curve) : Writes (writeCurve L c) (encCurve L c) := by
  refine (writes_writeUint _).bind_end (.unless ?_)
  cases c with
  | none => exact .pure
  | some c =>
    rw [if_neg (by simpa using L.code_ne_zero c)]
    simp only [Option.map_some, Option.getD_some, L.find_code]
    exact .pure

/-- A point after its curve. -/
def encPoint (P : Option (L.Curve × L.Point)) : List Octet :=
  encCurve L (P.map Prod.fst) ++ (P.map fun P => L.toBin P.1 P.2).getD []

theorem decodes_readPoint {c : L.Curve} {P : L.Point} (h : L.fromBin c (L.toBin c P) = .ok P) :
    Decodes (readPoint L) (encPoint L (some (c, P))) (some (c, P)) := by
  refine (decodes_readCurve L c).bind (.bind_nil decodes_isError ?_)
  rw [if_neg Bool.false_ne_true]
  have hpoint := @decodes_checked _ (L.fromBin c) (L.toBin c P) P h
  rw [L.length_toBin] at hpoint
  exact hpoint.bind_end (.pure (some (c, P)))

theorem writes_writePoint (P : Option (L.Curve × L.Point)) :
    Writes (writePoint L P) (encPoint L P) := by
  refine (writes_writeCurve L _).bind (.unless ?_)
  cases P with
  | none => exact .pure
  | some P => exact writes_put _

end Codes

end CbMpc
