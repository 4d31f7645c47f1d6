import CbMpc.ConvertTree

/-!
# The serialization language

`Ty` lists the types that `converter_t` handles and closes them under its
containers. The conversions of a type are built from those of its parts, and so are its
code words, the values that can be written at all, and the safety of reading.
-/
namespace CbMpc

open Node ReadM WriteM

/-- A tuple is the pair of its first component and the tuple of the others, and a tuple of one
component is that component. `fields` is a `convert` method that converts its members one after
another in separate calls. `vector` has an overload of its own for `bool`, which is `boolVector`. -/
inductive Ty where
  | bool
  | uint (w : IntWidth)
  | int (w : IntWidth)
  | string
  | buf
  | bits
  | fixed (n : ℕ)
  | bn
  | mod
  | curve
  | point
  | ac
  | array (n : ℕ) (t : Ty)
  | vector (t : Ty)
  | boolVector
  | map (key item : Ty)
  | pair (first second : Ty)
  | fields (first second : Ty)
  deriving DecidableEq, Repr

/-- The values of a type. A map is the list of its entries in iteration order. -/
def Ty.Val (L : CurveTable) : Ty → Type
  | bool => Bool
  | uint w => Word w
  | int w => Word w
  | string => List Octet
  | buf => List Octet
  | bits => List Bool
  | fixed _ => List Octet
  | bn => ℤ
  | mod => ℤ
  | curve => Option L.Curve
  | point => Option (L.Curve × L.Point)
  | ac => AcOwned L.Curve
  | array _ t => List (t.Val L)
  | vector t => List (t.Val L)
  | boolVector => List Bool
  | map k v => List (k.Val L × v.Val L)
  | pair a b => a.Val L × b.Val L
  | fields a b => a.Val L × b.Val L

/-- The orders `operator<` by which maps are sorted. -/
structure KeyOrder (L : CurveTable) where
  less : (k : Ty) → k.Val L → k.Val L → Bool
  asymm : ∀ k a b, less k a b = true → less k b a = false

section Maps

variable {K V : Type} (less : K → K → Bool)

/-- `std::map::emplace`, which fails when the key is there. -/
def emplace (key : K) (item : V) : List (K × V) → Option (List (K × V))
  | [] => some [(key, item)]
  | e :: es =>
    if less key e.1 then some ((key, item) :: e :: es)
    else if less e.1 key then (emplace key item es).map (e :: ·)
    else none

/-- The loop of `convert_with_instance` when reading. -/
def readEntries (readKey : ReadM K) (readItem : ReadM V) : ℕ → List (K × V) → ReadM (List (K × V))
  | 0, entries => return entries
  | n + 1, entries => do
    if ← ReadM.isError then
      return entries
    else
      let key ← readKey
      readRest entries do
        if entries.all (fun e => less key e.1 || less e.1 key) then
          let item ← readItem
          readRest entries (readEntries readKey readItem n
            ((emplace less key item entries).getD entries))
        else
          ReadM.setError .format
          return entries

end Maps

/-- `convert(std::vector<T>&)`. -/
def writeVector {α : Type} (x : α → WriteM Unit) (v : List α) : WriteM Unit := do
  writeLen (v.length % 2 ^ 32)
  WriteM.whileNoError x (v.take (v.length % 2 ^ 32))

def readVector {α : Type} (x : ReadM α) : ReadM (List α) := do
  let count ← readLen
  if ← ReadM.isError then
    return []
  else if maxContainerElements < count then
    ReadM.setError .format
    return []
  else if ← ensure count then
    ReadM.whileNoError x count
  else
    return []

/-- `convert(std::vector<bool>&)`, whose count is a `short`. -/
def writeBoolVector (v : List Bool) : WriteM Unit := do
  let count : Word .w16 := BitVec.ofNat _ v.length
  writeUint count
  WriteM.whileNoError writeBool (v.take count.toInt.toNat)

def readBoolVector : ReadM (List Bool) := do
  let count ← readUint .w16
  if count.toInt < 0 ∨ maxContainerElements < count.toInt.toNat then
    ReadM.setError .format
    return []
  else
    ReadM.whileNoError readBool count.toInt.toNat

/-- `convert(std::map<TKey, TItem>&)`. -/
def writeMap {K V : Type} (writeKey : K → WriteM Unit)
    (writeItem : V → WriteM Unit) (v : List (K × V)) :
    WriteM Unit := do
  writeLen (v.length % 2 ^ 32)
  WriteM.whileNoError (fun e => do
    writeKey e.1
    writeItem e.2) (v.take (v.length % 2 ^ 32))

def readMap {K V : Type} (less : K → K → Bool) (readKey : ReadM K) (readItem : ReadM V) :
    ReadM (List (K × V)) := do
  let count ← readLen
  if maxContainerElements < count then
    ReadM.setError .format
    return []
  else
    readEntries less readKey readItem count []

/-- The bytes of a truth value. -/
def encBool (v : Bool) : List Octet := encUint (if v then 1 else 0 : Word .w8)

def encVector {α : Type} (x : α → List Octet) (v : List α) : List Octet :=
  encLen v.length ++ v.flatMap x

def encBoolVector (v : List Bool) : List Octet := binPad 2 v.length ++ v.flatMap encBool

def encMap {K V : Type} (xk : K → List Octet) (xi : V → List Octet)
    (v : List (K × V)) : List Octet :=
  encLen v.length ++ v.flatMap fun e => xk e.1 ++ xi e.2

def encAcOwned {L : CurveTable} (v : AcOwned L.Curve) : List Octet :=
  match v.curve, v.root with
  | some curve, some root => encAc curve root
  | _, _ => encBool false

/-- A point that its curve accepts again. -/
def ValidPoint {L : CurveTable} : Option (L.Curve × L.Point) → Prop
  | none => False
  | some (c, P) => L.fromBin c (L.toBin c P) = .ok P

/-- An access structure without a tree, or with a valid one that the conversion can express. -/
def ValidAc {L : CurveTable} (v : AcOwned L.Curve) : Prop :=
  v = ⟨none, none⟩ ∨ ∃ curve root, v = ⟨some curve, some root⟩ ∧ root.validateTree = .ok () ∧
    root.Forall Convertible ∧ root.height + 1 ≤ maxAcTreeLevel

def SortedKeys {K V : Type} (less : K → K → Bool) (v : List (K × V)) : Prop :=
  v.Pairwise fun e e' => less e.1 e'.1 = true

/-- `convert` in the writing modes. -/
def write {L : CurveTable} : (t : Ty) → t.Val L → WriteM Unit
  | .bool, v => writeBool v
  | .uint _, v => writeUint v
  | .int _, v => writeUint v
  | .string, v => writeString v
  | .buf, v => writeBuf v
  | .bits, v => writeBits v
  | .fixed _, v => writeFixed v
  | .bn, v => writeBn v
  | .mod, v => writeMod v
  | .curve, v => writeCurve L v
  | .point, v => writePoint L v
  | .ac, v => writeAc L v
  | .array _ t, v => WriteM.forAll (write t) v
  | .vector t, v => writeVector (write t) v
  | .boolVector, v => writeBoolVector v
  | .map k i, v => writeMap (write k) (write i) v
  | .pair a b, v => do
    write a v.1
    writeRest (write b v.2)
  | .fields a b, v => do
    write a v.1
    write b v.2

/-- What a failed read leaves in an object. -/
def Ty.default {L : CurveTable} : (t : Ty) → t.Val L
  | .bool => false
  | .uint _ => (0 : BitVec _)
  | .int _ => (0 : BitVec _)
  | .string => ([] : List Octet)
  | .buf => ([] : List Octet)
  | .bits => ([] : List Bool)
  | .fixed n => List.replicate n (0 : Octet)
  | .bn => (0 : ℤ)
  | .mod => (0 : ℤ)
  | .curve => (none : Option L.Curve)
  | .point => (none : Option (L.Curve × L.Point))
  | .ac => (⟨none, none⟩ : AcOwned L.Curve)
  | .array n t => List.replicate n (default t)
  | .vector t => ([] : List (t.Val L))
  | .boolVector => ([] : List Bool)
  | .map k i => ([] : List (k.Val L × i.Val L))
  | .pair a b => (default a, default b)
  | .fields a b => (default a, default b)

/-- `convert` in the reading mode. -/
def read {L : CurveTable} (order : KeyOrder L) : (t : Ty) → ReadM (t.Val L)
  | .bool => readBool
  | .uint w => readUint w
  | .int w => readUint w
  | .string => readString
  | .buf => readBuf
  | .bits => readBits
  | .fixed n => readFixed n
  | .bn => readBn
  | .mod => readMod
  | .curve => readCurve L
  | .point => readPoint L
  | .ac => readAc L
  | .array n t => ReadM.forAll (read order t) n
  | .vector t => readVector (read order t)
  | .boolVector => readBoolVector
  | .map k i => readMap (order.less k) (read order k) (read order i)
  | .pair a b => do
    let first ← read order a
    let second ← readRest b.default (read order b)
    return (first, second)
  | .fields a b => do
    let first ← read order a
    let second ← read order b
    return (first, second)

/-- The code word of a value. -/
def enc {L : CurveTable} : (t : Ty) → t.Val L → List Octet
  | .bool, v => encBool v
  | .uint _, v => encUint v
  | .int _, v => encUint v
  | .string, v => encString v
  | .buf, v => encBuf v
  | .bits, v => encBits v
  | .fixed _, v => v
  | .bn, v => encBn v
  | .mod, v => encBn v
  | .curve, v => encCurve L v
  | .point, v => encPoint L v
  | .ac, v => encAcOwned v
  | .array _ t, v => List.flatMap (enc t) v
  | .vector t, v => encVector (enc t) v
  | .boolVector, v => encBoolVector v
  | .map k i, v => encMap (enc k) (enc i) v
  | .pair a b, v => enc a v.1 ++ enc b v.2
  | .fields a b, v => enc a v.1 ++ enc b v.2

/-- The values of a type within the limits that the conversions set. -/
def Fits {L : CurveTable} (order : KeyOrder L) : (t : Ty) → t.Val L → Prop
  | .bool, _ => True
  | .uint _, _ => True
  | .int _, _ => True
  | .string, v => List.length v ≤ shrtMax
  | .buf, v => List.length v ≤ maxConvertLen
  | .bits, v => List.length v ≤ maxConvertLen
  | .fixed n, v => List.length v = n
  | .bn, v => getBinSize v ≤ maxSerializedBignumBytes
  | .mod, v => getBinSize v ≤ maxSerializedBignumBytes ∧ isValidModulus v = true
  | .curve, v => Option.isSome v = true
  | .point, v => ValidPoint v
  | .ac, v => ValidAc v
  | .array n t, v => List.length v = n ∧ List.Forall (Fits order t) v
  | .vector t, v =>
    List.length v ≤ maxContainerElements ∧ List.Forall (fun a => Fits order t a ∧ enc t a ≠ []) v
  | .boolVector, v => List.length v ≤ shrtMax
  | .map k i, v => List.length v ≤ maxContainerElements ∧ SortedKeys (order.less k) v ∧
      List.Forall (fun e => Fits order k e.1 ∧ Fits order i e.2) v
  | .pair a b, v => Fits order a v.1 ∧ Fits order b v.2
  | .fields a b, v => Fits order a v.1 ∧ Fits order b v.2

section Maps

variable {K V : Type} {less : K → K → Bool}

/-- A key above all others comes last. -/
theorem emplace_last (hasymm : ∀ a b, less a b = true → less b a = false) {key : K} (item : V)
    {entries : List (K × V)} (h : ∀ e ∈ entries, less e.1 key = true) :
    emplace less key item entries = some (entries ++ [(key, item)]) := by
  induction entries with
  | nil => rfl
  | cons e es ih =>
    have he := h e (by simp)
    rw [emplace, if_neg (by rw [hasymm e.1 key he]; exact Bool.false_ne_true), if_pos he,
      ih fun e' he' => h e' (by simp [he'])]
    rfl

variable {readKey : ReadM K} {readItem : ReadM V}

theorem sound_readEntries (hk : Sound readKey) (hi : Sound readItem) (n : ℕ)
    (entries : List (K × V)) :
    Sound (readEntries less readKey readItem n entries) := by
  induction n generalizing entries with
  | zero => exact .pure entries
  | succ n ih =>
    exact sound_isError.bind fun _ => .ite (.pure entries) (hk.bind fun key => sound_readRest
      (.ite (hi.bind fun item => sound_readRest (ih _)) (sound_setError .format entries)))

theorem sound_readMap (hk : Sound readKey) (hi : Sound readItem) :
    Sound (readMap less readKey readItem) :=
  sound_readLen.bind fun count =>
    .ite (sound_setError .format []) (sound_readEntries hk hi count [])

/-- The entries that are still to come lie above those that were read. -/
theorem decodes_readEntries (hasymm : ∀ a b, less a b = true → less b a = false)
    {xk : K → List Octet} {xi : V → List Octet} {entries v : List (K × V)}
    (hsorted : SortedKeys less (entries ++ v)) (hk : ∀ e ∈ v, Decodes readKey (xk e.1) e.1)
    (hi : ∀ e ∈ v, Decodes readItem (xi e.2) e.2) :
    Decodes (readEntries less readKey readItem v.length entries) (v.flatMap fun e =>
      xk e.1 ++ xi e.2) (entries ++ v) := by
  induction v generalizing entries with
  | nil =>
    rw [List.append_nil]
    exact .pure entries
  | cons e v ih =>
    have hbelow : ∀ e' ∈ entries, less e'.1 e.1 = true := fun e' he' =>
      (List.pairwise_append.mp hsorted).2.2 e' he' e (by simp)
    have hnew : entries.all (fun e' => less e.1 e'.1 || less e'.1 e.1) = true :=
      List.all_eq_true.mpr fun e' he' => by simp [hbelow e' he']
    have hnext := @ih (entries ++ [e]) (by simpa using hsorted)
      (fun e' he' => hk e' (by simp [he']))
      fun e' he' => hi e' (by simp [he'])
    rw [List.append_assoc] at hnext
    rw [List.flatMap_cons, List.append_assoc]
    refine .bind_nil decodes_isError ?_
    rw [if_neg Bool.false_ne_true]
    refine (hk e (by simp)).bind (decodes_readRest ?_)
    rw [if_pos hnew]
    refine (hi e (by simp)).bind (decodes_readRest ?_)
    rw [emplace_last hasymm e.2 hbelow]
    exact hnext

theorem decodes_readMap (hasymm : ∀ a b, less a b = true → less b a = false)
    {xk : K → List Octet} {xi : V → List Octet} {v : List (K × V)}
    (hcount : v.length ≤ maxContainerElements) (hsorted : SortedKeys less v)
    (hk : ∀ e ∈ v, Decodes readKey (xk e.1) e.1) (hi : ∀ e ∈ v, Decodes readItem (xi e.2) e.2) :
    Decodes (readMap less readKey readItem) (encMap xk xi v) v := by
  have hmax : maxContainerElements = 1048576 := rfl
  have hconv : maxConvertLen = 67108864 := rfl
  refine (decodes_readLen (by omega)).bind ?_
  rw [if_neg (by omega)]
  exact @decodes_readEntries K V less readKey readItem hasymm xk xi [] v hsorted hk hi

theorem writes_writeMap {writeKey : K → WriteM Unit}
    {writeItem : V → WriteM Unit} {xk : K → List Octet} {xi : V → List Octet} {v : List (K × V)}
    (hcount : v.length ≤ maxContainerElements) (hk : ∀ e ∈ v, Writes (writeKey e.1) (xk e.1))
    (hi : ∀ e ∈ v, Writes (writeItem e.2) (xi e.2)) :
    Writes (writeMap writeKey writeItem v) (encMap xk xi v) := by
  have hmax : maxContainerElements = 1048576 := rfl
  have hconv : maxConvertLen = 67108864 := rfl
  have hmod : v.length % 2 ^ 32 = v.length := Nat.mod_eq_of_lt (by omega)
  unfold writeMap
  rw [hmod, List.take_length]
  exact (writes_writeLen (by omega)).bind (.whileNoError fun e he => (hk e he).bind (hi e he))

end Maps

section Vectors

variable {α : Type}

theorem sound_readVector {x : ReadM α} (hx : Sound x) : Sound (readVector x) :=
  sound_readLen.bind fun count => sound_isError.bind fun _ =>
    .ite (.pure []) (.ite (sound_setError .format [])
    ((Sound.mk (safe_ensure count) (stable_ensure count)).bind fun _ =>
      .ite (hx.whileNoError count) (.pure [])))

theorem length_le_flatMap {x : α → List Octet} {v : List α} (h : ∀ a ∈ v, x a ≠ []) :
    v.length ≤ (v.flatMap x).length := by
  induction v with
  | nil => exact le_rfl
  | cons a v ih =>
    have ha := List.length_pos_of_ne_nil (h a (by simp))
    have hv := ih fun b hb => h b (by simp [hb])
    rw [List.flatMap_cons, List.length_append, List.length_cons]
    omega

/-- No element is empty, so that as many bytes follow as there are elements. -/
theorem decodes_readVector {x : ReadM α} {enc : α → List Octet} {v : List α}
    (hcount : v.length ≤ maxContainerElements) (hne : ∀ a ∈ v, enc a ≠ [])
    (hx : ∀ a ∈ v, Decodes x (enc a) a) : Decodes (readVector x) (encVector enc v) v := by
  have hmax : maxContainerElements = 1048576 := rfl
  have hconv : maxConvertLen = 67108864 := rfl
  refine (decodes_readLen (by omega)).bind (.bind_nil decodes_isError ?_)
  rw [if_neg Bool.false_ne_true, if_neg (by omega)]
  exact .ensure (length_le_flatMap hne) (.whileNoError hx)

theorem writes_writeVector {x : α → WriteM Unit} {enc : α → List Octet} {v : List α}
    (hcount : v.length ≤ maxContainerElements) (hx : ∀ a ∈ v, Writes (x a) (enc a)) :
    Writes (writeVector x v) (encVector enc v) := by
  have hmax : maxContainerElements = 1048576 := rfl
  have hconv : maxConvertLen = 67108864 := rfl
  have hmod : v.length % 2 ^ 32 = v.length := Nat.mod_eq_of_lt (by omega)
  unfold writeVector
  rw [hmod, List.take_length]
  exact (writes_writeLen (by omega)).bind (.whileNoError hx)

theorem sound_readBoolVector : Sound readBoolVector :=
  (sound_readUint .w16).bind fun _ =>
    .ite (sound_setError .format []) (sound_readBool.whileNoError _)

theorem toInt_ofNat_count {n : ℕ} (h : n ≤ shrtMax) : (BitVec.ofNat _ n : Word .w16).toInt = n := by
  have hmax : shrtMax = 32767 := rfl
  rw [BitVec.toInt_eq_toNat_of_lt] <;> simp only [BitVec.toNat_ofNat, IntWidth.bytes] <;> omega

theorem encUint_count {n : ℕ} (h : n ≤ shrtMax) :
    encUint (BitVec.ofNat _ n : Word .w16) = binPad 2 n := by
  have hmax : shrtMax = 32767 := rfl
  rw [encUint, BitVec.toNat_ofNat, Nat.mod_eq_of_lt]
  · rfl
  · simp only [IntWidth.bytes]
    omega

theorem decodes_readBoolVector {v : List Bool} (h : v.length ≤ shrtMax) :
    Decodes readBoolVector (encBoolVector v) v := by
  have hmax : shrtMax = 32767 := rfl
  have hcont : maxContainerElements = 1048576 := rfl
  rw [encBoolVector, ← encUint_count h]
  refine (decodes_readUint _).bind ?_
  rw [toInt_ofNat_count h, if_neg (by omega), Int.toNat_natCast]
  exact .whileNoError fun b _ => decodes_readBool b

theorem writes_writeBoolVector {v : List Bool} (h : v.length ≤ shrtMax) :
    Writes (writeBoolVector v) (encBoolVector v) := by
  rw [encBoolVector, ← encUint_count h]
  simp only [writeBoolVector, toInt_ofNat_count h, Int.toNat_natCast, List.take_length]
  exact (writes_writeUint _).bind (.whileNoError fun b _ => writes_writeUint _)

end Vectors

section Language

variable {L : CurveTable} (order : KeyOrder L)

theorem sound_read (t : Ty) : Sound (read order t) := by
  induction t with
  | bool => exact sound_readBool
  | uint w => exact sound_readUint w
  | int w => exact sound_readUint w
  | string => exact sound_readString
  | buf => exact sound_readBuf
  | bits => exact sound_readBits
  | fixed n => exact sound_readFixed n
  | bn => exact sound_readBn
  | mod => exact sound_readMod
  | curve => exact sound_readCurve L
  | point => exact sound_readPoint L
  | ac => exact sound_readAc
  | array n t ih => exact ih.forAll n
  | vector t ih => exact sound_readVector ih
  | boolVector => exact sound_readBoolVector
  | map k i ihk ihi => exact sound_readMap ihk ihi
  | pair a b iha ihb => exact iha.bind fun _ => (sound_readRest ihb).bind fun _ => .pure _
  | fields a b iha ihb => exact iha.bind fun _ => ihb.bind fun _ => .pure _

variable {order}

theorem decodes_read {t : Ty} {v : t.Val L} (h : Fits order t v) :
    Decodes (read order t) (enc t v) v := by
  induction t with
  | bool => exact decodes_readBool v
  | uint w => exact decodes_readUint v
  | int w => exact decodes_readUint v
  | string => exact decodes_readString h
  | buf => exact decodes_readBuf h
  | bits => exact decodes_readBits h
  | fixed n =>
    have hread := decodes_readFixed v
    rw [show List.length v = n from h] at hread
    exact hread
  | bn => exact decodes_readBn h
  | mod => exact decodes_readMod h.1 h.2
  | curve =>
    obtain ⟨c, rfl⟩ : ∃ c, v = some c := Option.isSome_iff_exists.mp h
    exact decodes_readCurve L c
  | point =>
    match v, h with
    | some (c, P), h => exact decodes_readPoint L h
  | ac =>
    rcases h with rfl | ⟨curve, root, rfl, hvalid, hconv, hlevels⟩
    · exact (decodes_readBool false).bind_end (.pure _)
    · exact decodes_readAc hvalid hconv hlevels
  | array n t ih =>
    have hread := Decodes.forAll fun a ha => ih (List.forall_iff_forall_mem.mp h.2 a ha)
    rw [h.1] at hread
    exact hread
  | vector t ih =>
    have hall := List.forall_iff_forall_mem.mp h.2
    exact decodes_readVector h.1 (fun a ha => (hall a ha).2) fun a ha => ih (hall a ha).1
  | boolVector => exact decodes_readBoolVector h
  | map k i ihk ihi =>
    have hall := List.forall_iff_forall_mem.mp h.2.2
    exact decodes_readMap (order.asymm k) h.1 h.2.1 (fun e he => ihk (hall e he).1) fun e he =>
      ihi (hall e he).2
  | pair a b iha ihb => exact (iha h.1).bind ((decodes_readRest (ihb h.2)).bind_end (.pure _))
  | fields a b iha ihb => exact (iha h.1).bind ((ihb h.2).bind_end (.pure _))

theorem writes_write {t : Ty} {v : t.Val L} (h : Fits order t v) :
    Writes (write t v) (enc t v) := by
  induction t with
  | bool => exact writes_writeUint _
  | uint w => exact writes_writeUint v
  | int w => exact writes_writeUint v
  | string => exact writes_writeString h
  | buf => exact writes_writeBuf h
  | bits => exact writes_writeBits h
  | fixed n => exact writes_put v
  | bn => exact writes_writeBn h
  | mod => exact writes_writeBn h.1
  | curve => exact writes_writeCurve L v
  | point => exact writes_writePoint L v
  | ac =>
    rcases h with rfl | ⟨curve, root, rfl, -, hconv, hlevels⟩
    · exact (writes_writeUint _).bind_end .pure
    · exact writes_writeAc hconv hlevels
  | array n t ih => exact .forAll fun a ha => ih (List.forall_iff_forall_mem.mp h.2 a ha)
  | vector t ih =>
    exact writes_writeVector h.1 fun a ha => ih (List.forall_iff_forall_mem.mp h.2 a ha).1
  | boolVector => exact writes_writeBoolVector h
  | map k i ihk ihi =>
    have hall := List.forall_iff_forall_mem.mp h.2.2
    exact writes_writeMap h.1 (fun e he => ihk (hall e he).1) fun e he => ihi (hall e he).2
  | pair a b iha ihb => exact (iha h.1).bind (writes_writeRest (ihb h.2))
  | fields a b iha ihb => exact (iha h.1).bind (ihb h.2)

/-- Decoding is total: from any position inside the input it moves forward inside the input, leaves
the reader of an earlier error as it is, and returns. -/
theorem deser_total (order : KeyOrder L) (t : Ty) :
    (∀ r : Reader, r.Inside → ∃ v r', read order t r = .ok (v, r') ∧ r.Reaches r' ∧ r'.Inside) ∧
    ∀ src : List Octet, src.length ≤ intMax →
      (∃ v, deser (read order t) src = .ok v) ∨ ∃ rv, deser (read order t) src = fail rv :=
  ⟨(sound_read order t).safe, fun _ hlen => deser_returns (sound_read order t).safe hlen⟩

/-- The bytes of a value are found again in front of anything, and nothing shorter or longer is
taken for them. -/
theorem deser_ser (order : KeyOrder L) (garbage : ℕ → Octet) (t : Ty) (v : t.Val L)
    (hfits : Fits order t v) (hlen : (enc t v).length ≤ intMax) :
    (∃ counted written, write t v ⟨none, 0, none⟩ = .ok ((), counted) ∧
      write t v ⟨some garbage, 0, none⟩ = .ok ((), written) ∧
      counted.offset = (enc t v).length ∧ written.offset = counted.offset) ∧
    ser garbage (write t v) = .ok (enc t v) ∧
    (∀ w, (enc t v ++ w).length ≤ intMax → read order t ⟨enc t v ++ w, 0, none⟩ =
      .ok (v, ⟨enc t v ++ w, (enc t v).length, none⟩)) ∧
    deser (read order t) (enc t v) = .ok v ∧
    (∀ short, short <+: enc t v → short ≠ enc t v → ∃ rv, deser (read order t) short = fail rv) ∧
    ∀ w, w ≠ [] → (enc t v ++ w).length ≤ intMax → ∃ rv,
      deser (read order t) (enc t v ++ w) = fail rv := by
  have hw := writes_write hfits
  have hd := decodes_read hfits
  have hs := sound_read order t
  refine ⟨?_, ?_, fun w hw' => ?_, deser_eq hd hlen, fun short hpre hne => ?_,
    fun w hne hlen' => ?_⟩
  · have hcounted := hw ⟨none, 0, none⟩ rfl (Nat.zero_le _)
    have hwritten := hw ⟨some garbage, 0, none⟩ rfl (Nat.zero_le _)
    rw [put_apply, if_pos (by simpa using hlen)] at hcounted hwritten
    exact ⟨_, _, hcounted, hwritten, Nat.zero_add _, rfl⟩
  · rw [ser_eq hw, if_pos hlen]
  · have hread := hd (enc t v ++ w) 0 w hw' (Nat.zero_le _) (by simp)
    rwa [Nat.zero_add] at hread
  · exact deser_prefix hd hs.safe hs.stable hlen hpre hne
  · exact ⟨.badArg, deser_append hd hlen' hne⟩

end Language

section Examples

/-- The order of unsigned keys; no key of another type is below another. -/
def sampleOrder : KeyOrder sampleCurves where
  less
    | .uint _, a, b => decide (BitVec.toNat a < BitVec.toNat b)
    | _, _, _ => false
  asymm k a b h := by
    cases k with
    | uint w =>
      have hlt : BitVec.toNat a < BitVec.toNat b := of_decide_eq_true h
      exact decide_eq_false (by omega)
    | _ => rfl

def sampleTy : Ty := .pair .bn (.map (.uint .w16) (.vector .string))

def sampleVal : sampleTy.Val sampleCurves :=
  ((-300 : ℤ), [((1 : BitVec 16), [[65, 66], []]), ((7 : BitVec 16), [])])

theorem sampleVal_fits : Fits sampleOrder sampleTy sampleVal := by
  have hbn : getBinSize (-300) ≤ maxSerializedBignumBytes := by decide
  have hcount : 2 ≤ maxContainerElements := by decide
  have hlast : ([] : List Octet).length ≤ shrtMax := by decide
  have hfirst : ([65, 66] : List Octet).length ≤ shrtMax := by decide
  have hsorted : SortedKeys (sampleOrder.less (.uint .w16)) sampleVal.2 :=
    List.pairwise_pair.mpr rfl
  exact ⟨hbn, hcount, hsorted, ⟨trivial, hcount, ⟨hfirst, by decide⟩, hlast, by decide⟩,
    trivial, Nat.zero_le _, trivial⟩

theorem deser_ser_sample :
    ser (fun _ => 0) (write sampleTy sampleVal) = .ok (enc sampleTy sampleVal) ∧
      deser (read sampleOrder sampleTy) (enc sampleTy sampleVal) = .ok sampleVal :=
  have h := deser_ser sampleOrder (fun _ => 0) sampleTy sampleVal sampleVal_fits (by decide)
  ⟨h.2.1, h.2.2.2.1⟩

/-- A map that announces more entries than there are bytes. -/
theorem deser_total_sample :
    (∃ v, deser (read sampleOrder sampleTy) [5, 1, 44, 3, 0, 1] = .ok v) ∨
      ∃ rv, deser (read sampleOrder sampleTy) [5, 1, 44, 3, 0, 1] = fail rv :=
  (deser_total sampleOrder sampleTy).2 [5, 1, 44, 3, 0, 1] (by decide)

theorem getBinSize_pow (n : ℕ) : getBinSize (256 ^ n) = n + 1 := by
  have habs : ((256 : ℤ) ^ n).natAbs = 2 ^ (8 * n) := by
    rw [Int.natAbs_pow, pow_mul]
    rfl
  rw [getBinSize, habs, Nat.size_pow, bitsToBytes]
  omega

/-- A number of one byte more than a big number may have is not written at all. -/
theorem bigNumber_not_written :
    ser (fun _ => 0) (@write sampleCurves .bn ((256 : ℤ) ^ maxSerializedBignumBytes)) =
      throwing .assertionFailed := by
  have hsize : ¬ getBinSize ((256 : ℤ) ^ maxSerializedBignumBytes) ≤ maxSerializedBignumBytes := by
    rw [getBinSize_pow]
    omega
  have hpass : ∀ w, writeBn ((256 : ℤ) ^ maxSerializedBignumBytes) w =
      throwing .assertionFailed := by
    intro w
    unfold writeBn
    rw [decide_eq_false hsize]
    rfl
  have hser : ser (fun _ => 0) (writeBn ((256 : ℤ) ^ maxSerializedBignumBytes)) =
      throwing .assertionFailed := by
    rw [ser, hpass]
    rfl
  exact hser

end Examples

end CbMpc
