import CbMpc.CodeWords

/-!
# What is hashed

The random oracle and the commitments feed their arguments to HMAC through
`hmac_state_t::encode_and_update`, and the other hashes go through `update_state`. Overloads choose
among a length prefix, a count and the bytes of the converter. `update_state` of a number writes its
magnitude; `encode_and_update` of a vector counts and encodes its elements in turn.
-/
namespace CbMpc

open ReadM WriteM PrefixCode

/-- The types of arguments. Under `one` a type without overloads of its own is a class with a
`convert` method, and `elgCom` is `ec_elgamal_commitment_t`, which has an overload beside its
`convert`. -/
inductive ArgTy where
  | one (t : Ty) (listed : t ≠ .bits)
  | elgCom
  | vector (t : ArgTy)

variable {L : CurveTable}

def ArgTy.Val (L : CurveTable) : ArgTy → Type
  | one t _ => t.Val L
  | elgCom => Option (L.Curve × L.Point) × Option (L.Curve × L.Point)
  | vector t => List (t.Val L)

/-- `convert` of an argument, which `get_bin_size` runs to count its bytes. -/
def ArgTy.write : (t : ArgTy) → t.Val L → WriteM Unit
  | one t _, v => CbMpc.write t v
  | elgCom, v => do
    writePoint L v.1
    writePoint L v.2
  | vector (one .bool _), v => writeBoolVector v
  | vector t, v => writeVector (ArgTy.write t) v

/-- `to_compressed_bin`, which a point without a curve does not have. -/
def pointBytes (P : Option (L.Curve × L.Point)) : Outcome (List Octet) :=
  match P with
  | none => throwing .outOfBounds
  | some (c, P) => .ok (L.toBin c P)

/-- `update(mem_t)` of a string, whose size becomes an `int`. -/
def stringBytes (v : List Octet) : Outcome (List Octet) := do
  let size : Word .w32 := BitVec.ofNat _ v.length
  cbAssert (decide (0 ≤ size.toInt))
  .ok (v.take size.toInt.toNat)

/-- The size pass of `convert_write`. -/
def convertSize (x : WriteM Unit) : Outcome (Word .w32) := do
  let counted ← x ⟨none, 0, none⟩
  .ok (BitVec.ofNat _ counted.2.offset)

/-- `get_bin_size`, an `int`, of an argument that is no vector. -/
def binSizeOne : (t : Ty) → t.Val L → Outcome (Word .w32)
  | .bool, _ => .ok 1
  | .uint w, _ => .ok (BitVec.ofNat _ w.bytes)
  | .int w, _ => .ok (BitVec.ofNat _ w.bytes)
  | .string, v => .ok (BitVec.ofNat _ (List.length v))
  | .buf, v => .ok (BitVec.ofNat _ (List.length v))
  | .bits, v => .ok (BitVec.ofNat _ (packBits v).length)
  | .fixed n, _ => .ok (BitVec.ofNat _ n)
  | .bn, v => .ok (BitVec.ofNat _ (getBinSize v))
  | .mod, v => .ok (BitVec.ofNat _ (getBinSize v))
  | .point, v => do
    let bytes ← pointBytes v
    .ok (BitVec.ofNat _ bytes.length)
  | t, v => convertSize (write t v)

variable (garbage : ℕ → Octet)

/-- `update_state` of an argument that is no vector. -/
def updateOne : (t : Ty) → t.Val L → Outcome (List Octet)
  | .bool, v => .ok (encBool v)
  | .uint _, v => .ok (encUint v)
  | .int _, v => .ok (encUint v)
  | .string, v => stringBytes v
  | .buf, v => .ok v
  | .bits, v => .ok (packBits v)
  | .fixed _, v => .ok v
  | .bn, v => .ok (binPad (getBinSize v) (Int.natAbs v))
  | .mod, v => .ok (binPad (getBinSize v) (Int.natAbs v))
  | .point, v => pointBytes v
  | t, v => ser garbage (write t v)

def binSize : (t : ArgTy) → t.Val L → Outcome (Word .w32)
  | .one t _, v => binSizeOne t v
  | .elgCom, v => convertSize (ArgTy.write .elgCom v)
  | .vector t, v => convertSize (ArgTy.write (.vector t) v)

/-- `update_state(uint64_t(get_bin_size(v)))`, with the sign of the `int`. -/
def frame (n : Word .w32) : List Octet := encUint (BitVec.signExtend _ n : Word .w64)

/-- `update_state`. -/
def updateState : (t : ArgTy) → t.Val L → Outcome (List Octet)
  | .one t _, v => updateOne garbage t v
  | .elgCom, v => do
    let a ← pointBytes v.1
    let b ← pointBytes v.2
    .ok (a ++ b)
  | .vector t, v => do
    let parts ← List.mapM (fun a => do
      let n ← binSize t a
      let bytes ← updateState t a
      .ok (frame n ++ bytes)) v
    .ok (encUint (BitVec.ofNat _ (List.length v) : Word .w64) ++ parts.flatten)

/-- `encode_and_update` of an argument that is no vector: a size first, and for `std::array` its
length. -/
def encodeOne : (t : Ty) → t.Val L → Outcome (List Octet)
  | .array n t, v => do
    let bytes ← updateOne garbage (.array n t) v
    .ok (encUint (BitVec.ofNat _ n : Word .w32) ++ bytes)
  | t, v => do
    let n ← binSizeOne t v
    let bytes ← updateOne garbage t v
    .ok (encUint n ++ bytes)

/-- `hmac_state_t::encode_and_update` of one argument. -/
def encodeAndUpdate : (t : ArgTy) → t.Val L → Outcome (List Octet)
  | .one t _, v => encodeOne garbage t v
  | .elgCom, v => do
    let n ← binSize .elgCom v
    let bytes ← updateState garbage .elgCom v
    .ok (encUint n ++ bytes)
  | .vector t, v => do
    cbAssert (decide (List.length v ≤ intMax))
    let parts ← List.mapM (encodeAndUpdate t) v
    .ok (encUint (BitVec.ofNat _ (List.length v) : Word .w32) ++ parts.flatten)

/-- The arguments of one call. -/
def Args (L : CurveTable) : List ArgTy → Type
  | [] => Unit
  | t :: ts => t.Val L × Args L ts

/-- `encode_and_update(first, last...)`: the bytes that HMAC is fed. -/
def encodeAll : (ts : List ArgTy) → Args L ts → Outcome (List Octet)
  | [], _ => .ok []
  | t :: ts, v => do
    let first ← encodeAndUpdate garbage t v.1
    let last ← encodeAll ts v.2
    .ok (first ++ last)

section Whole

variable (S : L.Curve → Prop)

/-- Arguments of which nothing is cut: the size of a buffer or a number is an `int`, and a point is
of a curve in a given set. -/
def WholeOne : (t : Ty) → t.Val L → Prop
  | .string, v => List.length v < 2 ^ 32
  | .buf, v => List.length v ≤ intMax
  | .bn, v => getBinSize v ≤ intMax
  | .mod, v => getBinSize v ≤ intMax
  | .point, v => ∃ c P, S c ∧ v = some (c, P)
  | t, v => Whole t v

def WholeArg : (t : ArgTy) → t.Val L → Prop
  | .one t _, v => WholeOne S t v
  | .elgCom, v => Option.isSome v.1 = true ∧ Option.isSome v.2 = true
  | .vector t, v => List.length v < 2 ^ 64 ∧ List.Forall (WholeArg t) v

def WholeArgs : (ts : List ArgTy) → Args L ts → Prop
  | [], _ => True
  | t :: ts, v => WholeArg S t v.1 ∧ WholeArgs ts v.2

/-- `update_state` of a commitment writes its points. -/
def comBytes (v : ArgTy.elgCom.Val L) : Outcome (List Octet) := do
  let a ← pointBytes v.1
  let b ← pointBytes v.2
  .ok (a ++ b)

/-- Arguments that `update_state` does not tell apart: it writes no sign of a number and no curve of
a point. -/
def AlikeOne : (t : Ty) → t.Val L → t.Val L → Prop
  | .bn, v, w => Int.natAbs v = Int.natAbs w
  | .mod, v, w => Int.natAbs v = Int.natAbs w
  | .point, v, w => pointBytes v = pointBytes w
  | _, v, w => v = w

def Alike : (t : ArgTy) → t.Val L → t.Val L → Prop
  | .one t _, v, w => AlikeOne t v w
  | .elgCom, v, w => comBytes v = comBytes w
  | .vector t, v, w => List.Forall₂ (Alike t) v w

def AlikeArgs : (ts : List ArgTy) → Args L ts → Args L ts → Prop
  | [], _, _ => True
  | t :: ts, v, w => Alike t v.1 w.1 ∧ AlikeArgs ts v.2 w.2

/-- Sizes of points whose `int`s are equal. -/
def SizesDiffer (S : L.Curve → Prop) : Prop :=
  ∀ c d, S c → S d → (BitVec.ofNat _ (L.pointSize c) : Word .w32) = BitVec.ofNat _ (L.pointSize d) →
    L.pointSize c = L.pointSize d

theorem size_inj {a b : ℕ} (ha : a < 2 ^ 32) (hb : b < 2 ^ 32)
    (h : (BitVec.ofNat _ a : Word .w32) = (BitVec.ofNat _ b : Word .w32)) :
    a = b := ofNat_inj ha hb h

theorem lt_of_le_intMax {n : ℕ} (h : n ≤ intMax) : n < 2 ^ 32 := lt_of_le_of_lt h (by decide)

theorem stringBytes_ok {v s : List Octet} (hv : v.length < 2 ^ 32)
    (h : stringBytes v = .ok s) : s = v := by
  obtain ⟨hpos, hs⟩ := cbAssert_bind_ok_iff.mp h
  have hsize : (BitVec.ofNat 32 v.length).toInt = v.length := by
    have hge : 0 ≤ (BitVec.ofNat 32 v.length).toInt := of_decide_eq_true hpos
    rw [BitVec.toInt_eq_toNat_cond, BitVec.toNat_ofNat, Nat.mod_eq_of_lt hv] at hge ⊢
    split_ifs at hge ⊢ with hlt
    · rfl
    · push_cast at hge
      omega
  have htake : v.take (BitVec.ofNat 32 v.length).toInt.toNat = v := by
    rw [hsize, Int.toNat_natCast, List.take_length]
  cases hs
  exact htake

theorem natAbs_eq_of_magnitude {v w : ℤ}
    (h : binPad (getBinSize v) v.natAbs = binPad (getBinSize w) w.natAbs) :
    v.natAbs = w.natAbs := by
  have hlt : ∀ v : ℤ, v.natAbs < 256 ^ getBinSize v := fun v => by
    have hsize : getBinSize (v.natAbs : ℤ) = getBinSize v := by
      rw [getBinSize, Int.natAbs_natCast, ← getBinSize]
    exact lt_pow_of_getBinSize_le hsize.le
  have hread := congrArg fromBin h
  rwa [fromBin_binPad (hlt v), fromBin_binPad (hlt w)] at hread

theorem convertSize_ok {t : Ty} {v : t.Val L} (hv : Whole t v) {n : Word .w32}
    (h : convertSize (write t v) = .ok n) :
    n = BitVec.ofNat _ (word t v).length ∧ (word t v).length ≤ intMax := by
  obtain ⟨⟨u, w⟩, hcount, hn⟩ := bind_ok_iff.mp h
  obtain ⟨-, hput⟩ := write_ok hv rfl (Nat.zero_le _) hcount
  rw [put_apply] at hput
  split at hput
  · rename_i hlen
    cases hput
    cases hn
    rw [Nat.zero_add] at hlen
    exact ⟨by rw [Nat.zero_add], hlen⟩
  · cases hput

variable {garbage} {garbage' : ℕ → Octet} {S}

/-- Of two arguments of one size the bytes have one length, and equal bytes come from arguments
alike. -/
def Sized (garbage garbage' : ℕ → Octet) (t : Ty) (v w : t.Val L) : Prop :=
  ∀ n s s', binSizeOne t v = .ok n → binSizeOne t w = .ok n → updateOne garbage t v = .ok s →
    updateOne garbage' t w = .ok s' →
    s.length = s'.length ∧ (s = s' → AlikeOne t v w)

theorem sized_convert (hL : ∀ c, Function.Injective (L.toBin c)) {t : Ty} {v w : t.Val L}
    (hv : Whole t v) (hw : Whole t w) {n : Word .w32} {s s' : List Octet}
    (hnv : convertSize (write t v) = .ok n) (hnw : convertSize (write t w) = .ok n)
    (hsv : ser garbage (write t v) = .ok s) (hsw : ser garbage' (write t w) = .ok s') :
    s.length = s'.length ∧ (s = s' → v = w) := by
  obtain ⟨hsmallv, rfl, hlenv⟩ := ser_ok hv hsv
  obtain ⟨hsmallw, rfl, hlenw⟩ := ser_ok hw hsw
  have hn := (convertSize_ok hv hnv).1.symm.trans (convertSize_ok hw hnw).1
  refine ⟨size_inj (lt_of_le_intMax hlenv) (lt_of_le_intMax hlenw) hn, fun heq => ?_⟩
  exact (unambiguous_enc hL t).eq ⟨⟨hv, hsmallv, hlenv⟩, rfl⟩ ⟨⟨hw, hsmallw, hlenw⟩, heq⟩

theorem sized_magnitude {v w : ℤ} (hv : getBinSize v ≤ intMax) (hw : getBinSize w ≤ intMax)
    (hn : (BitVec.ofNat _ (getBinSize w) : Word .w32) = BitVec.ofNat _ (getBinSize v)) :
    (binPad (getBinSize v) v.natAbs).length = (binPad (getBinSize w) w.natAbs).length ∧
      (binPad (getBinSize v) v.natAbs = binPad (getBinSize w) w.natAbs → v.natAbs = w.natAbs) := by
  rw [length_binPad, length_binPad]
  exact ⟨(size_inj (lt_of_le_intMax hw) (lt_of_le_intMax hv) hn).symm, natAbs_eq_of_magnitude⟩

theorem sized_point (hS : SizesDiffer S) {v w : Option (L.Curve × L.Point)}
    (hv : ∃ c P, S c ∧ v = some (c, P)) (hw : ∃ c P, S c ∧ w = some (c, P)) :
    Sized garbage garbage' .point v w := by
  obtain ⟨c, P, hc, rfl⟩ := hv
  obtain ⟨d, Q, hd, rfl⟩ := hw
  intro n s s' hnv hnw hsv hsw
  cases hsv
  cases hsw
  cases hnv
  have hn : (BitVec.ofNat 32 (L.toBin d Q).length) = BitVec.ofNat 32 (L.toBin c P).length :=
    Except.ok.inj hnw
  rw [L.length_toBin, L.length_toBin] at hn
  refine ⟨?_, fun h => congrArg Except.ok h⟩
  rw [L.length_toBin, L.length_toBin]
  exact hS c d hc hd hn.symm

theorem sized_updateOne (hL : ∀ c, Function.Injective (L.toBin c)) (hS : SizesDiffer S) {t : Ty}
    (ht : t ≠ .bits) {v w : t.Val L} (hv : WholeOne S t v) (hw : WholeOne S t w) :
    Sized garbage garbage' t v w := by
  intro n s s' hnv hnw hsv hsw
  cases t with
  | bool =>
    cases hsv
    cases hsw
    refine ⟨(length_encUint _).trans (length_encUint _).symm, fun h => ?_⟩
    have hbit := encUint_injective h
    cases v <;> cases w <;> first | rfl | exact absurd hbit (by decide)
  | uint k =>
    cases hsv
    cases hsw
    exact ⟨(length_encUint v).trans (length_encUint w).symm, fun h => encUint_injective h⟩
  | int k =>
    cases hsv
    cases hsw
    exact ⟨(length_encUint v).trans (length_encUint w).symm, fun h => encUint_injective h⟩
  | string =>
    obtain rfl := stringBytes_ok hv hsv
    obtain rfl := stringBytes_ok hw hsw
    cases hnv
    exact ⟨(size_inj hw hv (Except.ok.inj hnw)).symm, id⟩
  | buf =>
    cases hsv
    cases hsw
    cases hnv
    exact ⟨(size_inj (lt_of_le_intMax hw) (lt_of_le_intMax hv) (Except.ok.inj hnw)).symm, id⟩
  | bits => exact absurd rfl ht
  | fixed k =>
    cases hsv
    cases hsw
    exact ⟨Eq.trans hv (Eq.symm hw), id⟩
  | bn =>
    cases hsv
    cases hsw
    cases hnv
    exact sized_magnitude hv hw (Except.ok.inj hnw)
  | mod =>
    cases hsv
    cases hsw
    cases hnv
    exact sized_magnitude hv hw (Except.ok.inj hnw)
  | point => exact sized_point hS hv hw n s s' hnv hnw hsv hsw
  | curve | ac | array | vector | boolVector | map | pair
  | fields => exact sized_convert hL hv hw hnv hnw hsv hsw

/-- A size in front, in either width, and the bytes behind it. -/
theorem separates_sized (hL : ∀ c, Function.Injective (L.toBin c)) (hS : SizesDiffer S)
    {t : Ty} (ht : t ≠ .bits) {pre : Word .w32 → List Octet}
    (hpre : Unambiguous (graph (fun _ => True) pre)) :
    Separates (AlikeOne t) fun (v : t.Val L) x => WholeOne S t v ∧
      ∃ g n s, binSizeOne t v = .ok n ∧ updateOne g t v = .ok s ∧ x = pre n ++ s := by
  rintro v w _ _ ⟨hv, g, n, s, hnv, hsv, rfl⟩ ⟨hw, g', n', s', hnw, hsw, rfl⟩ x y hxy
  rw [List.append_assoc, List.append_assoc] at hxy
  obtain ⟨rfl, hrest⟩ := hpre ⟨trivial, rfl⟩ ⟨trivial, rfl⟩ hxy
  obtain ⟨hlen, halike⟩ := sized_updateOne hL hS ht hv hw n s s' hnv hnw hsv hsw
  obtain ⟨hs, hxy⟩ := List.append_inj hrest hlen
  exact ⟨halike hs, hxy⟩

theorem length_word_elgCom {v : ArgTy.elgCom.Val L} (hv : WholeArg S .elgCom v) {s : List Octet}
    (hs : comBytes v = .ok s) :
    (word (L := L) (.fields .point .point) v).length = 4 + s.length := by
  obtain ⟨v1, v2⟩ := v
  obtain ⟨h1, h2⟩ := hv
  obtain ⟨P, rfl⟩ := Option.isSome_iff_exists.mp h1
  obtain ⟨Q, rfl⟩ := Option.isSome_iff_exists.mp h2
  cases hs
  have hcode : ∀ c, (encCurve L c).length = 2 := fun c => length_encUint _
  simp only [word, enc, encPoint, Option.map_some, Option.getD_some, List.length_append, hcode]
  omega

/-- The size of a commitment counts the codes of its curves besides the bytes of its points. -/
theorem binSize_elgCom {v : ArgTy.elgCom.Val L} (hv : WholeArg S .elgCom v)
    {n : Word .w32} {s : List Octet} (hn : binSize .elgCom v = .ok n) (hs : comBytes v = .ok s) :
    n = BitVec.ofNat _ (4 + s.length) ∧ 4 + s.length ≤ intMax := by
  have hsize := @convertSize_ok L (.fields .point .point) v ⟨hv.1, hv.2⟩ n hn
  rwa [length_word_elgCom hv hs] at hsize

theorem separates_elgCom {pre : Word .w32 → List Octet}
    (hpre : Unambiguous (graph (fun _ => True) pre)) :
    Separates (Alike .elgCom) fun (v : ArgTy.elgCom.Val L) x => WholeArg S .elgCom v ∧
      ∃ g n s, binSize .elgCom v = .ok n ∧ updateState g .elgCom v = .ok s ∧ x = pre n ++ s := by
  rintro v w _ _ ⟨hv, g, n, s, hnv, hsv, rfl⟩ ⟨hw, g', n', s', hnw, hsw, rfl⟩ x y hxy
  rw [List.append_assoc, List.append_assoc] at hxy
  obtain ⟨rfl, hrest⟩ := hpre ⟨trivial, rfl⟩ ⟨trivial, rfl⟩ hxy
  obtain ⟨hn, hlen⟩ := binSize_elgCom hv hnv hsv
  obtain ⟨hn', hlen'⟩ := binSize_elgCom hw hnw hsw
  have htotal := size_inj (lt_of_le_intMax hlen) (lt_of_le_intMax hlen') (hn.symm.trans hn')
  obtain ⟨rfl, hafter⟩ := List.append_inj hrest (Nat.add_left_cancel htotal)
  exact ⟨hsv.trans hsw.symm, hafter⟩

theorem unambiguous_frame : Unambiguous (graph (fun _ => True) frame) := by
  rintro a b s t ⟨-, rfl⟩ ⟨-, rfl⟩ x y hxy
  obtain ⟨hext, hrest⟩ := unambiguous_encUint .w64 ⟨trivial, rfl⟩ ⟨trivial, rfl⟩ hxy
  refine ⟨BitVec.eq_of_toInt_eq ?_, hrest⟩
  have hint := congrArg BitVec.toInt hext
  rwa [BitVec.toInt_signExtend_of_le (by decide), BitVec.toInt_signExtend_of_le (by decide)] at hint

/-- An array is preceded by its length, which its type fixes. -/
theorem unambiguous_encodeArray (hL : ∀ c, Function.Injective (L.toBin c)) {n : ℕ} {t : Ty} :
    Unambiguous fun (v : (Ty.array n t).Val L) x => Whole (.array n t) v ∧ ∃ g,
      encodeOne g (.array n t) v = .ok x := by
  rintro v w _ _ ⟨hv, g, hsv⟩ ⟨hw, g', hsw⟩ x y hxy
  obtain ⟨s, hs, hsv⟩ := bind_ok_iff.mp hsv
  obtain ⟨s', hs', hsw⟩ := bind_ok_iff.mp hsw
  cases hsv
  cases hsw
  obtain ⟨hsmallv, rfl, hlenv⟩ := ser_ok hv hs
  obtain ⟨hsmallw, rfl, hlenw⟩ := ser_ok hw hs'
  rw [List.append_assoc, List.append_assoc] at hxy
  exact unambiguous_enc hL _ ⟨⟨hv, hsmallv, hlenv⟩, rfl⟩ ⟨⟨hw, hsmallw, hlenw⟩,
    rfl⟩ (List.append_cancel_left hxy)

variable (S)

/-- The bytes that an argument is encoded to by `encode_and_update`. -/
def Encodes (t : ArgTy) (v : t.Val L) (x : List Octet) : Prop :=
  WholeArg S t v ∧ ∃ g, encodeAndUpdate g t v = .ok x

/-- The bytes of an element of a hashed vector: its size, and what `update_state` writes. -/
def Framed (t : ArgTy) (v : t.Val L) (x : List Octet) : Prop :=
  WholeArg S t v ∧ ∃ g n s, binSize t v = .ok n ∧ updateState g t v = .ok s ∧ x = frame n ++ s

/-- The bytes of a hashed vector. -/
def Hashes (t : ArgTy) (v : (ArgTy.vector t).Val L) (x : List Octet) : Prop :=
  WholeArg S (.vector t) v ∧ ∃ g, updateState g (.vector t) v = .ok x

variable {S}

theorem forall₂_encodes {t : ArgTy} {v : List (t.Val L)} {parts : List (List Octet)}
    (hv : v.Forall (WholeArg S t))
    (h : List.Forall₂ (fun a b => encodeAndUpdate garbage t a = .ok b) v parts) :
    List.Forall₂ (Encodes S t) v parts := by
  induction h with
  | nil => exact .nil
  | cons ha h ih =>
    obtain ⟨hva, hv⟩ := List.forall_cons .. |>.mp hv
    exact .cons ⟨hva, _, ha⟩ (ih hv)

/-- One argument can be told from the front of what is encoded, up to signs and curves. -/
theorem separates_encodes (hL : ∀ c, Function.Injective (L.toBin c))
    (hS : SizesDiffer S) (t : ArgTy) :
    Separates (Alike t) (Encodes S t) := by
  induction t with
  | one t ht =>
    have hsized := separates_sized hL hS ht (unambiguous_encUint .w32)
    cases t with
    | array n t => exact (unambiguous_encodeArray hL).mono fun v x h => h
    | bits => exact absurd rfl ht
    | bool | uint | int | string | buf | fixed | bn | mod | curve | point | ac | vector | boolVector
    | map | pair | fields =>
      refine hsized.mono ?_
      rintro v x ⟨hv, g, h⟩
      obtain ⟨n, hn, h⟩ := bind_ok_iff.mp h
      obtain ⟨s, hs, h⟩ := bind_ok_iff.mp h
      cases h
      exact ⟨hv, g, n, s, hn, hs, rfl⟩
  | elgCom =>
    refine (separates_elgCom (S := S) (unambiguous_encUint .w32)).mono ?_
    rintro v x ⟨hv, g, h⟩
    obtain ⟨n, hn, h⟩ := bind_ok_iff.mp h
    obtain ⟨s, hs, h⟩ := bind_ok_iff.mp h
    cases h
    exact ⟨hv, g, n, s, hn, hs, rfl⟩
  | vector t ih =>
    have hcount : Unambiguous (graph (· ≤ intMax) fun n =>
        encUint (BitVec.ofNat _ n : Word .w32)) := by
      rintro a b s s' ⟨ha, rfl⟩ ⟨hb, rfl⟩ x y hxy
      obtain ⟨hab, hxy⟩ := unambiguous_encUint .w32 ⟨trivial, rfl⟩ ⟨trivial, rfl⟩ hxy
      exact ⟨size_inj (lt_of_le_intMax ha) (lt_of_le_intMax hb) hab, hxy⟩
    refine (ih.counted hcount).mono ?_
    rintro v x ⟨hv, g, h⟩
    obtain ⟨hlen, h⟩ := cbAssert_bind_ok_iff.mp h
    obtain ⟨parts, hparts, h⟩ := bind_ok_iff.mp h
    cases h
    exact ⟨_, parts, ⟨of_decide_eq_true hlen, rfl⟩,
      forall₂_encodes (t := t) hv.2 (mapM_ok_iff.mp hparts), rfl⟩

theorem forall₂_framed {t : ArgTy} {v : List (t.Val L)} {parts : List (List Octet)}
    (hv : v.Forall (WholeArg S t)) (h : List.Forall₂ (fun a b => (do
      let n ← binSize t a
      let bytes ← updateState garbage t a
      .ok (frame n ++ bytes)) = Except.ok b) v parts) : List.Forall₂ (Framed S t) v parts := by
  induction h with
  | nil => exact .nil
  | cons ha h ih =>
    obtain ⟨hva, hv⟩ := List.forall_cons .. |>.mp hv
    obtain ⟨n, hn, ha⟩ := bind_ok_iff.mp ha
    obtain ⟨s, hs, ha⟩ := bind_ok_iff.mp ha
    exact .cons ⟨hva, _, n, s, hn, hs, (Except.ok.inj ha).symm⟩ (ih hv)

/-- A hashed vector says how many elements follow, and each of them says its size. -/
theorem separates_hashes_of {t : ArgTy} (h : Separates (Alike t) (Framed S t)) :
    Separates (Alike (.vector t)) (Hashes S t) := by
  have hcount : Unambiguous (graph (· < 2 ^ 64) fun n =>
      encUint (BitVec.ofNat _ n : Word .w64)) := by
    rintro a b s s' ⟨ha, rfl⟩ ⟨hb, rfl⟩ x y hxy
    obtain ⟨hab, hxy⟩ := unambiguous_encUint .w64 ⟨trivial, rfl⟩ ⟨trivial, rfl⟩ hxy
    exact ⟨ofNat_inj ha hb hab, hxy⟩
  refine (h.counted hcount).mono ?_
  rintro v x ⟨hv, g, h⟩
  obtain ⟨parts, hparts, h⟩ := bind_ok_iff.mp h
  cases h
  exact ⟨_, parts, ⟨hv.1, rfl⟩, forall₂_framed (t := t) hv.2 (mapM_ok_iff.mp hparts), rfl⟩

theorem length_frame (n : Word .w32) : (frame n).length = 8 := length_encUint _

theorem separates_framed (hL : ∀ c, Function.Injective (L.toBin c))
    (hS : SizesDiffer S) (t : ArgTy) :
    Separates (Alike t) (Framed S t) := by
  induction t with
  | one t ht => exact (separates_sized hL hS ht unambiguous_frame).mono fun v x h => h
  | elgCom => exact (separates_elgCom (S := S) unambiguous_frame).mono fun v x h => h
  | vector t ih =>
    rintro v w _ _ ⟨hv, g, n, s, -, hs, rfl⟩ ⟨hw, g', n', s', -, hs', rfl⟩ x y hxy
    rw [List.append_assoc, List.append_assoc] at hxy
    obtain ⟨-, hrest⟩ := List.append_inj hxy ((length_frame n).trans (length_frame n').symm)
    exact separates_hashes_of ih ⟨hv, g, hs⟩ ⟨hw, g', hs'⟩ hrest

theorem separates_hashes (hL : ∀ c, Function.Injective (L.toBin c))
    (hS : SizesDiffer S) (t : ArgTy) :
    Separates (Alike (.vector t)) (Hashes S t) := separates_hashes_of (separates_framed hL hS t)

/-- Whole calls that feed the same bytes have arguments alike. -/
theorem alikeArgs_of_encodeAll (hL : ∀ c, Function.Injective (L.toBin c)) (hS : SizesDiffer S)
    {ts : List ArgTy} {v w : Args L ts} {s s' : List Octet} (hv : WholeArgs S ts v)
    (hw : WholeArgs S ts w) (hsv : encodeAll garbage ts v = .ok s)
    (hsw : encodeAll garbage' ts w = .ok s') {x y : List Octet} (hxy : s ++ x = s' ++ y) :
    AlikeArgs ts v w ∧ x = y := by
  induction ts generalizing s s' with
  | nil =>
    cases hsv
    cases hsw
    exact ⟨trivial, hxy⟩
  | cons t ts ih =>
    obtain ⟨a, ha, hsv⟩ := bind_ok_iff.mp hsv
    obtain ⟨u, hu, hsv⟩ := bind_ok_iff.mp hsv
    obtain ⟨b, hb, hsw⟩ := bind_ok_iff.mp hsw
    obtain ⟨u', hu', hsw⟩ := bind_ok_iff.mp hsw
    cases hsv
    cases hsw
    rw [List.append_assoc, List.append_assoc] at hxy
    obtain ⟨hfirst, hrest⟩ := separates_encodes hL hS t ⟨hv.1, garbage, ha⟩ ⟨hw.1, garbage', hb⟩ hxy
    obtain ⟨hlast, hxy⟩ := ih hv.2 hw.2 hu hu' hrest
    exact ⟨⟨hfirst, hlast⟩, hxy⟩

end Whole

section Cut

/-- Arguments as their types promise them: the points are of one curve, a number is not negative,
and the size of a buffer or a number is an `int`. -/
def ProperOne (c : L.Curve) : (t : Ty) → t.Val L → Prop
  | .buf, v => List.length v ≤ intMax
  | .bn, v => (0 : ℤ) ≤ v ∧ getBinSize v ≤ intMax
  | .mod, v => (0 : ℤ) ≤ v ∧ getBinSize v ≤ intMax
  | .point, v => ∃ P, v = some (c, P)
  | t, v => Proper t v

def ProperArg (c : L.Curve) : (t : ArgTy) → t.Val L → Prop
  | .one t _, v => ProperOne c t v
  | .elgCom, v => (∃ P, v.1 = some (c, P)) ∧ ∃ P, v.2 = some (c, P)
  | .vector t, v => List.length v < 2 ^ 64 ∧ List.Forall (ProperArg c t) v

def ProperArgs (c : L.Curve) : (ts : List ArgTy) → Args L ts → Prop
  | [], _ => True
  | t :: ts, v => ProperArg c t v.1 ∧ ProperArgs c ts v.2

/-- What is left of an argument when its sizes and counts are cut. -/
def cutOne : (t : Ty) → t.Val L → t.Val L
  | .string, v => List.take (List.length v % 2 ^ 32) v
  | t, v => cut t v

def cutArg : (t : ArgTy) → t.Val L → t.Val L
  | .one t _, v => cutOne t v
  | .elgCom, v => v
  | .vector t, v => List.map (cutArg t) v

def cutArgs : (ts : List ArgTy) → Args L ts → Args L ts
  | [], v => v
  | t :: ts, v => (cutArg t v.1, cutArgs ts v.2)

theorem wholeOne_cut {c : L.Curve} {t : Ty} {v : t.Val L} (h : ProperOne c t v) :
    WholeOne (· = c) t (cutOne t v) := by
  cases t with
  | string => exact lt_of_le_of_lt (List.length_take_le _ _) (Nat.mod_lt _ (by decide))
  | buf => exact h
  | bn | mod => exact h.2
  | point => exact ⟨c, h.choose, rfl, h.choose_spec⟩
  | bool | uint | int | bits | fixed | curve | ac | array | vector | boolVector | map | pair
  | fields => exact whole_cut h

theorem forall_map {α : Type} {P Q : α → Prop} {f : α → α} {v : List α}
    (h : ∀ a, P a → Q (f a)) (hv : v.Forall P) :
    (v.map f).Forall Q := by
  have hall := forall_map_take h hv v.length
  rwa [List.take_length] at hall

theorem wholeArg_cut {c : L.Curve} {t : ArgTy} {v : t.Val L} (h : ProperArg c t v) :
    WholeArg (· = c) t (cutArg t v) := by
  induction t with
  | one t ht => exact wholeOne_cut h
  | elgCom =>
    obtain ⟨⟨P, hP⟩, Q, hQ⟩ := h
    exact ⟨Option.isSome_iff_exists.mpr ⟨_, hP⟩, Option.isSome_iff_exists.mpr ⟨_, hQ⟩⟩
  | vector t ih => exact ⟨(List.length_map _).trans_lt h.1, forall_map (fun a => ih) h.2⟩

theorem wholeArgs_cut {c : L.Curve} {ts : List ArgTy} {v : Args L ts} (h : ProperArgs c ts v) :
    WholeArgs (· = c) ts (cutArgs ts v) := by
  induction ts with
  | nil => trivial
  | cons t ts ih => exact ⟨wholeArg_cut h.1, ih h.2⟩

theorem cutOne_of_whole {S : L.Curve → Prop} {t : Ty} {v : t.Val L}
    (h : WholeOne S t v) : cutOne t v = v := by
  cases t with
  | string =>
    have hlen : List.length v % 2 ^ 32 = List.length v := Nat.mod_eq_of_lt h
    change List.take (List.length v % 2 ^ 32) v = v
    rw [hlen]
    exact List.take_length
  | buf | bn | mod | point => rfl
  | bool | uint | int | bits | fixed | curve | ac | array | vector | boolVector | map | pair
  | fields => exact cut_of_whole h

theorem cutArg_of_whole {S : L.Curve → Prop} {t : ArgTy} {v : t.Val L}
    (h : WholeArg S t v) : cutArg t v = v := by
  induction t with
  | one t ht => exact cutOne_of_whole h
  | elgCom => rfl
  | vector t ih => exact map_self (fun a => ih) h.2

/-- Nothing is cut off from arguments within the limits. -/
theorem cutArgs_of_whole {S : L.Curve → Prop} {ts : List ArgTy} {v : Args L ts}
    (h : WholeArgs S ts v) : cutArgs ts v = v := by
  induction ts with
  | nil => rfl
  | cons t ts ih => exact Prod.ext (cutArg_of_whole h.1) (ih h.2)

/-- The numbers that are written by their magnitude are not negative, and the points that are
written without their curve are of one curve. -/
def Marked (c : L.Curve) : (t : ArgTy) → t.Val L → Prop
  | .one .bn _, v => (0 : ℤ) ≤ v
  | .one .mod _, v => (0 : ℤ) ≤ v
  | .one .point _, v => ∃ P, v = some (c, P)
  | .one _ _, _ => True
  | .elgCom, v => (∃ P, v.1 = some (c, P)) ∧ ∃ P, v.2 = some (c, P)
  | .vector t, v => List.Forall (Marked c t) v

theorem marked_cut {c : L.Curve} {t : ArgTy} {v : t.Val L} (h : ProperArg c t v) :
    Marked c t (cutArg t v) := by
  induction t with
  | one t ht =>
    cases t with
    | bn | mod => exact h.1
    | point => exact h
    | bool | uint | int | string | buf | bits | fixed | curve | ac | array | vector | boolVector
    | map | pair | fields => trivial
  | elgCom => exact h
  | vector t ih => exact forall_map (fun a => ih) h.2

theorem forall₂_eq {α : Type} {P : α → Prop} {E : α → α → Prop} {l l' : List α}
    (hE : ∀ a b, P a → P b → E a b → a = b) (hl : l.Forall P) (hl' : l'.Forall P)
    (h : List.Forall₂ E l l') : l = l' := by
  induction h with
  | nil => rfl
  | cons hab h ih =>
    obtain ⟨ha, hl⟩ := List.forall_cons .. |>.mp hl
    obtain ⟨hb, hl'⟩ := List.forall_cons .. |>.mp hl'
    rw [hE _ _ ha hb hab, ih hl hl']

/-- Arguments that are alike and marked are equal. -/
theorem eq_of_alike (hL : ∀ c, Function.Injective (L.toBin c)) {c : L.Curve} {t : ArgTy}
    {v w : t.Val L} (hv : Marked c t v) (hw : Marked c t w) (h : Alike t v w) : v = w := by
  induction t with
  | one t ht =>
    cases t with
    | bn | mod => exact (Int.natAbs_inj_of_nonneg_of_nonneg hv hw).mp h
    | point =>
      obtain ⟨P, rfl⟩ := hv
      obtain ⟨Q, rfl⟩ := hw
      rw [hL c (Except.ok.inj h)]
    | bool | uint | int | string | buf | bits | fixed | curve | ac | array | vector | boolVector
    | map | pair | fields => exact h
  | elgCom =>
    obtain ⟨v1, v2⟩ := v
    obtain ⟨w1, w2⟩ := w
    obtain ⟨⟨P, hP⟩, Q, hQ⟩ := hv
    obtain ⟨⟨P', hP'⟩, Q', hQ'⟩ := hw
    simp only at hP hQ hP' hQ'
    subst hP hQ hP' hQ'
    have hbytes : L.toBin c P ++ L.toBin c Q = L.toBin c P' ++ L.toBin c Q' := Except.ok.inj h
    obtain ⟨h1, h2⟩ := List.append_inj hbytes
      ((L.length_toBin c P).trans (L.length_toBin c P').symm)
    rw [hL c h1, hL c h2]
  | vector t ih => exact forall₂_eq (fun a b => ih) hv hw h

theorem eq_of_alikeArgs (hL : ∀ c, Function.Injective (L.toBin c)) {c : L.Curve}
    {ts : List ArgTy} {v w : Args L ts} (hv : ProperArgs c ts v) (hw : ProperArgs c ts w)
    (h : AlikeArgs ts (cutArgs ts v) (cutArgs ts w)) :
    cutArgs ts v = cutArgs ts w := by
  induction ts with
  | nil => rfl
  | cons t ts ih =>
    exact Prod.ext (eq_of_alike hL (marked_cut hv.1) (marked_cut hw.1) h.1) (ih hv.2 hw.2 h.2)

theorem sizesDiffer_eq (c : L.Curve) : SizesDiffer (· = c) := by
  rintro _ _ rfl rfl -
  rfl

variable {garbage} {garbage' : ℕ → Octet} {c : L.Curve}

theorem ser_independent {t : Ty} {v : t.Val L} (h : Whole t v) {s : List Octet}
    (hs : ser garbage (write t v) = .ok s) :
    ser garbage' (write t v) = .ok s := by
  obtain ⟨hsmall, rfl, hlen⟩ := ser_ok h hs
  rw [ser_eq ((writesWhen_write h).writes hsmall), if_pos hlen]

theorem stringBytes_cut (v : List Octet) :
    stringBytes (v.take (v.length % 2 ^ 32)) = stringBytes v := by
  have hsize : BitVec.ofNat 32 (v.take (v.length % 2 ^ 32)).length = BitVec.ofNat 32 v.length := by
    rw [length_take_mod, ofNat_mod]
  have hle : (BitVec.ofNat 32 v.length).toInt.toNat ≤ v.length % 2 ^ 32 := by
    rw [BitVec.toInt_eq_toNat_cond, BitVec.toNat_ofNat]
    split_ifs <;> omega
  have hbytes : ∀ v : List Octet, stringBytes v =
      (fun size : BitVec 32 => cbAssert (decide (0 ≤ size.toInt)) >>= fun _ =>
        .ok (v.take size.toInt.toNat)) (BitVec.ofNat 32 v.length) :=
    fun _ => rfl
  rw [hbytes, hbytes, hsize]
  simp only [List.take_take, min_eq_left hle]

theorem updateOne_cut {t : Ty} {v : t.Val L} (hp : ProperOne c t v) {s : List Octet}
    (h : updateOne garbage t v = .ok s) :
    updateOne garbage' t (cutOne t v) = .ok s := by
  cases t with
  | bool | uint | int | buf | bits | fixed | bn | mod | point => exact h
  | string => exact (stringBytes_cut v).trans h
  | curve | ac | array | vector | boolVector | map | pair | fields =>
    refine ser_independent (whole_cut hp) (?_ : ser garbage _ = _)
    rw [write_cut]
    exact h

theorem binSizeOne_cut (t : Ty) (v : t.Val L) : binSizeOne t (cutOne t v) = binSizeOne t v := by
  cases t with
  | bool | uint | int | buf | bits | fixed | bn | mod | point => rfl
  | string =>
    have hlen : List.length (List.take (List.length v % 2 ^ 32) v) = List.length v % 2 ^ 32 :=
      length_take_mod _ _
    exact congrArg Except.ok ((congrArg (BitVec.ofNat 32) hlen).trans (ofNat_mod 32 _))
  | curve | ac | array | vector | boolVector | map | pair
  | fields => exact congrArg convertSize (write_cut v)

theorem encodeOne_cut {t : Ty} {v : t.Val L} (hp : ProperOne c t v) {s : List Octet}
    (h : encodeOne garbage t v = .ok s) :
    encodeOne garbage' t (cutOne t v) = .ok s := by
  have hsize := binSizeOne_cut t v
  cases t with
  | array n t =>
    obtain ⟨x, hx, h⟩ := bind_ok_iff.mp h
    exact bind_ok_iff.mpr ⟨x, updateOne_cut hp hx, h⟩
  | bool | uint | int | string | buf | bits | fixed | bn | mod | curve | point | ac | vector
  | boolVector | map | pair | fields =>
    obtain ⟨n, hn, h⟩ := bind_ok_iff.mp h
    obtain ⟨x, hx, h⟩ := bind_ok_iff.mp h
    exact bind_ok_iff.mpr ⟨n, hsize.trans hn, bind_ok_iff.mpr ⟨x, updateOne_cut hp hx, h⟩⟩

/-- A loop over changed elements does what it did, element by element. -/
theorem mapM_map_ok {α β : Type} {f g : α → Outcome β} {k : α → α} {P : α → Prop}
    {l : List α} {bs : List β} (hl : l.Forall P) (h : ∀ a b, P a → f a = .ok b → g (k a) = .ok b)
    (hbs : l.mapM f = .ok bs) : (l.map k).mapM g = .ok bs := by
  rw [mapM_ok_iff] at hbs ⊢
  rw [List.forall₂_map_left_iff]
  induction hbs with
  | nil => exact .nil
  | cons ha hbs ih =>
    obtain ⟨hP, hl⟩ := List.forall_cons .. |>.mp hl
    exact .cons (h _ _ hP ha) (ih hl)

theorem encodeAndUpdate_cut {t : ArgTy} {v : t.Val L} (hp : ProperArg c t v) {s : List Octet}
    (h : encodeAndUpdate garbage t v = .ok s) :
    encodeAndUpdate garbage' t (cutArg t v) = .ok s := by
  induction t generalizing s with
  | one t ht => exact encodeOne_cut hp h
  | elgCom => exact h
  | vector t ih =>
    obtain ⟨hlen, h⟩ := cbAssert_bind_ok_iff.mp h
    obtain ⟨parts, hparts, h⟩ := bind_ok_iff.mp h
    have hmap : List.length (cutArg (.vector t) v) = List.length v := List.length_map _
    rw [← hmap] at hlen h
    exact cbAssert_bind_ok_iff.mpr ⟨hlen,
      bind_ok_iff.mpr ⟨parts, mapM_map_ok hp.2 (fun a b ha hb => ih ha hb) hparts, h⟩⟩

/-- Whatever is cut off does not show in the bytes of a call. -/
theorem encodeAll_cut {ts : List ArgTy} {v : Args L ts} (hp : ProperArgs c ts v) {s : List Octet}
    (h : encodeAll garbage ts v = .ok s) : encodeAll garbage' ts (cutArgs ts v) = .ok s := by
  induction ts generalizing s with
  | nil => exact h
  | cons t ts ih =>
    obtain ⟨x, hx, h⟩ := bind_ok_iff.mp h
    obtain ⟨y, hy, h⟩ := bind_ok_iff.mp h
    exact bind_ok_iff.mpr ⟨x, encodeAndUpdate_cut hp.1 hx, bind_ok_iff.mpr ⟨y, ih hp.2 hy, h⟩⟩

/-- The second conversion does what the first one does where that succeeds. -/
def Covers (x y : WriteM Unit) : Prop := ∀ w r, x w = .ok r → y w = .ok r

theorem Covers.whileNoError {α : Type} {x : α → WriteM Unit} {k : α → α}
    (h : ∀ a, Covers (x a) (x (k a))) (l : List α) :
    Covers (WriteM.whileNoError x l) (WriteM.whileNoError x (l.map k)) := by
  induction l with
  | nil => exact fun w r h => h
  | cons a l ih =>
    have happly : ∀ (a : α) (l : List α) (w : Writer), WriteM.whileNoError x (a :: l) w =
        (if w.error.isSome = true then (pure () : WriteM Unit) else
          x a >>= fun _ => WriteM.whileNoError x l) w := fun _ _ _ => rfl
    intro w r hr
    rw [List.map_cons, happly] at *
    split_ifs at hr ⊢
    · exact hr
    · obtain ⟨p, hp, hr⟩ := bind_ok_iff.mp hr
      exact bind_ok_iff.mpr ⟨p, h a w p hp, ih _ _ hr⟩

theorem Covers.writeVector {α : Type} {x : α → WriteM Unit} {k : α → α}
    (h : ∀ a, Covers (x a) (x (k a))) (v : List α) :
    Covers (writeVector x v) (writeVector x (v.map k)) := by
  intro w r hr
  obtain ⟨p, hp, hr⟩ := bind_ok_iff.mp hr
  rw [CbMpc.writeVector, List.length_map, ← List.map_take]
  exact bind_ok_iff.mpr ⟨p, hp, Covers.whileNoError h _ _ _ hr⟩

theorem writeM_assert_ok {b : Bool} {w : Writer} {p : Unit × Writer}
    (h : WriteM.assert b w = .ok p) : b = true := by
  cases b with
  | true => rfl
  | false => cases h

/-- The converter asserts the limit of a string. -/
theorem covers_writeString (v : List Octet) :
    Covers (writeString v) (writeString (v.take (v.length % 2 ^ 32))) := by
  intro w r hr
  obtain ⟨p, hp, -⟩ := bind_ok_iff.mp hr
  have hlen : v.length ≤ shrtMax := of_decide_eq_true (writeM_assert_ok hp)
  rw [Nat.mod_eq_of_lt (lt_of_le_of_lt hlen (by decide)), List.take_length]
  exact hr

theorem covers_writeOne (t : Ty) (v : t.Val L) : Covers (write t v) (write t (cutOne t v)) := by
  cases t with
  | string => exact covers_writeString v
  | bool | uint | int | buf | bits | fixed | bn | mod | point => exact fun w r h => h
  | curve | ac | array | vector | boolVector | map | pair | fields =>
    intro w r hr
    refine Eq.trans ?_ hr
    exact congrFun (write_cut v) w

theorem write_vector_of_ne {t : ArgTy} (h : ¬∃ h, t = .one .bool h) (v : List (t.Val L)) :
    ArgTy.write (.vector t) v = writeVector (ArgTy.write t) v := by
  cases t with
  | one t ht =>
    cases t with
    | bool => exact absurd ⟨ht, rfl⟩ h
    | uint | int | string | buf | bits | fixed | bn | mod | curve | point | ac | array | vector
    | boolVector | map | pair | fields => rfl
  | elgCom => rfl
  | vector t => rfl

theorem covers_write (t : ArgTy) (v : t.Val L) :
    Covers (ArgTy.write t v) (ArgTy.write t (cutArg t v)) := by
  induction t with
  | one t ht => exact covers_writeOne t v
  | elgCom => exact fun w r h => h
  | vector t ih =>
    by_cases hb : ∃ h, t = .one .bool h
    · obtain ⟨h, rfl⟩ := hb
      have hid : cutArg (.vector (.one .bool h)) v = v := List.map_id v
      rw [hid]
      exact fun w r h => h
    · intro w r hr
      have hv := (congrFun (write_vector_of_ne hb v) w).symm.trans hr
      exact (congrFun (write_vector_of_ne hb _) w).trans (Covers.writeVector ih v w r hv)

theorem binSize_cut {t : ArgTy} {v : t.Val L} {n : Word .w32} (h : binSize t v = .ok n) :
    binSize t (cutArg t v) = .ok n := by
  cases t with
  | one t ht => exact (binSizeOne_cut t v).trans h
  | elgCom => exact h
  | vector t =>
    obtain ⟨p, hp, h⟩ := bind_ok_iff.mp h
    exact bind_ok_iff.mpr ⟨p, covers_write _ v _ _ hp, h⟩

theorem updateState_cut {t : ArgTy} {v : t.Val L} (hp : ProperArg c t v) {s : List Octet}
    (h : updateState garbage t v = .ok s) : updateState garbage' t (cutArg t v) = .ok s := by
  induction t generalizing s with
  | one t ht => exact updateOne_cut hp h
  | elgCom => exact h
  | vector t ih =>
    obtain ⟨parts, hparts, h⟩ := bind_ok_iff.mp h
    have hmap : List.length (cutArg (.vector t) v) = List.length v := List.length_map _
    rw [← hmap] at h
    refine bind_ok_iff.mpr ⟨parts, mapM_map_ok hp.2 (fun a b ha hb => ?_) hparts, h⟩
    obtain ⟨n, hn, hb⟩ := bind_ok_iff.mp hb
    obtain ⟨x, hx, hb⟩ := bind_ok_iff.mp hb
    exact bind_ok_iff.mpr ⟨n, binSize_cut hn, bind_ok_iff.mpr ⟨x, ih ha hx, hb⟩⟩

end Cut

/-- For tuples of one list of types that are fed to HMAC, and for vectors that are fed to a hash
with anything behind them: the bytes determine the arguments exactly when nothing that tells them
apart is cut off. Within the limits nothing is. -/
theorem encode_and_update_injective (hL : ∀ c, Function.Injective (L.toBin c)) (c : L.Curve)
    (garbage garbage' : ℕ → Octet) :
    (∀ (ts : List ArgTy) (v w : Args L ts) (s s' : List Octet),
      ProperArgs c ts v → ProperArgs c ts w →
      encodeAll garbage ts v = .ok s → encodeAll garbage' ts w = .ok s' →
      ((s = s' → v = w) ↔ (cutArgs ts v = cutArgs ts w → v = w))) ∧
    (∀ (t : ArgTy) (v w : (ArgTy.vector t).Val L) (s s' : List Octet), ProperArg c (.vector t) v →
      ProperArg c (.vector t) w →
      updateState garbage (.vector t) v = .ok s → updateState garbage' (.vector t) w = .ok s' →
      ((s = s' → v = w) ↔ (cutArg (.vector t) v = cutArg (.vector t) w → v = w)) ∧
        ∀ x y, s ++ x = s' ++ y → cutArg (.vector t) v = cutArg (.vector t) w ∧ x = y) ∧
    ∀ (ts : List ArgTy) (v : Args L ts), WholeArgs (fun _ => True) ts v → cutArgs ts v = v := by
  have hS := sizesDiffer_eq c
  refine ⟨fun ts v w s s' hv hw hs hs' => ?_, fun t v w s s' hv hw hs hs' => ?_,
    fun ts v hv => cutArgs_of_whole hv⟩
  · have hcutv : encodeAll garbage ts (cutArgs ts v) = .ok s := encodeAll_cut hv hs
    have hcutw : encodeAll garbage ts (cutArgs ts w) = .ok s' := encodeAll_cut hw hs'
    constructor
    · intro h hcut
      rw [hcut] at hcutv
      exact h (Except.ok.inj (hcutv.symm.trans hcutw))
    · rintro h rfl
      have halike := alikeArgs_of_encodeAll hL hS (wholeArgs_cut hv) (wholeArgs_cut hw) hcutv hcutw
        (rfl : s ++ [] = s ++ [])
      exact h (eq_of_alikeArgs hL hv hw halike.1)
  · have hcutv : updateState garbage (.vector t) (cutArg (.vector t) v) = .ok s :=
      updateState_cut hv hs
    have hcutw : updateState garbage (.vector t) (cutArg (.vector t) w) = .ok s' :=
      updateState_cut hw hs'
    have hbytes : ∀ x y, s ++ x = s' ++ y → cutArg (.vector t) v = cutArg (.vector t) w ∧
        x = y := fun x y hxy => by
      obtain ⟨halike, hrest⟩ :=
        separates_hashes hL hS t ⟨wholeArg_cut hv, garbage, hcutv⟩ ⟨wholeArg_cut hw,
        garbage, hcutw⟩ hxy
      exact ⟨eq_of_alike hL (marked_cut hv) (marked_cut hw) halike, hrest⟩
    refine ⟨⟨fun h hcut => ?_, fun h hs => ?_⟩, hbytes⟩
    · rw [hcut] at hcutv
      exact h (Except.ok.inj (hcutv.symm.trans hcutw))
    · exact h (hbytes [] [] (by rw [hs])).1

section Examples

def sampleStrings : List ArgTy := [.one .string (by simp), .one .string (by simp)]

/-- The strings `a`, `bc` and the strings `ab`, `c`. -/
def sampleArgs : Args sampleCurves sampleStrings := ([97], [98, 99], ())

def sampleShifted : Args sampleCurves sampleStrings := ([97, 98], [99], ())

theorem encode_and_update_injective_sample :
    (([0, 0, 0, 1, 97, 0, 0, 0, 2, 98, 99] : List Octet) = [0, 0, 0, 2, 97, 98, 0, 0, 0, 1, 99] →
      sampleArgs = sampleShifted) ↔
      (cutArgs sampleStrings sampleArgs = cutArgs sampleStrings sampleShifted →
        sampleArgs = sampleShifted) :=
  (encode_and_update_injective (fun _ _ _ _ => rfl) () (fun _ => 0) (fun _ => 1)).1 sampleStrings
    sampleArgs sampleShifted _ _
    ⟨trivial, trivial, trivial⟩ ⟨trivial, trivial, trivial⟩ rfl rfl

/-- A pair of a vector of bool and a bool. -/
def flags : List ArgTy := [.one (.pair .boolVector .bool) (by simp)]

def noFlags : Args sampleCurves flags := (([], true), ())

def manyFlags : Args sampleCurves flags := ((List.replicate 65536 false, true), ())

/-- 65536 truth values are counted as none. -/
theorem encode_and_update_collides :
    encodeAll (fun _ => 0) flags manyFlags = .ok [0, 0, 0, 3, 0, 0, 1] ∧
      encodeAll (fun _ => 0) flags noFlags = .ok [0, 0, 0, 3, 0, 0, 1] ∧
      ProperArgs () flags manyFlags ∧ ProperArgs () flags noFlags ∧ manyFlags ≠ noFlags := by
  have hcut : cutBools (List.replicate 65536 false) = [] := by
    rw [cutBools, List.length_replicate]
    decide
  have hwrite : write (.pair .boolVector .bool) manyFlags.1 =
      write (.pair .boolVector .bool) noFlags.1 := by
    have hmany : writeBoolVector (List.replicate 65536 false) = writeBoolVector [] := by
      rw [← writeBoolVector_cut, hcut]
    exact congrArg (fun x => x >>= fun _ => writeRest (writeBool true)) hmany
  have hfirst : encodeOne (fun _ => 0) (.pair .boolVector .bool) manyFlags.1 =
      encodeOne (fun _ => 0) (.pair .boolVector .bool) noFlags.1 := by
    simp only [encodeOne, binSizeOne, updateOne, hwrite]
  have hencode : ∀ v : Args sampleCurves flags, encodeAll (fun _ => 0) flags v =
      (encodeOne (fun _ => 0) (.pair .boolVector .bool) v.1 >>= fun first =>
        (.ok [] : Outcome (List Octet)) >>= fun last => .ok (first ++ last)) := fun _ => rfl
  have hsame : encodeAll (fun _ => 0) flags manyFlags = encodeAll (fun _ => 0) flags noFlags := by
    rw [hencode, hencode, hfirst]
  have hnone : encodeAll (fun _ => 0) flags noFlags = .ok [0, 0, 0, 3, 0, 0, 1] := rfl
  refine ⟨hsame.trans hnone, hnone, ⟨⟨trivial, trivial⟩, trivial⟩, ⟨⟨trivial, trivial⟩, trivial⟩,
    fun h => ?_⟩
  have hlen : (List.replicate 65536 false).length = [].length :=
    congrArg (fun a : Args sampleCurves flags => List.length a.1.1) h
  rw [List.length_replicate] at hlen
  exact absurd hlen (by decide)

end Examples

end CbMpc
