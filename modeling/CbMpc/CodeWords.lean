import CbMpc.PrefixCode
import CbMpc.Serialization

/-!
# Code words of the serialization language

What is hashed is written, and never read back. So it matters which values a writer distinguishes,
among them those that no reader accepts: infinity, and numbers and containers above the limits of
the reading mode. A writer asserts most of its limits, but cuts three counts to fewer bits.
-/
namespace CbMpc

open ReadM WriteM PrefixCode

/-- The conversion writes these bytes, or asserts when the condition fails. -/
structure WritesWhen (c : Prop) (x : WriteM Unit) (bytes : List Octet) : Prop where
  writes : c → Writes x bytes
  throws : ¬c → ∀ w : Writer, w.error = none → w.offset ≤ intMax → ∃ e, x w = throwing e

section Combinators

variable {α : Type} {c c' : Prop} {x : WriteM Unit} {bytes bytes' : List Octet}

theorem WritesWhen.of_writes (h : Writes x bytes) : WritesWhen True x bytes :=
  ⟨fun _ => h, fun hc => absurd trivial hc⟩

theorem WritesWhen.iff (h : WritesWhen c x bytes) (hc : c ↔ c') : WritesWhen c' x bytes := by
  rwa [propext hc] at h

theorem writesWhen_assert {c : Prop} [Decidable c] :
    WritesWhen c (WriteM.assert (decide c)) [] where
  writes h := writes_assert (decide_eq_true h)
  throws h w _ _ := by
    rw [decide_eq_false h]
    exact ⟨.assertionFailed, rfl⟩

theorem put_ok_or_throws (bytes : List Octet) (w : Writer) :
    (∃ w', put bytes w = .ok ((), w') ∧ w'.error = w.error ∧ w'.offset ≤ intMax) ∨ ∃ e,
      put bytes w = throwing e := by
  rw [put_apply]
  split
  · exact .inl ⟨_, rfl, rfl, by assumption⟩
  · exact .inr ⟨_, rfl⟩

theorem WritesWhen.bind {f : Unit → WriteM Unit} (hx : WritesWhen c x bytes)
    (hf : WritesWhen c' (f ()) bytes') :
    WritesWhen (c ∧ c') (x >>= f) (bytes ++ bytes') where
  writes h := (hx.writes h.1).bind (hf.writes h.2)
  throws h w he hle := by
    rw [WriteM.bind_apply]
    by_cases hc : c
    · rw [hx.writes hc w he hle]
      rcases put_ok_or_throws bytes w with ⟨w', hw', he', hle'⟩ | ⟨e, hthrow⟩
      · obtain ⟨e, hthrow⟩ := hf.throws (fun hc' => h ⟨hc, hc'⟩) w' (he'.trans he) hle'
        exact ⟨e, by rw [hw', ok_bind, hthrow]⟩
      · exact ⟨e, by rw [hthrow]; rfl⟩
    · obtain ⟨e, hthrow⟩ := hx.throws hc w he hle
      exact ⟨e, by rw [hthrow]; rfl⟩

theorem WritesWhen.unless {x y : WriteM Unit} (hy : WritesWhen c y bytes) :
    WritesWhen c (WriteM.isError >>= fun e => if e = true then x else y) bytes where
  writes h := .unless (hy.writes h)
  throws h w he hle := by
    have happly : (WriteM.isError >>= fun e => if e = true then x else y) w =
      (if w.error.isSome = true then x else y) w := rfl
    rw [happly, if_neg (by simp [he])]
    exact hy.throws h w he hle

theorem writesWhen_forAll {x : α → WriteM Unit} {c : α → Prop} {e : α → List Octet} {l : List α}
    (hx : ∀ a ∈ l, WritesWhen (c a) (x a) (e a)) :
    WritesWhen (l.Forall c) (WriteM.forAll x l) (l.flatMap e) := by
  induction l with
  | nil => exact (WritesWhen.of_writes .pure).iff (by simp)
  | cons a l ih =>
    rw [List.flatMap_cons]
    exact ((hx a (by simp)).bind (ih fun b hb => hx b (by simp [hb]))).iff
      (List.forall_cons c a l).symm

theorem writesWhen_whileNoError {x : α → WriteM Unit} {c : α → Prop}
    {e : α → List Octet} {l : List α} (hx : ∀ a ∈ l, WritesWhen (c a) (x a) (e a)) :
    WritesWhen (l.Forall c) (WriteM.whileNoError x l) (l.flatMap e) := by
  induction l with
  | nil => exact (WritesWhen.of_writes .pure).iff (by simp)
  | cons a l ih =>
    rw [List.flatMap_cons]
    exact .unless (((hx a (by simp)).bind (ih fun b hb => hx b (by simp [hb]))).iff
      (List.forall_cons c a l).symm)

theorem writesWhen_writeLen (len : ℕ) :
    WritesWhen (len ≤ maxConvertLen) (writeLen len) (encLen len) where
  writes := writes_writeLen
  throws h w he hle := (writesWhen_assert.throws h w he hle).imp fun e hthrow => by
    rw [writeLen, WriteM.bind_apply, hthrow]
    rfl

theorem writesWhen_writeString (v : List Octet) :
    WritesWhen (v.length ≤ shrtMax) (writeString v) (encString v) where
  writes := writes_writeString
  throws h w he hle := (writesWhen_assert.throws h w he hle).imp fun e hthrow => by
    rw [writeString, WriteM.bind_apply, hthrow]
    rfl

theorem writesWhen_writeBn (v : ℤ) :
    WritesWhen (getBinSize v ≤ maxSerializedBignumBytes) (writeBn v) (encBn v) where
  writes := writes_writeBn
  throws h w he hle := (writesWhen_assert.throws h w he hle).imp fun e hthrow => by
    rw [writeBn, WriteM.bind_apply, hthrow]
    rfl

theorem writesWhen_writeVector {x : α → WriteM Unit} {c : α → Prop}
    {e : α → List Octet} {v : List α} (hcount : v.length < 2 ^ 32)
    (hx : ∀ a ∈ v, WritesWhen (c a) (x a) (e a)) :
    WritesWhen (v.length ≤ maxConvertLen ∧ v.Forall c) (writeVector x v) (encVector e v) := by
  unfold writeVector
  rw [Nat.mod_eq_of_lt hcount, List.take_length]
  exact (writesWhen_writeLen _).bind (writesWhen_whileNoError hx)

theorem writesWhen_writeMap {K V : Type} {writeKey : K → WriteM Unit}
    {writeItem : V → WriteM Unit} {ck : K → Prop} {ci : V → Prop} {xk : K → List Octet}
    {xi : V → List Octet} {v : List (K × V)} (hcount : v.length < 2 ^ 32)
    (hk : ∀ e ∈ v, WritesWhen (ck e.1) (writeKey e.1) (xk e.1))
    (hi : ∀ e ∈ v, WritesWhen (ci e.2) (writeItem e.2) (xi e.2)) :
    WritesWhen (v.length ≤ maxConvertLen ∧ v.Forall fun e => ck e.1 ∧
      ci e.2) (writeMap writeKey writeItem v) (encMap xk xi v) := by
  unfold writeMap
  rw [Nat.mod_eq_of_lt hcount, List.take_length]
  exact (writesWhen_writeLen _).bind (writesWhen_whileNoError fun e he => (hk e he).bind (hi e he))

end Combinators

section Words

theorem ofNat_inj {k a b : ℕ} (ha : a < 2 ^ k) (hb : b < 2 ^ k)
    (h : BitVec.ofNat k a = BitVec.ofNat k b) : a = b := by
  have hn := congrArg BitVec.toNat h
  rwa [BitVec.toNat_ofNat, BitVec.toNat_ofNat, Nat.mod_eq_of_lt ha, Nat.mod_eq_of_lt hb] at hn

theorem encUint_injective {w : IntWidth} : Function.Injective (@encUint w) := by
  intro a b h
  have hread := congrArg fromBin h
  have hlt : ∀ a : Word w, a.toNat < 256 ^ w.bytes := fun a => by
    have := a.isLt
    rwa [pow_mul] at this
  rw [encUint, encUint, fromBin_binPad (hlt a), fromBin_binPad (hlt b)] at hread
  exact BitVec.eq_of_toNat_eq hread

theorem length_encUint {w : IntWidth} (v : Word w) :
    (encUint v).length = w.bytes := length_binPad _ _

theorem unambiguous_encUint (w : IntWidth) : Unambiguous (graph (fun _ => True) (@encUint w)) := by
  refine unambiguous_of_length (n := w.bytes) ?_ ?_
  · rintro a s ⟨-, rfl⟩
    exact length_encUint a
  · rintro a b s ⟨-, rfl⟩ ⟨-, h⟩
    exact encUint_injective h

theorem toInt_ofNat_negative {n : ℕ} (hlt : n < 2 ^ 16) (h : ¬n ≤ shrtMax) :
    (BitVec.ofNat _ n : Word .w16).toInt.toNat = 0 := by
  have hmax : shrtMax = 32767 := rfl
  have hneg : (BitVec.ofNat 16 n).toInt ≤ 0 := by
    rw [BitVec.toInt_eq_toNat_cond, BitVec.toNat_ofNat, Nat.mod_eq_of_lt hlt]
    split_ifs <;> omega
  exact Int.toNat_of_nonpos hneg

end Words

section Language

variable {L : CurveTable}

/-- The truth values behind a count of 16 bits with a sign. -/
def boolWords (v : List Bool) : List Octet :=
  encUint (BitVec.ofNat _ v.length : Word .w16) ++
    (v.take (BitVec.ofNat _ v.length : Word .w16).toInt.toNat).flatMap encBool

theorem writes_boolWords (v : List Bool) : Writes (writeBoolVector v) (boolWords v) :=
  (writes_writeUint _).bind (.whileNoError fun _ _ => writes_writeUint _)

/-- What a writer emits. -/
def word : (t : Ty) → t.Val L → List Octet
  | .array _ t, v => List.flatMap (word t) v
  | .vector t, v => encVector (word t) v
  | .boolVector, v => boolWords v
  | .map k i, v => encMap (word k) (word i) v
  | .pair a b, v => word a v.1 ++ word b v.2
  | .fields a b, v => word a v.1 ++ word b v.2
  | t, v => enc t v

def WholeBools (v : List Bool) : Prop :=
  v.length < 2 ^ 16 ∧ (shrtMax < v.length → v = List.replicate v.length false)

/-- No count is cut, and the parts are what their types say: a point has a curve, an array its size,
and an access structure is one that the conversion can express. The truth values behind a negative
count are not written, so zeros stand for them. -/
def Whole : (t : Ty) → t.Val L → Prop
  | .bool, _ => True
  | .uint _, _ => True
  | .int _, _ => True
  | .string, _ => True
  | .buf, _ => True
  | .bits, _ => True
  | .fixed n, v => List.length v = n
  | .bn, _ => True
  | .mod, _ => True
  | .curve, v => Option.isSome v = true
  | .point, v => Option.isSome v = true
  | .ac, v => ValidAc v
  | .array n t, v => List.length v = n ∧ List.Forall (Whole t) v
  | .vector t, v => List.length v < 2 ^ 32 ∧ List.Forall (Whole t) v
  | .boolVector, v => WholeBools v
  | .map k i, v => List.length v < 2 ^ 32 ∧ List.Forall (fun e => Whole k e.1 ∧ Whole i e.2) v
  | .pair a b, v => Whole a v.1 ∧ Whole b v.2
  | .fields a b, v => Whole a v.1 ∧ Whole b v.2

/-- What the writing modes assert of a value. -/
def Small : (t : Ty) → t.Val L → Prop
  | .bool, _ => True
  | .uint _, _ => True
  | .int _, _ => True
  | .string, v => List.length v ≤ shrtMax
  | .buf, v => List.length v ≤ maxConvertLen
  | .bits, v => List.length v ≤ maxConvertLen
  | .fixed _, _ => True
  | .bn, v => getBinSize v ≤ maxSerializedBignumBytes
  | .mod, v => getBinSize v ≤ maxSerializedBignumBytes
  | .curve, _ => True
  | .point, _ => True
  | .ac, _ => True
  | .array _ t, v => List.Forall (Small t) v
  | .vector t, v => List.length v ≤ maxConvertLen ∧ List.Forall (Small t) v
  | .boolVector, _ => True
  | .map k i, v =>
    List.length v ≤ maxConvertLen ∧ List.Forall (fun e => Small k e.1 ∧ Small i e.2) v
  | .pair a b, v => Small a v.1 ∧ Small b v.2
  | .fields a b, v => Small a v.1 ∧ Small b v.2

theorem writes_writeAc_of_validAc {v : AcOwned L.Curve} (h : ValidAc v) :
    Writes (writeAc L v) (encAcOwned v) := by
  rcases h with rfl | ⟨curve, root, rfl, -, hconv, hlevels⟩
  · exact (writes_writeUint _).bind_end .pure
  · exact writes_writeAc hconv hlevels

/-- A value of which nothing is cut is written as its code word, or an assertion fails. -/
theorem writesWhen_write {t : Ty} {v : t.Val L} (h : Whole t v) :
    WritesWhen (Small t v) (write t v) (word t v) := by
  induction t with
  | bool => exact .of_writes (writes_writeUint _)
  | uint w => exact .of_writes (writes_writeUint v)
  | int w => exact .of_writes (writes_writeUint v)
  | string => exact writesWhen_writeString v
  | buf =>
    exact ((writesWhen_writeLen _).bind (.of_writes (writes_put v))).iff (and_iff_left trivial)
  | bits =>
    exact ((writesWhen_writeLen _).bind (.of_writes (writes_put _))).iff (and_iff_left trivial)
  | fixed n => exact .of_writes (writes_put v)
  | bn => exact writesWhen_writeBn v
  | mod => exact writesWhen_writeBn v
  | curve => exact .of_writes (writes_writeCurve L v)
  | point => exact .of_writes (writes_writePoint L v)
  | ac => exact .of_writes (writes_writeAc_of_validAc h)
  | array n t ih => exact writesWhen_forAll fun a ha => ih (List.forall_iff_forall_mem.mp h.2 a ha)
  | vector t ih =>
    exact writesWhen_writeVector h.1 fun a ha => ih (List.forall_iff_forall_mem.mp h.2 a ha)
  | boolVector => exact .of_writes (writes_boolWords v)
  | map k i ihk ihi =>
    have hall := List.forall_iff_forall_mem.mp h.2
    exact writesWhen_writeMap h.1 (fun e he => ihk (hall e he).1) fun e he => ihi (hall e he).2
  | pair a b iha ihb => exact (iha h.1).bind (.unless (ihb h.2))
  | fields a b iha ihb => exact (iha h.1).bind (ihb h.2)

/-- The size pass and the write pass of a value of which nothing is cut. -/
theorem write_ok {t : Ty} {v : t.Val L} (h : Whole t v) {w w' : Writer}
    {u : Unit} (he : w.error = none) (hle : w.offset ≤ intMax) (hw : write t v w = .ok (u, w')) :
    Small t v ∧ put (word t v) w = .ok (u, w') := by
  have hwrites := writesWhen_write h
  by_cases hsmall : Small t v
  · exact ⟨hsmall, by rw [← hwrites.writes hsmall w he hle, hw]⟩
  · obtain ⟨e, hthrow⟩ := hwrites.throws hsmall w he hle
    rw [hw] at hthrow
    cases hthrow

theorem ser_ok {garbage : ℕ → Octet} {t : Ty} {v : t.Val L} (h : Whole t v) {s : List Octet}
    (hs : ser garbage (write t v) = .ok s) : Small t v ∧ s = word t v ∧ s.length ≤ intMax := by
  obtain ⟨⟨u, w⟩, hcount, -⟩ := bind_ok_iff.mp hs
  obtain ⟨hsmall, -⟩ := write_ok h rfl (Nat.zero_le _) hcount
  rw [ser_eq ((writesWhen_write h).writes hsmall)] at hs
  split at hs
  · rename_i hlen
    cases hs
    exact ⟨hsmall, rfl, hlen⟩
  · cases hs

/-- Words that a reader decodes, whatever follows them. -/
theorem unambiguous_of_decodes {α : Type} {S : α → Prop} {e : α → List Octet} {x : ReadM α}
    (h : ∀ a, S a → Decodes x (e a) a ∧ (e a).length ≤ intMax) : Unambiguous (graph S e) := by
  rintro a b s t ⟨ha, rfl⟩ ⟨hb, rfl⟩ y z hyz
  obtain ⟨hda, hlena⟩ := h a ha
  obtain ⟨hdb, hlenb⟩ := h b hb
  -- a reader has an `int` of bytes in front of it, so the rests are cut off behind the longer word
  have hcut := congrArg (List.take (max (e a).length (e b).length)) hyz
  rw [List.take_append, List.take_append, List.take_of_length_le (le_max_left _ _),
    List.take_of_length_le (le_max_right _ _)] at hcut
  have hlen : ∀ (u : List Octet) (w : List Octet), u.length ≤ max (e a).length (e b).length →
      (u ++ w.take (max (e a).length (e b).length - u.length)).length ≤ intMax := by
    intro u w hu
    rw [List.length_append, List.length_take]
    omega
  have hra := hda _ 0 _ (hlen (e a) y (le_max_left _ _)) (Nat.zero_le _) (List.drop_zero ..)
  have hrb := hdb _ 0 _ (hlen (e b) z (le_max_right _ _)) (Nat.zero_le _) (List.drop_zero ..)
  rw [hcut, hrb] at hra
  obtain rfl : b = a := congrArg Prod.fst (Except.ok.inj hra)
  exact ⟨rfl, List.append_cancel_left hyz⟩

theorem unambiguous_encLen : Unambiguous (graph (· ≤ maxConvertLen) encLen) :=
  unambiguous_of_decodes fun len hlen => ⟨decodes_readLen hlen, by
    unfold encLen
    split_ifs <;> simp [intMax]⟩

theorem unambiguous_boolWords : Unambiguous (graph WholeBools boolWords) := by
  rintro v w _ _ ⟨hv, rfl⟩ ⟨hw, rfl⟩ x y hxy
  unfold boolWords at hxy
  rw [List.append_assoc, List.append_assoc] at hxy
  obtain ⟨hcount, hrest⟩ := unambiguous_encUint .w16 ⟨trivial, rfl⟩ ⟨trivial, rfl⟩ hxy
  have hlen : v.length = w.length := ofNat_inj hv.1 hw.1 hcount
  rw [hcount] at hrest
  by_cases hle : w.length ≤ shrtMax
  · have hbool : Unambiguous (graph (fun _ => True) encBool) :=
      unambiguous_of_decodes fun b _ =>
        ⟨decodes_readBool b, (length_encUint _).trans_le (by decide)⟩
    have hwords : ∀ u : List Bool, List.Forall₂ (graph (fun _ => True) encBool) u (u.map encBool) :=
      fun u => forall₂_words fun b _ => ⟨trivial, rfl⟩
    rw [toInt_ofNat_count hle, Int.toNat_natCast, List.take_length, ← hlen,
      List.take_length] at hrest
    exact hbool.flatten (hwords v) (hwords w) hlen hrest
  · rw [toInt_ofNat_negative hw.1 hle, List.take_zero, List.take_zero] at hrest
    rw [hv.2 (hlen ▸ not_le.mp hle), hw.2 (not_le.mp hle), hlen]
    exact ⟨rfl, hrest⟩

/-- The values that a writer can put into a buffer without cutting anything. -/
def Coded (t : Ty) (v : t.Val L) : Prop := Whole t v ∧ Small t v ∧ (word t v).length ≤ intMax

theorem length_le_length_flatMap {α : Type} {e : α → List Octet} {l : List α} {a : α} (h : a ∈ l) :
    (e a).length ≤ (l.flatMap e).length := by
  obtain ⟨l₁, l₂, rfl⟩ := List.append_of_mem h
  simp only [List.flatMap_append, List.flatMap_cons, List.length_append]
  omega

theorem unambiguous_encPoint (hL : ∀ c, Function.Injective (L.toBin c)) :
    Unambiguous (graph (fun P => Option.isSome P = true) (encPoint L)) := by
  rintro a b s t ⟨ha, rfl⟩ ⟨hb, rfl⟩ x y hxy
  obtain ⟨⟨c, P⟩, rfl⟩ := Option.isSome_iff_exists.mp ha
  obtain ⟨⟨d, Q⟩, rfl⟩ := Option.isSome_iff_exists.mp hb
  have hcurve : Unambiguous (graph (fun _ => True) fun c => encCurve L (some c)) := by
    have hdecodes := @unambiguous_of_decodes _ (fun o => ∃ c, o = some c)
        (encCurve L) (readCurve L) (by
      rintro _ ⟨c, rfl⟩
      refine ⟨decodes_readCurve L c, ?_⟩
      rw [encCurve, encUint, length_binPad]
      decide)
    intro c d u v hu hv y z hyz
    obtain ⟨hcd, hrest⟩ := hdecodes ⟨⟨c, rfl⟩, hu.2⟩ ⟨⟨d, rfl⟩, hv.2⟩ hyz
    exact ⟨Option.some.inj hcd, hrest⟩
  simp only [encPoint, Option.map_some, Option.getD_some, List.append_assoc] at hxy
  obtain ⟨rfl, hrest⟩ := hcurve ⟨trivial, rfl⟩ ⟨trivial, rfl⟩ hxy
  obtain ⟨hbin, hxy⟩ := List.append_inj hrest ((L.length_toBin c P).trans (L.length_toBin c Q).symm)
  rw [hL c hbin]
  exact ⟨rfl, hxy⟩

/-- Code words do not run into each other, and no two values share one. -/
theorem unambiguous_enc (hL : ∀ c, Function.Injective (L.toBin c)) (t : Ty) :
    Unambiguous (graph (@Coded L t) (word t)) := by
  induction t with
  | bool => exact unambiguous_of_decodes fun v hv => ⟨decodes_readBool v, hv.2.2⟩
  | uint w => exact unambiguous_of_decodes fun v hv => ⟨decodes_readUint v, hv.2.2⟩
  | int w => exact unambiguous_of_decodes fun v hv => ⟨decodes_readUint v, hv.2.2⟩
  | string => exact unambiguous_of_decodes fun v hv => ⟨decodes_readString hv.2.1, hv.2.2⟩
  | buf => exact unambiguous_of_decodes fun v hv => ⟨decodes_readBuf hv.2.1, hv.2.2⟩
  | bits => exact unambiguous_of_decodes fun v hv => ⟨decodes_readBits hv.2.1, hv.2.2⟩
  | fixed n =>
    refine unambiguous_of_length (n := n) ?_ ?_
    · rintro v s ⟨hv, rfl⟩
      exact hv.1
    · rintro v w s ⟨-, rfl⟩ ⟨-, hw⟩
      exact hw
  | bn => exact unambiguous_of_decodes fun v hv => ⟨decodes_readBn hv.2.1, hv.2.2⟩
  | mod => exact unambiguous_of_decodes fun v hv => ⟨decodes_readBn hv.2.1, hv.2.2⟩
  | curve =>
    refine @unambiguous_of_decodes _ _ _ (readCurve L) fun v hv => ⟨?_, hv.2.2⟩
    obtain ⟨c, rfl⟩ : ∃ c, v = some c := Option.isSome_iff_exists.mp hv.1
    exact decodes_readCurve L c
  | point => exact (unambiguous_encPoint hL).mono fun v s hv => ⟨hv.1.1, hv.2⟩
  | ac =>
    refine @unambiguous_of_decodes _ _ _ (readAc L) fun v hv => ⟨?_, hv.2.2⟩
    rcases hv.1 with rfl | ⟨curve, root, rfl, hvalid, hconv, hlevels⟩
    · exact (decodes_readBool false).bind_end (.pure _)
    · exact decodes_readAc hvalid hconv hlevels
  | array n t ih =>
    rintro v w s s' ⟨⟨hv, hsv, hlv⟩, rfl⟩ ⟨⟨hw, hsw, hlw⟩, rfl⟩ x y hxy
    have hwords : ∀ {u : List (t.Val L)}, List.Forall (Whole t) u → List.Forall (Small t) u →
        (u.flatMap (word t)).length ≤ intMax →
        List.Forall₂ (graph (Coded t) (word t)) u (u.map (word t)) :=
      fun hu hsu hlu => forall₂_words fun a ha => ⟨⟨List.forall_iff_forall_mem.mp hu a ha,
        List.forall_iff_forall_mem.mp hsu a ha, (length_le_length_flatMap ha).trans hlu⟩, rfl⟩
    exact ih.flatten (hwords hv.2 hsv hlv) (hwords hw.2 hsw hlw) (hv.1.trans hw.1.symm) hxy
  | vector t ih =>
    refine (ih.counted unambiguous_encLen).mono ?_
    rintro v s ⟨⟨hv, hsv, hlv⟩, rfl⟩
    refine ⟨encLen (List.length v), List.map (word t) v, ⟨hsv.1, rfl⟩,
      forall₂_words fun a ha => ?_, rfl⟩
    have hle : (word t a).length ≤ (encVector (word t) v).length := by
      rw [encVector, List.length_append]
      exact (length_le_length_flatMap ha).trans (Nat.le_add_left _ _)
    exact ⟨⟨List.forall_iff_forall_mem.mp hv.2 a ha, List.forall_iff_forall_mem.mp hsv.2 a ha,
      hle.trans hlv⟩, rfl⟩
  | boolVector => exact unambiguous_boolWords.mono fun v s hv => ⟨hv.1.1, hv.2⟩
  | map k i ihk ihi =>
    refine ((ihk.pair ihi).counted unambiguous_encLen).mono ?_
    rintro v s ⟨⟨hv, hsv, hlv⟩, rfl⟩
    refine ⟨encLen (List.length v), List.map (fun e => word k e.1 ++ word i e.2) v, ⟨hsv.1, rfl⟩,
      forall₂_words fun e he => ?_, rfl⟩
    have hsum : (word (.map k i) v).length = (encLen (List.length v)).length +
      (List.flatMap (fun e => word k e.1 ++ word i e.2) v).length := List.length_append
    have hlen : (word k e.1 ++ word i e.2).length ≤ intMax :=
      ((length_le_length_flatMap (e := fun e => word k e.1 ++ word i e.2) he).trans
        (by omega)).trans hlv
    rw [List.length_append] at hlen
    have hwhole := List.forall_iff_forall_mem.mp hv.2 e he
    have hsmall := List.forall_iff_forall_mem.mp hsv.2 e he
    exact ⟨word k e.1, word i e.2, ⟨⟨hwhole.1, hsmall.1, by omega⟩, rfl⟩,
      ⟨⟨hwhole.2, hsmall.2, by omega⟩, rfl⟩, rfl⟩
  | pair a b iha ihb =>
    refine (iha.pair ihb).mono ?_
    rintro v s ⟨⟨hv, hsv, hlv⟩, rfl⟩
    have hlen : (word a v.1 ++ word b v.2).length ≤ intMax := hlv
    rw [List.length_append] at hlen
    exact ⟨word a v.1, word b v.2, ⟨⟨hv.1, hsv.1, by omega⟩, rfl⟩,
      ⟨⟨hv.2, hsv.2, by omega⟩, rfl⟩, rfl⟩
  | fields a b iha ihb =>
    refine (iha.pair ihb).mono ?_
    rintro v s ⟨⟨hv, hsv, hlv⟩, rfl⟩
    have hlen : (word a v.1 ++ word b v.2).length ≤ intMax := hlv
    rw [List.length_append] at hlen
    exact ⟨word a v.1, word b v.2, ⟨⟨hv.1, hsv.1, by omega⟩, rfl⟩,
      ⟨⟨hv.2, hsv.2, by omega⟩, rfl⟩, rfl⟩

section Cut

/-- What the types themselves promise of a value. -/
def Proper : (t : Ty) → t.Val L → Prop
  | .fixed n, v => List.length v = n
  | .curve, v => Option.isSome v = true
  | .point, v => Option.isSome v = true
  | .ac, v => ValidAc v
  | .array n t, v => List.length v = n ∧ List.Forall (Proper t) v
  | .vector t, v => List.Forall (Proper t) v
  | .map k i, v => List.Forall (fun e => Proper k e.1 ∧ Proper i e.2) v
  | .pair a b, v => Proper a v.1 ∧ Proper b v.2
  | .fields a b, v => Proper a v.1 ∧ Proper b v.2
  | _, _ => True

def cutBools (v : List Bool) : List Bool :=
  if v.length % 2 ^ 16 ≤ shrtMax then v.take (v.length % 2 ^ 16) else
    List.replicate (v.length % 2 ^ 16) false

/-- What is left of a value when the counts of its containers are cut to 32 bits, or 16 with a
sign. -/
def cut : (t : Ty) → t.Val L → t.Val L
  | .array _ t, v => List.map (cut t) v
  | .vector t, v => List.map (cut t) (List.take (List.length v % 2 ^ 32) v)
  | .boolVector, v => cutBools v
  | .map k i, v => List.map (fun e => (cut k e.1, cut i e.2)) (List.take (List.length v % 2 ^ 32) v)
  | .pair a b, v => (cut a v.1, cut b v.2)
  | .fields a b, v => (cut a v.1, cut b v.2)
  | _, v => v

theorem forAll_map {α : Type} {x : α → WriteM Unit} {f : α → α} {l : List α}
    (h : ∀ a ∈ l, x (f a) = x a) :
    WriteM.forAll x (l.map f) = WriteM.forAll x l := by
  induction l with
  | nil => rfl
  | cons a l ih =>
    rw [List.map_cons, WriteM.forAll, WriteM.forAll, h a (by simp),
      ih fun b hb => h b (by simp [hb])]

theorem whileNoError_map {α : Type} {x : α → WriteM Unit} {f : α → α} {l : List α}
    (h : ∀ a ∈ l, x (f a) = x a) :
    WriteM.whileNoError x (l.map f) = WriteM.whileNoError x l := by
  induction l with
  | nil => rfl
  | cons a l ih =>
    rw [List.map_cons, WriteM.whileNoError, WriteM.whileNoError, h a (by simp),
      ih fun b hb => h b (by simp [hb])]

theorem length_take_mod {α : Type} (v : List α) (k : ℕ) :
    (v.take (v.length % k)).length = v.length % k := by
  rw [List.length_take, min_eq_left (Nat.mod_le _ _)]

/-- The loop over a container sees the cut count and what it does with each element. -/
theorem writeVector_cut {α : Type} {x : α → WriteM Unit} {f : α → α} {v : List α}
    (h : ∀ a, x (f a) = x a) :
    writeVector x ((v.take (v.length % 2 ^ 32)).map f) = writeVector x v := by
  have hlen : ((v.take (v.length % 2 ^ 32)).map f).length = v.length % 2 ^ 32 := by
    rw [List.length_map, length_take_mod]
  rw [writeVector, hlen, Nat.mod_mod, List.take_of_length_le hlen.le,
    whileNoError_map fun a _ => h a, writeVector]

theorem writeMap_cut {K V : Type} {writeKey : K → WriteM Unit} {writeItem : V → WriteM Unit}
    {f : K × V → K × V} {v : List (K × V)}
    (h : ∀ e, (do writeKey (f e).1; writeItem (f e).2) = (do writeKey e.1; writeItem e.2)) :
    writeMap writeKey writeItem ((v.take (v.length % 2 ^ 32)).map f) =
      writeMap writeKey writeItem v :=
  writeVector_cut h

theorem ofNat_mod (k n : ℕ) : BitVec.ofNat k (n % 2 ^ k) = BitVec.ofNat k n := by
  apply BitVec.eq_of_toNat_eq
  rw [BitVec.toNat_ofNat, BitVec.toNat_ofNat, Nat.mod_mod]

theorem length_cutBools (v : List Bool) : (cutBools v).length = v.length % 2 ^ 16 := by
  rw [cutBools]
  split_ifs
  · exact length_take_mod _ _
  · exact List.length_replicate

theorem writeBoolVector_cut (v : List Bool) : writeBoolVector (cutBools v) = writeBoolVector v := by
  have hcount : (BitVec.ofNat _ (cutBools v).length : Word .w16) = BitVec.ofNat _ v.length := by
    rw [length_cutBools]
    exact ofNat_mod 16 _
  rw [writeBoolVector, writeBoolVector, hcount]
  have hlt := Nat.mod_lt v.length (by decide : 0 < 2 ^ 16)
  have htake : (cutBools v).take (BitVec.ofNat 16 v.length).toInt.toNat =
      v.take (BitVec.ofNat 16 v.length).toInt.toNat := by
    rw [← ofNat_mod 16, cutBools]
    split_ifs with h
    · have hint : (BitVec.ofNat 16 (v.length % 2 ^ 16)).toInt = (v.length % 2 ^ 16 : ℕ) :=
        toInt_ofNat_count h
      rw [hint, Int.toNat_natCast, List.take_take, min_self]
    · have hzero : (BitVec.ofNat 16 (v.length % 2 ^ 16)).toInt.toNat = 0 :=
        toInt_ofNat_negative hlt h
      rw [hzero, List.take_zero, List.take_zero]
  exact congrArg (fun l => writeUint (BitVec.ofNat _ v.length : Word .w16) >>= fun _ =>
    WriteM.whileNoError writeBool l) htake

theorem write_cut_vector {t : Ty}
    (h : ∀ a : t.Val L, write t (cut t a) = write t a) (v : List (t.Val L)) :
    write (.vector t) (cut (.vector t) v) = write (.vector t) v :=
  (writeVector_cut (v := v) h : writeVector (write t) ((v.take (v.length % 2 ^ 32)).map (cut t)) =
    writeVector (write t) v)

/-- What is cut off does not show in what is written. -/
theorem write_cut {t : Ty} (v : t.Val L) : write t (cut t v) = write t v := by
  induction t with
  | bool | uint | int | string | buf | bits | fixed | bn | mod | curve | point | ac => rfl
  | array n t ih => exact forAll_map fun a _ => ih a
  | vector t ih => exact write_cut_vector ih v
  | boolVector => exact writeBoolVector_cut v
  | map k i ihk ihi =>
    rw [write, write]
    refine writeMap_cut fun e => ?_
    simp only [ihk, ihi]
  | pair a b iha ihb =>
    change (do write a (cut a v.1); writeRest (write b (cut b v.2))) =
      do write a v.1; writeRest (write b v.2)
    rw [iha, ihb]
  | fields a b iha ihb =>
    change (do write a (cut a v.1); write b (cut b v.2)) = do write a v.1; write b v.2
    rw [iha, ihb]

theorem forall_map_take {α : Type} {P Q : α → Prop} {f : α → α} {v : List α}
    (h : ∀ a, P a → Q (f a)) (hv : v.Forall P) (n : ℕ) :
    ((v.take n).map f).Forall Q := by
  rw [List.forall_iff_forall_mem] at hv ⊢
  intro b hb
  obtain ⟨a, ha, rfl⟩ := List.mem_map.mp hb
  exact h a (hv a (List.mem_of_mem_take ha))

theorem length_map_take_lt {α : Type} (f : α → α) (v : List α) :
    ((v.take (v.length % 2 ^ 32)).map f).length < 2 ^ 32 := by
  rw [List.length_map, length_take_mod]
  exact Nat.mod_lt _ (by decide)

theorem wholeBools_cut (v : List Bool) : WholeBools (cutBools v) := by
  refine ⟨(length_cutBools v).trans_lt (Nat.mod_lt _ (by decide)), fun hlen => ?_⟩
  rw [length_cutBools] at hlen ⊢
  rw [cutBools, if_neg (not_le.mpr hlen)]

theorem cutBools_of_whole {v : List Bool} (h : WholeBools v) : cutBools v = v := by
  rw [cutBools, Nat.mod_eq_of_lt h.1]
  split_ifs with hle
  · exact List.take_length
  · exact (h.2 (not_le.mp hle)).symm

theorem whole_cut {t : Ty} {v : t.Val L} (h : Proper t v) : Whole t (cut t v) := by
  induction t with
  | bool | uint | int | string | buf | bits | bn | mod => trivial
  | fixed | curve | point | ac => exact h
  | array n t ih =>
    refine ⟨(List.length_map _).trans h.1, ?_⟩
    have hall := forall_map_take (f := cut t) (fun a => ih) h.2 (List.length v)
    have htake : List.take (List.length v) v = v := List.take_length
    rwa [htake] at hall
  | vector t ih => exact ⟨length_map_take_lt _ _, forall_map_take (fun a => ih) h _⟩
  | boolVector => exact wholeBools_cut v
  | map k i ihk ihi =>
    exact ⟨length_map_take_lt _ _, forall_map_take (fun e he => ⟨ihk he.1, ihi he.2⟩) h _⟩
  | pair a b iha ihb => exact ⟨iha h.1, ihb h.2⟩
  | fields a b iha ihb => exact ⟨iha h.1, ihb h.2⟩

theorem map_self {α : Type} {P : α → Prop} {f : α → α} {v : List α} (hf : ∀ a, P a → f a = a)
    (hv : v.Forall P) : v.map f = v := by
  rw [List.forall_iff_forall_mem] at hv
  exact (List.map_congr_left fun a ha => hf a (hv a ha)).trans (List.map_id _)

theorem map_take_self {α : Type} {P : α → Prop} {f : α → α} {v : List α} (hf : ∀ a, P a → f a = a)
    (hlen : v.length < 2 ^ 32) (hv : v.Forall P) : (v.take (v.length % 2 ^ 32)).map f = v := by
  rw [Nat.mod_eq_of_lt hlen, List.take_length]
  exact map_self hf hv

theorem cut_of_whole {t : Ty} {v : t.Val L} (h : Whole t v) : cut t v = v := by
  induction t with
  | bool | uint | int | string | buf | bits | fixed | bn | mod | curve | point | ac => rfl
  | array n t ih => exact map_self (fun a => ih) h.2
  | vector t ih => exact map_take_self (fun a => ih) h.1 h.2
  | boolVector => exact cutBools_of_whole h
  | map k i ihk ihi => exact map_take_self (fun e he => Prod.ext (ihk he.1) (ihi he.2)) h.1 h.2
  | pair a b iha ihb => exact Prod.ext (iha h.1) (ihb h.2)
  | fields a b iha ihb => exact Prod.ext (iha h.1) (ihb h.2)

end Cut

end Language

end CbMpc
