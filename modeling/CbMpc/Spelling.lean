import CbMpc.Received

/-!
# Spellings

A reader accepts more than what the writers write: a length prefix may be longer than it has to be,
a number may start with zero bytes, the entries of a map may come in any order, and a point may be
written in any way that its curve decodes. The grammar below has a lenient reading, which is what
the readers accept, and a strict reading, which is what the writers write.
-/
namespace CbMpc

open ReadM

namespace ReadM

variable {α β : Type}

/-- Without an error, the bytes that were read spell the value. -/
def Consumes (x : ReadM α) (S : List Octet → α → Prop) : Prop :=
  ∀ r a r', x r = .ok (a, r') → r'.error = none →
    ∃ w rest, r.src.drop r.offset = w ++ rest ∧ r'.src = r.src ∧
    r'.offset = r.offset + w.length ∧ S w a

theorem Consumes.mono {x : ReadM α} {S T : List Octet → α → Prop} (hx : Consumes x S)
    (h : ∀ w a, S w a → T w a) :
    Consumes x T := by
  intro r a r' hr he
  obtain ⟨w, rest, hdrop, hsrc, hoffset, hw⟩ := hx r a r' hr he
  exact ⟨w, rest, hdrop, hsrc, hoffset, h w a hw⟩

theorem Consumes.pure {S : List Octet → α → Prop} {a : α} (h : S [] a) : Consumes (pure a) S := by
  intro r b r' hr _
  cases hr
  exact ⟨[], r.src.drop r.offset, rfl, rfl, rfl, h⟩

theorem Consumes.bind {x : ReadM α} {f : α → ReadM β} {S : List Octet → α → Prop}
    {T : List Octet → β → Prop} (hx : Consumes x S)
    (hf : ∀ a w, S w a → Consumes (f a) fun w' b => T (w ++ w') b) (hs : ∀ a, Stable (f a)) :
    Consumes (x >>= f) T := by
  intro r b r'' h he
  rw [bind_apply] at h
  obtain ⟨⟨a, r'⟩, hxr, hfr⟩ := bind_ok_iff.mp h
  obtain ⟨w, rest, hdrop, hsrc, hoffset, hw⟩ := hx r a r' hxr (hs a r' b r'' hfr he).1
  obtain ⟨w', rest', hdrop', hsrc', hoffset', hw'⟩ := hf a w hw r' b r'' hfr he
  have hrest : rest = w' ++ rest' := by
    rw [← hdrop', hsrc, hoffset, ← List.drop_drop, hdrop, List.drop_left]
  refine ⟨w ++ w', rest', by rw [hdrop, hrest, List.append_assoc], hsrc'.trans hsrc, ?_, hw'⟩
  rw [hoffset', hoffset, List.length_append, Nat.add_assoc]

theorem Consumes.ite {c : Prop} [Decidable c] {x y : ReadM α}
    {S : List Octet → α → Prop} (hx : c → Consumes x S) (hy : ¬ c → Consumes y S) :
    Consumes (if c then x else y) S := by
  by_cases h : c
  · rw [if_pos h]
    exact hx h
  · rw [if_neg h]
    exact hy h

theorem consumes_setError (rv : ErrorCode) (a : α) (S : List Octet → α → Prop) :
    Consumes (setError rv >>= fun _ => Pure.pure a) S := by
  intro r b r' h he
  cases h
  exact absurd he (r.error_setError_ne_none rv)

theorem consumes_isError : Consumes isError fun w e => w = [] ∧ e = false := by
  intro r e r' h he
  cases h
  exact ⟨[], r.src.drop r.offset, rfl, rfl, rfl, rfl, by simp [he]⟩

theorem consumes_ensure (n : ℕ) : Consumes (ensure n) fun w b => w = [] ∧ b = true := by
  intro r b r' h he
  rw [ensure_apply] at h
  split_ifs at h
  · cases h
    exact ⟨[], r.src.drop r.offset, rfl, rfl, rfl, rfl, rfl⟩
  · cases h
    exact absurd he (r.error_setError_ne_none .format)

/-- After a test of the error flag, which was not set. -/
theorem Consumes.unless {x y : ReadM α} {S : List Octet → α → Prop} (hx : Consumes x S)
    (hs : Stable x) (hy : Stable y) :
    Consumes (isError >>= fun e => if e = true then y else x) S := by
  refine consumes_isError.bind (fun e w hw => ?_) fun e => .ite hy hs
  obtain ⟨rfl, rfl⟩ := hw
  exact hx

theorem Consumes.afterEnsure {x y : ReadM α} {n : ℕ} {S : List Octet → α → Prop}
    (hx : Consumes x S) (hs : Stable x) (hy : Stable y) :
    Consumes (ensure n >>= fun b => if b = true then x else y) S := by
  refine (consumes_ensure n).bind (fun b w hw => ?_) fun b => .ite hs hy
  obtain ⟨rfl, rfl⟩ := hw
  exact hx

/-- Bytes are there, and their use accepted them. -/
theorem consumes_checked (n : ℕ) (f : List Octet → Except ErrorCode α) :
    Consumes (checked n f) fun w o => w.length = n ∧ ∃ a, f w = .ok a ∧ o = some a := by
  intro r o r' h he
  have hsticky := (stable_checked n f r o r' h he).1
  unfold checked at h
  rw [bind_apply, isError_apply, ok_bind, hsticky] at h
  simp only [Option.isSome_none, Bool.false_eq_true, if_false] at h
  rw [bind_apply, ensure_apply, ok_bind] at h
  by_cases hn : r.offset ≤ r.src.length ∧ n ≤ r.src.length - r.offset
  · rw [if_pos hn] at h
    simp only [if_true] at h
    rw [bind_apply, current_apply (by omega), ok_bind] at h
    cases hf : f ((r.src.drop r.offset).take n) with
    | error rv =>
      simp only [hf] at h
      cases h
      exact absurd he (r.error_setError_ne_none rv)
    | ok a =>
      simp only [hf] at h
      rw [bind_apply, forward_eq] at h
      obtain ⟨⟨u, r₁⟩, hforward, h⟩ := bind_ok_iff.mp h
      obtain ⟨-, hforward⟩ := cbAssert_bind_ok_iff.mp hforward
      cases hforward
      cases h
      have hlen : ((r.src.drop r.offset).take n).length = n := by
        rw [List.length_take, List.length_drop]
        omega
      refine ⟨(r.src.drop r.offset).take n, (r.src.drop r.offset).drop n,
        (List.take_append_drop n _).symm, rfl, ?_, hlen, a, hf, rfl⟩
      rw [hlen]
  · rw [if_neg hn] at h
    cases h
    exact absurd he (r.error_setError_ne_none .format)

theorem consumes_fetch (n : ℕ) : Consumes (fetch n) fun w o => w.length = n ∧ o = some w := by
  refine (consumes_checked n .ok).mono fun w o hw => ?_
  obtain ⟨hlen, a, ha, ho⟩ := hw
  cases ha
  exact ⟨hlen, ho⟩

end ReadM

/-- What a reader accepts, and what a writer writes. -/
inductive Reading where
  | lenient | strict
  deriving DecidableEq

/-- The length prefix with `k` bytes after the first, which begins with `k` ones. -/
def lenForm (k n : ℕ) : List Octet :=
  Fin.ofNat 256 (n / 256 ^ k + (256 - 2 ^ (8 - k))) :: binPad k n

/-- A prefix of at most four bytes. The strict reading wants the shortest one that has room. -/
def Reading.Len : Reading → List Octet → ℕ → Prop
  | .lenient, p, n => n ≤ maxConvertLen ∧ ∃ k < 4, n < 2 ^ (7 * (k + 1)) ∧ p = lenForm k n
  | .strict, p, n =>
    n ≤ maxConvertLen ∧ ∃ k < 4, n < 2 ^ (7 * (k + 1)) ∧ p = lenForm k n ∧ ∀ j < k,
      2 ^ (7 * (j + 1)) ≤ n

section Leaves

theorem length_lenForm (k n : ℕ) : (lenForm k n).length = k + 1 := by
  rw [lenForm, List.length_cons, length_binPad]

theorem encLen_eq_lenForm {k n : ℕ} (hk : k < 4) (hn : n < 2 ^ (7 * (k + 1)))
    (hj : ∀ j < k, 2 ^ (7 * (j + 1)) ≤ n) :
    encLen n = lenForm k n := by
  interval_cases k
  · rw [encLen, if_pos (by omega)]
    simp [lenForm, binPad]
  · have h0 := hj 0 (by omega)
    rw [encLen, if_neg (by omega), if_pos (by omega)]
    simp [lenForm, binPad]
  · have h1 := hj 1 (by omega)
    rw [encLen, if_neg (by omega), if_neg (by omega), if_pos (by omega)]
    simp [lenForm, binPad]
  · have h2 := hj 2 (by omega)
    rw [encLen, if_neg (by omega), if_neg (by omega), if_neg (by omega)]
    simp [lenForm, binPad, Nat.div_div_eq_div_mul]

/-- The shortest prefix is the one that is written. -/
theorem strict_len_iff {p : List Octet} {n : ℕ} :
    Reading.strict.Len p n ↔ n ≤ maxConvertLen ∧ p = encLen n := by
  constructor
  · rintro ⟨hmax, k, hk, hn, rfl, hj⟩
    exact ⟨hmax, (encLen_eq_lenForm hk hn hj).symm⟩
  · rintro ⟨hmax, rfl⟩
    have hconv : maxConvertLen = 67108864 := rfl
    have hroom : ∃ k, n < 2 ^ (7 * (k + 1)) := ⟨3, by omega⟩
    have hspec := Nat.find_spec hroom
    have hk : Nat.find hroom < 4 :=
      Nat.lt_of_le_of_lt (Nat.find_min' hroom (m := 3) (by omega)) (by omega)
    have hj : ∀ j < Nat.find hroom, 2 ^ (7 * (j + 1)) ≤ n := fun j hj =>
      not_lt.mp (Nat.find_min hroom hj)
    exact ⟨hmax, _, hk, hspec, encLen_eq_lenForm hk hspec hj, hj⟩

theorem Reading.Len.le_max {i : Reading} {p : List Octet} {n : ℕ}
    (h : i.Len p n) : n ≤ maxConvertLen := by
  cases i <;> exact h.1

theorem Reading.Len.lenient {i : Reading} {p : List Octet} {n : ℕ} (h : i.Len p n) :
    Reading.lenient.Len p n := by
  cases i with
  | lenient => exact h
  | strict =>
    obtain ⟨hmax, k, hk, hn, hp, -⟩ := h
    exact ⟨hmax, k, hk, hn, hp⟩

/-- No prefix of a length is shorter than the one that is written. -/
theorem length_encLen_le_of_len {i : Reading} {p : List Octet} {n : ℕ} (h : i.Len p n) :
    (encLen n).length ≤ p.length := by
  obtain ⟨-, k, hk, hn, rfl⟩ := h.lenient
  rw [length_lenForm, encLen]
  interval_cases k <;> split_ifs <;> simp only [List.length_cons, List.length_nil] <;> omega

theorem consumes_readUint (w : IntWidth) :
    Consumes (readUint w) fun bytes v => bytes = encUint v := by
  refine (consumes_fetch _).bind (fun o bytes ho => ?_) fun o => ?_
  · obtain ⟨hlen, rfl⟩ := ho
    apply Consumes.pure
    have hlt := fromBin_lt bytes
    have hpow : 2 ^ (8 * w.bytes) = 256 ^ w.bytes := pow_mul 2 8 w.bytes
    rw [hlen] at hlt
    rw [List.append_nil, encUint, BitVec.toNat_ofNat, Nat.mod_eq_of_lt (by rw [hpow]; exact hlt),
      ← hlen, binPad_fromBin]
  · cases o <;> exact .pure _

theorem consumes_readByte :
    Consumes readByte fun bytes b => bytes = [Fin.ofNat 256 b] ∧ b < 256 := by
  refine (consumes_readUint .w8).bind (fun v bytes hv => ?_) fun _ => .pure _
  apply Consumes.pure
  have hlt := v.isLt
  refine ⟨?_, hlt⟩
  rw [List.append_nil, hv]
  rfl

theorem consumes_checkLen (len : ℕ) : Consumes (checkLen len) fun w n => w = [] ∧ n = len ∧
    len ≤ maxConvertLen := by
  refine .unless (.ite (fun _ => consumes_setError _ _ _) fun h =>
    .pure ⟨rfl, rfl, not_lt.mp h⟩) ?_ (.pure 0)
  exact .ite (sound_setError .format 0).stable (.pure len)

/-- The bytes after the first, which end a prefix. -/
theorem consumes_tail1 (f : ℕ → ℕ) : Consumes (readByte >>= fun b => checkLen (f b)) fun w n =>
    ∃ b < 256, w = [Fin.ofNat 256 b] ∧ n = f b ∧ n ≤ maxConvertLen := by
  refine consumes_readByte.bind (fun b w hw => (consumes_checkLen (f b)).mono fun w' n hn => ?_)
    fun b => (sound_checkLen (f b)).stable
  obtain ⟨rfl, hb⟩ := hw
  obtain ⟨rfl, rfl, hmax⟩ := hn
  exact ⟨b, hb, List.append_nil _, rfl, hmax⟩

theorem consumes_tail2 (f : ℕ → ℕ → ℕ) :
    Consumes (readByte >>= fun b₁ => readByte >>= fun b₂ => checkLen (f b₁ b₂)) fun w n =>
    ∃ b₁ < 256, ∃ b₂ < 256, w = [Fin.ofNat 256 b₁, Fin.ofNat 256 b₂] ∧
        n = f b₁ b₂ ∧ n ≤ maxConvertLen := by
  refine consumes_readByte.bind (fun b w hw => (consumes_tail1 (f b)).mono fun w' n hn => ?_)
    fun b => (sound_readByte.bind fun c => sound_checkLen (f b c)).stable
  obtain ⟨rfl, hb⟩ := hw
  obtain ⟨c, hc, rfl, hn⟩ := hn
  exact ⟨b, hb, c, hc, rfl, hn⟩

theorem consumes_tail3 (f : ℕ → ℕ → ℕ → ℕ) :
    Consumes (readByte >>= fun b₁ => readByte >>= fun b₂ => readByte >>= fun b₃ =>
      checkLen (f b₁ b₂ b₃)) fun w n =>
      ∃ b₁ < 256, ∃ b₂ < 256, ∃ b₃ < 256,
        w = [Fin.ofNat 256 b₁, Fin.ofNat 256 b₂, Fin.ofNat 256 b₃] ∧
        n = f b₁ b₂ b₃ ∧ n ≤ maxConvertLen := by
  refine consumes_readByte.bind (fun b w hw => (consumes_tail2 (f b)).mono fun w' n hn => ?_)
    fun b => (sound_readByte.bind fun c => sound_readByte.bind fun d =>
      sound_checkLen (f b c d)).stable
  obtain ⟨rfl, hb⟩ := hw
  obtain ⟨c, hc, d, hd, rfl, hn⟩ := hn
  exact ⟨b, hb, c, hc, d, hd, rfl, hn⟩

theorem octet_ext {a b : ℕ} (h : a % 256 = b % 256) : Fin.ofNat 256 a = Fin.ofNat 256 b := Fin.ext h

theorem consumes_readLen : Consumes readLen Reading.lenient.Len := by
  have hconv : maxConvertLen = 67108864 := rfl
  have hstable : ∀ b, Sound (if b / 0x80 % 2 = 0 then checkLen b else if b / 0x40 % 2 = 0 then
      readByte >>= fun b₁ => checkLen (b % 0x40 * 2 ^ 8 + b₁) else if b / 0x20 % 2 = 0 then
      readByte >>= fun b₁ => readByte >>= fun b₂ =>
        checkLen ((b % 0x20 * 2 ^ 8 + b₁) * 2 ^ 8 + b₂) else
      readByte >>= fun b₁ => readByte >>= fun b₂ => readByte >>= fun b₃ =>
        checkLen (((b % 0x20 * 2 ^ 8 + b₁) * 2 ^ 8 + b₂) * 2 ^ 8 + b₃)) := fun b =>
    .ite (sound_checkLen b) (.ite (sound_readByte.bind fun _ => sound_checkLen _)
      (.ite (sound_readByte.bind fun _ => sound_readByte.bind fun _ => sound_checkLen _)
        (sound_readByte.bind fun _ => sound_readByte.bind fun _ =>
          sound_readByte.bind fun _ => sound_checkLen _)))
  refine consumes_readByte.bind (fun b w hw => .unless ?_ (hstable b).stable (.pure 0))
    fun b => (sound_isError.bind fun _ => .ite (.pure 0) (hstable b)).stable
  obtain ⟨rfl, hb⟩ := hw
  refine .ite (fun h1 => (consumes_checkLen b).mono fun w n hn => ?_) fun h1 =>
    .ite (fun h2 => (consumes_tail1 _).mono fun w n hn => ?_)
    fun h2 => .ite (fun h3 => (consumes_tail2 _).mono fun w n hn => ?_) fun h3 =>
      (consumes_tail3 _).mono fun w n hn => ?_
  · obtain ⟨rfl, rfl, hmax⟩ := hn
    refine ⟨hmax, 0, by omega, by omega, ?_⟩
    simp [lenForm, binPad]
  · obtain ⟨c, hc, rfl, rfl, hmax⟩ := hn
    refine ⟨hmax, 1, by omega, by omega, ?_⟩
    simp only [lenForm, binPad, List.cons_append, List.nil_append, List.cons.injEq, and_true]
    exact ⟨octet_ext (by omega), octet_ext (by omega)⟩
  · obtain ⟨c, hc, d, hd, rfl, rfl, hmax⟩ := hn
    refine ⟨hmax, 2, by omega, by omega, ?_⟩
    simp only [lenForm, binPad, List.cons_append, List.nil_append, List.cons.injEq, and_true]
    exact ⟨octet_ext (by omega), octet_ext (by omega), octet_ext (by omega)⟩
  · obtain ⟨c, hc, d, hd, e, he, rfl, rfl, hmax⟩ := hn
    refine ⟨hmax, 3, by omega, by omega, ?_⟩
    simp only [lenForm, binPad, List.cons_append, List.nil_append, List.cons.injEq, and_true]
    exact ⟨octet_ext (by omega), octet_ext (by omega), octet_ext (by omega), octet_ext (by omega)⟩

theorem consumes_readString :
    Consumes readString fun w v => v.length ≤ shrtMax ∧ w = encString v := by
  refine (consumes_readUint .w16).bind (fun size w hw =>
      .ite (fun _ => consumes_setError _ _ _) fun hsize => ?_) fun size =>
    .ite (sound_setError .format _).stable ((sound_fetch _).stable.bind fun o => ?_)
  · refine (consumes_fetch _).bind (fun o bytes ho => ?_) fun o => ?_
    · obtain ⟨hlen, rfl⟩ := ho
      apply Consumes.pure
      have hlt : size.toInt < 2 ^ 15 := BitVec.toInt_lt
      have hnat : size.toInt = size.toNat := by
        rw [BitVec.toInt_eq_toNat_cond] at hsize ⊢
        have hw := size.isLt
        split_ifs at hsize ⊢ <;> omega
      refine ⟨by rw [hlen, shrtMax]; omega, ?_⟩
      rw [hw, List.append_nil, encString, hlen, hnat, Int.toNat_natCast]
      rfl
    · cases o <;> exact .pure _
  · cases o <;> exact .pure _

def Reading.Buf (i : Reading) (w v : List Octet) : Prop := ∃ p, i.Len p v.length ∧ w = p ++ v

theorem Reading.Buf.length_encBuf_le {i : Reading} {w v : List Octet} (h : i.Buf w v) :
    (encBuf v).length ≤ w.length := by
  obtain ⟨p, hp, rfl⟩ := h
  rw [encBuf, List.length_append, List.length_append]
  exact Nat.add_le_add_right (length_encLen_le_of_len hp) _

theorem consumes_readBuf : Consumes readBuf Reading.lenient.Buf := by
  refine consumes_readLen.bind (fun size p hp =>
      .ite (fun _ => consumes_setError _ _ _) fun _ => ?_) fun size =>
    .ite (sound_setError .format _).stable ((sound_fetch _).stable.bind fun o => ?_)
  · refine (consumes_fetch _).bind (fun o bytes ho => ?_) fun o => ?_
    · obtain ⟨rfl, rfl⟩ := ho
      apply Consumes.pure
      exact ⟨p, hp, by rw [List.append_nil]⟩
    · cases o <;> exact .pure _
  · cases o <;> exact .pure _

theorem consumes_readFixed (n : ℕ) : Consumes (readFixed n) fun w v => v.length = n ∧ w = v := by
  refine (consumes_fetch n).bind (fun o bytes ho => ?_) fun o => ?_
  · obtain ⟨hlen, rfl⟩ := ho
    apply Consumes.pure
    exact ⟨hlen, List.append_nil _⟩
  · cases o <;> exact .pure _

/-- The sign is the last bit of the header, and the bytes of the absolute value follow. The strict
reading wants no zero byte in front. -/
def Reading.Bn (i : Reading) (w : List Octet) (v : ℤ) : Prop :=
  ∃ (p body : List Octet) (negative : Bool),
    i.Len p (2 * body.length + negative.toNat) ∧ w = p ++ body ∧
    body.length ≤ maxSerializedBignumBytes ∧ (negative = true → body ≠ []) ∧
    v = (if negative = true then -(fromBin body : ℤ) else fromBin body) ∧
    (i = .strict → body.head? ≠ some 0)

theorem consumes_readBn : Consumes readBn Reading.lenient.Bn := by
  refine consumes_readLen.bind (fun header p hp =>
      .ite (fun _ => consumes_setError _ _ _) fun hheader => ?_) fun header =>
    .ite (sound_setError .format _).stable ((sound_fetch _).stable.bind
      (stable_option (.pure _) fun _ => .ite (sound_setError .format _).stable (.pure _)))
  refine (consumes_fetch _).bind (fun o bytes ho => ?_)
    (stable_option (.pure _) fun _ => .ite (sound_setError .format _).stable (.pure _))
  obtain ⟨hlen, rfl⟩ := ho
  refine .ite (fun _ => consumes_setError _ _ _) fun hsign => .pure ?_
  refine ⟨p, bytes, decide (header % 2 = 1), ?_, by rw [List.append_nil], by omega,
    fun hneg hnil => ?_, ?_, nofun⟩
  · have hsum : 2 * bytes.length + (decide (header % 2 = 1)).toNat = header := by
      by_cases h : header % 2 = 1
      · rw [decide_eq_true h, Bool.toNat_true]
        omega
      · rw [decide_eq_false h, Bool.toNat_false]
        omega
    rw [hsum]
    exact hp
  · rw [hnil, List.length_nil] at hlen
    exact hsign ⟨hlen.symm, of_decide_eq_true hneg⟩
  · simp only [decide_eq_true_eq]

/-- A number without a zero byte in front has as many bytes as it is written with. -/
theorem getBinSize_fromBin {body : List Octet} (h : body.head? ≠ some 0) :
    getBinSize (fromBin body) = body.length := by
  apply le_antisymm
  · exact getBinSize_le_of_natAbs_lt (by simpa using fromBin_lt body)
  · cases body with
    | nil => exact Nat.zero_le _
    | cons b bytes =>
      have hb : 1 ≤ b.val := by
        rw [List.head?_cons] at h
        exact Nat.one_le_iff_ne_zero.mpr fun h0 => h (congrArg some (Fin.ext h0))
      have hle : 2 ^ (8 * bytes.length) ≤ fromBin (b :: bytes) := by
        rw [fromBin_cons, pow_mul]
        calc (2 ^ 8) ^ bytes.length = 1 * 256 ^ bytes.length := by norm_num
          _ ≤ b.val * 256 ^ bytes.length := Nat.mul_le_mul_right _ hb
          _ ≤ _ := Nat.le_add_right _ _
      have hsize := Nat.lt_size.mpr hle
      rw [getBinSize, Int.natAbs_natCast, bitsToBytes, List.length_cons]
      omega

/-- The bytes that are written have no zero in front. -/
theorem head_binPad_ne {v : ℤ} : (binPad (getBinSize v) v.natAbs).head? ≠ some 0 := by
  intro h
  have hlt : v.natAbs < 256 ^ getBinSize v := by
    have hsize : getBinSize (v.natAbs : ℤ) = getBinSize v := by
      rw [getBinSize, Int.natAbs_natCast, ← getBinSize]
    exact lt_pow_of_getBinSize_le hsize.le
  have hfrom := fromBin_binPad hlt
  have hlen := length_binPad (getBinSize v) v.natAbs
  generalize binPad (getBinSize v) v.natAbs = body at h hfrom hlen
  cases body with
  | nil => cases h
  | cons b bytes =>
    obtain rfl := Option.some.inj ((List.head?_cons).symm.trans h)
    rw [fromBin_cons, Fin.val_zero, Nat.zero_mul, Nat.zero_add] at hfrom
    have hsmall := getBinSize_le_of_natAbs_lt (hfrom ▸ fromBin_lt bytes)
    rw [List.length_cons] at hlen
    omega

theorem Reading.Bn.natAbs_eq {v : ℤ} {body : List Octet} {negative : Bool}
    (h : v = if negative = true then -(fromBin body : ℤ) else fromBin body) :
    v.natAbs = fromBin body := by
  rw [h]
  split_ifs <;> simp

theorem Reading.Bn.getBinSize_le {v : ℤ} {body : List Octet} {negative : Bool}
    (h : v = if negative = true then -(fromBin body : ℤ) else fromBin body) :
    getBinSize v ≤ body.length := by
  apply getBinSize_le_of_natAbs_lt
  rw [natAbs_eq h]
  exact fromBin_lt body

/-- The header that is written is not above the one of any spelling. -/
theorem Reading.Bn.header_le {v : ℤ} {body : List Octet} {negative : Bool}
    (h : v = if negative = true then -(fromBin body : ℤ) else fromBin body) :
    2 * getBinSize v + (if v < 0 then 1 else 0) ≤ 2 * body.length + negative.toNat := by
  have hsize := getBinSize_le h
  cases negative with
  | true =>
    rw [Bool.toNat_true]
    split_ifs <;> omega
  | false =>
    have hv : ¬ v < 0 := by
      rw [h]
      simp
    rw [if_neg hv]
    omega

theorem length_encLen_mono {m n : ℕ} (h : m ≤ n) : (encLen m).length ≤ (encLen n).length := by
  unfold encLen
  split_ifs <;> simp only [List.length_cons, List.length_nil] <;> omega

theorem Reading.Bn.length_encBn_le {i : Reading} {w : List Octet} {v : ℤ} (h : i.Bn w v) :
    (encBn v).length ≤ w.length := by
  obtain ⟨p, body, negative, hp, rfl, -, -, hv, -⟩ := h
  have hprefix := (length_encLen_mono (header_le hv)).trans (length_encLen_le_of_len hp)
  rw [encBn, List.length_append, List.length_append, length_binPad]
  exact Nat.add_le_add hprefix (getBinSize_le hv)

/-- A number has one strict spelling. -/
theorem strict_bn_iff {w : List Octet} {v : ℤ} (hmax : getBinSize v ≤ maxSerializedBignumBytes) :
    Reading.strict.Bn w v ↔ w = encBn v := by
  have hconv : maxConvertLen = 67108864 := rfl
  have hbn : maxSerializedBignumBytes = 1048576 := rfl
  have hmag : v.natAbs < 256 ^ getBinSize v := by
    have hsize : getBinSize (v.natAbs : ℤ) = getBinSize v := by
      rw [getBinSize, Int.natAbs_natCast, ← getBinSize]
    exact lt_pow_of_getBinSize_le hsize.le
  constructor
  · rintro ⟨p, body, negative, hp, rfl, -, hneg, hv, hhead⟩
    have hnat := Reading.Bn.natAbs_eq hv
    have hsize : getBinSize v = body.length := by
      rw [← getBinSize_fromBin (hhead rfl), getBinSize, getBinSize, hnat, Int.natAbs_natCast]
    have hsign : (if v < 0 then 1 else 0) = negative.toNat := by
      cases negative with
      | false =>
        rw [if_neg (by rw [hv]; simp)]
        rfl
      | true =>
        have hne : getBinSize v ≠ 0 := by
          rw [hsize]
          exact fun h0 => hneg rfl (List.eq_nil_of_length_eq_zero h0)
        have hv0 : v ≠ 0 := by
          rintro rfl
          exact hne rfl
        rw [if_pos (by rw [if_pos rfl] at hv; omega)]
        rfl
    rw [encBn, hsign, hsize, hnat, binPad_fromBin, (strict_len_iff.mp hp).2]
  · rintro rfl
    have hlen := length_binPad (getBinSize v) v.natAbs
    refine ⟨_, _, decide (v < 0), strict_len_iff.mpr ⟨?_, ?_⟩, rfl, hlen.trans_le hmax,
      fun hneg hnil => ?_, ?_,
      fun _ => head_binPad_ne⟩
    · rw [hlen]
      have hbit := Bool.toNat_le (decide (v < 0))
      omega
    · rw [hlen]
      by_cases h : v < 0 <;> simp [h]
    · rw [hnil, List.length_nil] at hlen
      rw [← hlen, pow_zero] at hmag
      have hv := of_decide_eq_true hneg
      omega
    · rw [fromBin_binPad hmag]
      by_cases h : v < 0 <;> simp only [decide_eq_true_eq, h, if_true, if_false] <;> omega

variable (L : CurveTable)

/-- A point is the code of its curve and bytes that the curve decodes. The strict reading wants the
bytes that the curve writes. -/
def Reading.Point (i : Reading) (w : List Octet) (v : Option (L.Curve × L.Point)) : Prop :=
  ∃ c bytes P, v = some (c, P) ∧ w = encCurve L (some c) ++ bytes ∧ bytes.length = L.pointSize c ∧
    L.fromBin c bytes = .ok P ∧ (i = .strict → bytes = L.toBin c P)

/-- The codes are one for each curve, and a point that was decoded is decoded again from the bytes
that its curve writes. -/
structure CurveTable.Lawful : Prop where
  code_eq : ∀ code c, L.find code = some c → code = L.code c
  fromBin_toBin : ∀ c bytes P, L.fromBin c bytes = .ok P → L.fromBin c (L.toBin c P) = .ok P

variable {L}

theorem consumes_readCurve (hL : L.Lawful) : Consumes (readCurve L) fun w v => ∃ c, v = some c ∧
    w = encCurve L (some c) := by
  refine (consumes_readUint .w16).bind (fun code w hw =>
    .unless (.ite (fun _ => consumes_setError _ _ _) fun hcode => ?_)
    (.ite (sound_setError .format _).stable ?_) (.pure none)) fun code =>
      stable_isError.bind fun _ => .ite (.pure none)
      (.ite (sound_setError .format _).stable ?_)
  · cases hc : L.find code with
    | none => exact consumes_setError _ _ _
    | some c =>
      apply Consumes.pure
      refine ⟨c, rfl, ?_⟩
      rw [List.append_nil, hw, hL.code_eq code c hc]
      rfl
  · cases L.find code with
    | none => exact (sound_setError .format _).stable
    | some c => exact .pure _
  · cases L.find code with
    | none => exact (sound_setError .format _).stable
    | some c => exact .pure _

theorem consumes_readPoint (hL : L.Lawful) : Consumes (readPoint L) (Reading.lenient.Point L) := by
  refine (consumes_readCurve hL).bind (fun c w hw => .unless ?_ ?_ (.pure none))
    fun c => stable_isError.bind fun _ => .ite (.pure none) ?_
  · obtain ⟨c, rfl, rfl⟩ := hw
    refine (consumes_checked _ _).bind (fun o bytes ho => ?_)
      (stable_option (.pure _) fun _ => .pure _)
    obtain ⟨hlen, P, hP, rfl⟩ := ho
    apply Consumes.pure
    exact ⟨c, bytes, P, rfl, by rw [List.append_nil], hlen, hP, nofun⟩
  · cases c with
    | none => exact .pure _
    | some c => exact (stable_checked _ _).bind (stable_option (.pure _) fun _ => .pure _)
  · cases c with
    | none => exact .pure _
    | some c => exact (stable_checked _ _).bind (stable_option (.pure _) fun _ => .pure _)

end Leaves

section Maps

variable {K V : Type} {less : K → K → Bool}

/-- The entries of a map come in any order, and in the order of the keys in the strict reading. -/
def Reading.Map (i : Reading) (less : K → K → Bool) (SK : List Octet → K → Prop)
    (SV : List Octet → V → Prop) (w : List Octet) (v : List (K × V)) : Prop :=
  ∃ (p : List Octet) (words : List (List Octet)) (es : List (K × V)), i.Len p es.length ∧
    es.length ≤ maxContainerElements ∧
    w = p ++ words.flatten ∧ List.Forall₂ (fun w e => ∃ wk wv, w = wk ++ wv ∧
    SK wk e.1 ∧ SV wv e.2) words es ∧
    v.Perm es ∧ SortedKeys less v ∧ (i = .strict → es = v)

/-- An entry with a new key goes to its place. -/
theorem emplace_sorted (htrans : ∀ a b c, less a b = true → less b c = true → less a c = true)
    {key : K} (item : V) {es : List (K × V)} (hes : SortedKeys less es)
    (hnew : es.all (fun e => less key e.1 || less e.1 key) = true) :
    ∃ es', emplace less key item es = some es' ∧ es'.Perm ((key, item) :: es) ∧
    SortedKeys less es' := by
  induction es with
  | nil => exact ⟨_, rfl, .refl _, List.pairwise_singleton _ _⟩
  | cons e es ih =>
    obtain ⟨he, hes'⟩ := List.pairwise_cons.mp hes
    rw [List.all_cons, Bool.and_eq_true] at hnew
    obtain ⟨hkey, hnew⟩ := hnew
    by_cases h1 : less key e.1 = true
    · refine ⟨_, if_pos h1, .refl _, List.pairwise_cons.mpr ⟨fun e' he' => ?_, hes⟩⟩
      rcases List.mem_cons.mp he' with rfl | he'
      · exact h1
      · exact htrans _ _ _ h1 (he e' he')
    · have h2 : less e.1 key = true := by simpa [h1] using hkey
      obtain ⟨es', hemp, hperm, hsorted⟩ := ih hes' hnew
      refine ⟨e :: es', ?_, (hperm.cons e).trans (.swap _ _ _),
        List.pairwise_cons.mpr ⟨fun e' he' => ?_, hsorted⟩⟩
      · rw [emplace, if_neg h1, if_pos h2, hemp]
        rfl
      · rcases List.mem_cons.mp (hperm.mem_iff.mp he') with rfl | he'
        · exact h2
        · exact he e' he'

variable {readKey : ReadM K} {readItem : ReadM V} {SK : List Octet → K → Prop}
  {SV : List Octet → V → Prop}

theorem consumes_readEntries (htrans : ∀ a b c, less a b = true → less b c = true → less a c = true)
    (hk : Consumes readKey SK) (hv : Consumes readItem SV) (hsk : Sound readKey)
    (hsv : Sound readItem) (n : ℕ) {entries : List (K × V)} (hentries : SortedKeys less entries) :
    Consumes (readEntries less readKey readItem n entries) fun w v =>
      ∃ (words : List (List Octet)) (es : List (K × V)),
      es.length = n ∧ w = words.flatten ∧
      List.Forall₂ (fun w e => ∃ wk wv, w = wk ++ wv ∧ SK wk e.1 ∧ SV wv e.2) words es ∧
      v.Perm (entries ++ es) ∧
      SortedKeys less v := by
  induction n generalizing entries with
  | zero => exact .pure ⟨[], [], rfl, rfl, .nil, by rw [List.append_nil], hentries⟩
  | succ n ih =>
    have hnext : ∀ es, Sound (readEntries less readKey readItem n es) := sound_readEntries hsk hsv n
    have hbody : ∀ key, Sound (if entries.all (fun e => less key e.1 || less e.1 key) = true then
        readItem >>= fun item =>
        readRest entries (readEntries less readKey readItem n
          ((emplace less key item entries).getD entries))
        else ReadM.setError .format >>= fun _ => pure entries) :=
      fun key => .ite (hsv.bind fun item => sound_readRest (hnext _))
        (sound_setError .format entries)
    refine .unless (hk.bind (fun key wk hwk =>
      .unless (.ite (fun hnew => ?_) fun _ => consumes_setError _ _ _)
      (hbody key).stable (.pure entries)) fun key => (sound_readRest (hbody key)).stable)
      (hsk.bind fun key => sound_readRest (hbody key)).stable (.pure entries)
    refine hv.bind (fun item wv hwv => .unless ?_ (hnext _).stable (.pure entries)) fun item =>
      (sound_readRest (hnext _)).stable
    obtain ⟨es', hemp, hperm, hsorted⟩ := emplace_sorted htrans item hentries hnew
    rw [hemp, Option.getD_some]
    refine (ih hsorted).mono fun w v hw => ?_
    obtain ⟨words, es, rfl, rfl, hwords, hv', hvsorted⟩ := hw
    refine ⟨(wk ++ wv) :: words, (key, item) :: es, rfl, by simp,
      .cons ⟨wk, wv, rfl, hwk, hwv⟩ hwords, ?_, hvsorted⟩
    exact hv'.trans ((hperm.append_right es).trans List.perm_middle.symm)

theorem consumes_readMap (htrans : ∀ a b c, less a b = true → less b c = true → less a c = true)
    (hk : Consumes readKey SK) (hv : Consumes readItem SV) (hsk : Sound readKey)
    (hsv : Sound readItem) :
    Consumes (readMap less readKey readItem) (Reading.lenient.Map less SK SV) := by
  refine consumes_readLen.bind (fun count p hp =>
      .ite (fun _ => consumes_setError _ _ _) fun hcount => ?_) fun count =>
    .ite (sound_setError .format []).stable (sound_readEntries hsk hsv count []).stable
  refine (@consumes_readEntries K V less readKey readItem SK SV htrans hk hv hsk hsv count
    [] List.Pairwise.nil).mono
    fun w v hw => ?_
  obtain ⟨words, es, rfl, rfl, hwords, hperm, hsorted⟩ := hw
  exact ⟨p, words, es, hp, not_lt.mp hcount, rfl, hwords, hperm, hsorted, nofun⟩

end Maps

/-- The types that blobs are made of. -/
def Ty.InBlob : Ty → Bool
  | .uint _ => true
  | .int _ => true
  | .string => true
  | .buf => true
  | .bn => true
  | .point => true
  | .map k i => k.InBlob && i.InBlob
  | .pair a b => a.InBlob && b.InBlob
  | _ => false

section Language

variable {L : CurveTable} (order : KeyOrder L)

/-- The spellings of a value of a blob. -/
def Spells (i : Reading) : (t : Ty) → List Octet → t.Val L → Prop
  | .uint _, w, v => w = encUint v
  | .int _, w, v => w = encUint v
  | .string, w, v => List.length v ≤ shrtMax ∧ w = encString v
  | .buf, w, v => i.Buf w v
  | .bn, w, v => i.Bn w v
  | .point, w, v => i.Point L w v
  | .map k t, w, v => i.Map (order.less k) (Spells i k) (Spells i t) w v
  | .pair a b, w, v => ∃ wa wb, w = wa ++ wb ∧ Spells i a wa v.1 ∧ Spells i b wb v.2
  | _, _, _ => False

def KeyOrder.Transitive : Prop :=
  ∀ k a b c, order.less k a b = true → order.less k b c = true → order.less k a c = true

variable {order}

theorem consumes_read (hL : L.Lawful) (htrans : order.Transitive) {t : Ty} (ht : t.InBlob = true) :
    Consumes (read order t) (Spells order .lenient t) := by
  induction t with
  | uint w => exact consumes_readUint w
  | int w => exact consumes_readUint w
  | string => exact consumes_readString
  | buf => exact consumes_readBuf
  | bn => exact consumes_readBn
  | point => exact consumes_readPoint hL
  | map k t ihk iht =>
    obtain ⟨hk, ht⟩ := (Bool.and_eq_true _ _).mp ht
    exact consumes_readMap (htrans k) (ihk hk) (iht ht) (sound_read order k) (sound_read order t)
  | pair a b iha ihb =>
    obtain ⟨ha, hb⟩ := (Bool.and_eq_true _ _).mp ht
    have hsb := sound_read order b
    refine (iha ha).bind (fun v wa hwa => ?_) fun v =>
      ((sound_readRest hsb).bind fun _ => .pure _).stable
    refine ((ihb hb).unless hsb.stable (.pure b.default)).bind (fun u wb hwb => .pure ?_) fun _ =>
      .pure _
    exact ⟨wa, wb, by rw [List.append_nil], hwa, hwb⟩
  | _ => cases ht

theorem exists_of_forall₂ {α β : Type} {R : α → β → Prop} {l : List α} {m : List β}
    (h : List.Forall₂ R l m) {b : β} (hb : b ∈ m) : ∃ a ∈ l, R a b := by
  induction h with
  | nil => cases hb
  | cons hr _ ih =>
    rcases List.mem_cons.mp hb with rfl | hb
    · exact ⟨_, by simp, hr⟩
    · obtain ⟨a, ha, hr⟩ := ih hb
      exact ⟨a, by simp [ha], hr⟩

/-- What a reading allows is within the limits of the conversions. -/
theorem Spells.fits (hL : L.Lawful) {i : Reading} {t : Ty} {w : List Octet} {v : t.Val L}
    (h : Spells order i t w v) :
    Fits order t v := by
  induction t generalizing w with
  | uint => exact trivial
  | int => exact trivial
  | string => exact h.1
  | buf =>
    obtain ⟨p, hp, -⟩ := h
    exact hp.le_max
  | bn =>
    obtain ⟨p, body, negative, -, -, hbody, -, hv, -⟩ := h
    exact (Reading.Bn.getBinSize_le hv).trans hbody
  | point =>
    obtain ⟨c, bytes, P, rfl, -, -, hP, -⟩ := h
    exact hL.fromBin_toBin c bytes P hP
  | map k t ihk iht =>
    obtain ⟨p, words, es, -, hlen, -, hwords, hperm, hsorted, -⟩ := h
    refine ⟨hperm.length_eq.trans_le hlen, hsorted, List.forall_iff_forall_mem.mpr fun e he => ?_⟩
    obtain ⟨x, -, wk, wv, -, hk, hv⟩ := exists_of_forall₂ hwords (hperm.mem_iff.mp he)
    exact ⟨ihk hk, iht hv⟩
  | pair a b iha ihb =>
    obtain ⟨wa, wb, -, ha, hb⟩ := h
    exact ⟨iha ha, ihb hb⟩
  | _ => cases h

theorem Reading.Map.length_le {K V : Type} {less : K → K → Bool} {i : Reading}
    {SK : List Octet → K → Prop} {SV : List Octet → V → Prop} {xk : K → List Octet}
    {xv : V → List Octet} (hk : ∀ w k, SK w k → (xk k).length ≤ w.length)
    (hv : ∀ w v, SV w v → (xv v).length ≤ w.length) {w : List Octet} {v : List (K × V)}
    (h : i.Map less SK SV w v) :
    (encMap xk xv v).length ≤ w.length := by
  obtain ⟨p, words, es, hp, -, rfl, hwords, hperm, -, -⟩ := h
  have hentries : (es.flatMap fun e => xk e.1 ++ xv e.2).length ≤ words.flatten.length := by
    clear hp hperm
    induction hwords with
    | nil => exact le_rfl
    | cons hx _ ih =>
      obtain ⟨wk, wv, rfl, hwk, hwv⟩ := hx
      have h1 := hk _ _ hwk
      have h2 := hv _ _ hwv
      simp only [List.flatMap_cons, List.flatten_cons, List.length_append] at ih ⊢
      omega
  have hsame : (v.flatMap fun e => xk e.1 ++ xv e.2).length =
      (es.flatMap fun e => xk e.1 ++ xv e.2).length :=
    (hperm.flatMap_right _).length_eq
  have hprefix := length_encLen_le_of_len hp
  rw [encMap, List.length_append, List.length_append, hsame, hperm.length_eq]
  exact Nat.add_le_add hprefix hentries

/-- No spelling is shorter than the one that is written. -/
theorem Spells.length_enc_le {i : Reading} {t : Ty} {w : List Octet} {v : t.Val L}
    (h : Spells order i t w v) :
    (enc t v).length ≤ w.length := by
  induction t generalizing w with
  | uint =>
    obtain rfl := h
    exact le_rfl
  | int =>
    obtain rfl := h
    exact le_rfl
  | string =>
    obtain ⟨-, rfl⟩ := h
    exact le_rfl
  | buf =>
    exact h.length_encBuf_le
  | bn => exact h.length_encBn_le
  | point =>
    obtain ⟨c, bytes, P, rfl, rfl, hlen, -, -⟩ := h
    simp only [enc, encPoint, Option.map_some, Option.getD_some, List.length_append,
      L.length_toBin, hlen]
    exact le_rfl
  | map k t ihk iht =>
    have hmap : i.Map (order.less k) (Spells order i k) (Spells order i t) w v := h
    have hk : ∀ w a, Spells order i k w a → (enc k a).length ≤ w.length := fun w a => ihk
    have ht : ∀ w a, Spells order i t w a → (enc t a).length ≤ w.length := fun w a => iht
    exact hmap.length_le hk ht
  | pair a b iha ihb =>
    obtain ⟨wa, wb, rfl, ha, hb⟩ := h
    simp only [enc, List.length_append]
    exact Nat.add_le_add (iha ha) (ihb hb)
  | _ => cases h

theorem strict_map_iff {K V : Type} {less : K → K → Bool} {SK : List Octet → K → Prop}
    {SV : List Octet → V → Prop} {xk : K → List Octet} {xv : V → List Octet} {v : List (K × V)}
    (hk : ∀ e ∈ v, ∀ w, SK w e.1 ↔ w = xk e.1) (hv : ∀ e ∈ v, ∀ w, SV w e.2 ↔ w = xv e.2)
    (hcount : v.length ≤ maxContainerElements) (hsorted : SortedKeys less v) {w : List Octet} :
    Reading.strict.Map less SK SV w v ↔ w = encMap xk xv v := by
  have hmax : maxContainerElements ≤ maxConvertLen := by decide
  constructor
  · rintro ⟨p, words, es, hp, -, rfl, hwords, -, -, hes⟩
    obtain rfl := hes rfl
    have hflat : words.flatten = es.flatMap fun e => xk e.1 ++ xv e.2 := by
      clear hp hcount hsorted hes
      induction hwords with
      | nil => rfl
      | cons hx _ ih =>
        obtain ⟨wk, wv, rfl, hwk, hwv⟩ := hx
        rw [List.flatten_cons, List.flatMap_cons,
          ih (fun e he => hk e (by simp [he])) fun e he => hv e (by simp [he]),
          (hk _ (by simp) _).mp hwk, (hv _ (by simp) _).mp hwv]
    rw [encMap, hflat, (strict_len_iff.mp hp).2]
  · rintro rfl
    refine ⟨_, v.map fun e => xk e.1 ++ xv e.2, v, strict_len_iff.mpr ⟨hcount.trans hmax, rfl⟩,
      hcount, ?_, ?_, .refl v, hsorted,
      fun _ => rfl⟩
    · rw [encMap, List.flatMap_def]
    · refine List.forall₂_map_left_iff.mpr (List.forall₂_same.mpr fun e he => ?_)
      exact ⟨_, _, rfl, (hk e he _).mpr rfl, (hv e he _).mpr rfl⟩

/-- The strict reading has one spelling of each value, and it is the one that is written. -/
theorem spells_strict_iff {t : Ty} (ht : t.InBlob = true) {w : List Octet}
    {v : t.Val L} (hv : Fits order t v) :
    Spells order .strict t w v ↔ w = enc t v := by
  induction t generalizing w with
  | uint => exact Iff.rfl
  | int => exact Iff.rfl
  | string => exact ⟨fun h => h.2, fun h => ⟨hv, h⟩⟩
  | buf =>
    refine ⟨fun ⟨p, hp, hw⟩ => hw.trans ?_, fun hw => ⟨_, strict_len_iff.mpr ⟨hv, rfl⟩, hw⟩⟩
    rw [(strict_len_iff.mp hp).2]
    rfl
  | bn => exact strict_bn_iff hv
  | point =>
    match v, hv with
    | some (c, P), hP =>
      constructor
      · rintro ⟨c', bytes, P', hv, rfl, -, -, hstrict⟩
        obtain ⟨rfl, rfl⟩ := Prod.mk.inj (Option.some.inj hv)
        rw [hstrict rfl]
        rfl
      · rintro rfl
        exact ⟨c, L.toBin c P, P, rfl, rfl, L.length_toBin c P, hP, fun _ => rfl⟩
  | map k t ihk iht =>
    obtain ⟨hk, ht⟩ := (Bool.and_eq_true _ _).mp ht
    obtain ⟨hcount, hsorted, hall⟩ := hv
    have hall := List.forall_iff_forall_mem.mp hall
    exact strict_map_iff (fun e he w => ihk hk (hall e he).1) (fun e he w =>
      iht ht (hall e he).2) hcount hsorted
  | pair a b iha ihb =>
    obtain ⟨ha, hb⟩ := (Bool.and_eq_true _ _).mp ht
    constructor
    · rintro ⟨wa, wb, rfl, h1, h2⟩
      rw [(iha ha hv.1).mp h1, (ihb hb hv.2).mp h2]
      rfl
    · rintro rfl
      exact ⟨_, _, rfl, (iha ha hv.1).mpr rfl, (ihb hb hv.2).mpr rfl⟩
  | _ => cases ht

end Language

end CbMpc
