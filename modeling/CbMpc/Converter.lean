import CbMpc.Bytes

/-!
# The converter

`converter_t` runs over a value in one of three modes: it counts the bytes of the
value, writes them, or reads a value back from untrusted bytes. Reading reports
errors by a sticky flag that every overload tests for itself. What a conversion
may do to the flag and to the offset, and which bytes it stands for, is stated
below as properties that hold of a sequence when they hold of its parts.
-/
namespace CbMpc

abbrev Octet := Fin 256

/-- `INT_MAX`. -/
def intMax : ℕ := 2147483647

/-- `converter_t` in the reading mode. -/
structure Reader where
  src : List Octet
  offset : ℕ
  error : Option ErrorCode

/-- `converter_t` in the two writing modes. `pointer` is null in the size pass, and otherwise the
memory that starts at it. -/
structure Writer where
  pointer : Option (ℕ → Octet)
  offset : ℕ
  error : Option ErrorCode

/-- `set_error`, which keeps an earlier error. -/
def Reader.setError (r : Reader) (rv : ErrorCode) : Reader :=
  if r.error.isSome then r else { r with error := some rv }

abbrev ReadM := StateT Reader (Except Failure)

abbrev WriteM := StateT Writer (Except Failure)

namespace ReadM

/-- `is_error`. -/
def isError : ReadM Bool := do
  let r ← get
  return r.error.isSome

def setError (rv : ErrorCode) : ReadM Unit := modify fun r => r.setError rv

/-- `if (!at_least(n)) set_error()`, with the answer of `at_least`. -/
def ensure (n : ℕ) : ReadM Bool := do
  let r ← get
  if r.offset ≤ r.src.length ∧ n ≤ r.src.length - r.offset then
    return true
  else
    setError .format
    return false

/-- The `n` bytes from `current()` on. -/
def current (n : ℕ) : ReadM (List Octet) := do
  let r ← get
  if r.offset + n ≤ r.src.length then
    return (r.src.drop r.offset).take n
  else
    throw (.thrown .outOfBounds)

/-- `forward`. -/
def forward (n : ℕ) : ReadM Unit := do
  let r ← get
  StateT.lift (cbAssert (decide (r.offset + n ≤ intMax)))
  set { r with offset := r.offset + n }

/-- `if (is_error() || !at_least(n)) { set_error(); return; }`, then the use of the `n` bytes, which
may refuse them with a code, and `forward(n)`. -/
def checked {α : Type} (n : ℕ) (f : List Octet → Except ErrorCode α) : ReadM (Option α) := do
  if ← isError then
    setError .format
    return none
  else if ← ensure n then
    let bytes ← current n
    match f bytes with
    | .error rv => do
      setError rv
      return none
    | .ok a => do
      forward n
      return some a
  else
    return none

/-- The `n` bytes themselves. -/
def fetch (n : ℕ) : ReadM (Option (List Octet)) := checked n .ok

/-- `cb_assert`. -/
def assert (b : Bool) : ReadM Unit := StateT.lift (cbAssert b)

/-- A loop that converts all elements, whether or not an error is met. -/
def forAll {α : Type} (x : ReadM α) : ℕ → ReadM (List α)
  | 0 => return []
  | n + 1 => do
    let a ← x
    let as ← forAll x n
    return a :: as

/-- A loop that stops at an error. -/
def whileNoError {α : Type} (x : ReadM α) : ℕ → ReadM (List α)
  | 0 => return []
  | n + 1 => do
    if ← isError then
      return []
    else
      let a ← x
      let as ← whileNoError x n
      return a :: as

end ReadM

namespace WriteM

def isError : WriteM Bool := do
  let w ← get
  return w.error.isSome

def setError (rv : ErrorCode) : WriteM Unit :=
  modify fun w => if w.error.isSome then w else { w with error := some rv }

/-- Bytes stored at an offset of a memory. -/
def store (bytes : List Octet) (offset : ℕ) (memory : ℕ → Octet) (i : ℕ) : Octet :=
  if offset ≤ i ∧ i < offset + bytes.length then bytes.getD (i - offset) 0 else memory i

def assert (b : Bool) : WriteM Unit := StateT.lift (cbAssert b)

/-- The bytes are stored at `current()`, unless only the size is wanted, and skipped by
`forward`. -/
def put (bytes : List Octet) : WriteM Unit := do
  let w ← get
  StateT.lift (cbAssert (decide (w.offset + bytes.length ≤ intMax)))
  set { w with pointer := w.pointer.map (store bytes w.offset), offset := w.offset + bytes.length }

def forAll {α : Type} (x : α → WriteM Unit) : List α → WriteM Unit
  | [] => return
  | a :: as => do
    x a
    forAll x as

def whileNoError {α : Type} (x : α → WriteM Unit) : List α → WriteM Unit
  | [] => return
  | a :: as => do
    if ← isError then
      return
    else
      x a
      whileNoError x as

end WriteM

/-- `ser`: a size pass, a buffer of that size with arbitrary contents, and a write pass. The errors
that the passes may have set are not looked at. -/
def ser (garbage : ℕ → Octet) (x : WriteM Unit) : Outcome (List Octet) := do
  let counted ← x ⟨none, 0, none⟩
  let written ← x ⟨some garbage, 0, none⟩
  .ok ((List.range counted.2.offset).map (written.2.pointer.getD garbage))

/-- `deser`, which rejects trailing bytes. -/
def deser {α : Type} (x : ReadM α) (src : List Octet) : Outcome α := do
  let out ← x ⟨src, 0, none⟩
  match out.2.error with
  | some rv => fail rv
  | none => do
    require (decide (out.2.offset = src.length)) .badArg
    .ok out.1

/-- The offset is inside the input, whose size is an `int`. -/
structure Reader.Inside (r : Reader) : Prop where
  offset_le : r.offset ≤ r.src.length
  length_le : r.src.length ≤ intMax

/-- What any conversion may do to the reader: move forward, and nothing once an error is set. -/
structure Reader.Reaches (r r' : Reader) : Prop where
  src_eq : r'.src = r.src
  offset_le : r.offset ≤ r'.offset
  sticky : r.error.isSome = true → r' = r

theorem Reader.Reaches.refl (r : Reader) : r.Reaches r := ⟨rfl, le_rfl, fun _ => rfl⟩

theorem Reader.Reaches.trans {r r' r'' : Reader} (h : r.Reaches r')
    (h' : r'.Reaches r'') : r.Reaches r'' where
  src_eq := h'.src_eq.trans h.src_eq
  offset_le := h.offset_le.trans h'.offset_le
  sticky he := by
    have hr := h.sticky he
    subst hr
    exact h'.sticky he

theorem Reader.reaches_setError (r : Reader) (rv : ErrorCode) : r.Reaches (r.setError rv) := by
  unfold Reader.setError
  split
  · exact .refl r
  · rename_i he
    exact ⟨rfl, le_rfl, fun h => absurd h he⟩

theorem Reader.Inside.setError {r : Reader} (h : r.Inside) (rv : ErrorCode) :
    (r.setError rv).Inside := by
  unfold Reader.setError
  split
  · exact h
  · exact ⟨h.offset_le, h.length_le⟩

theorem Reader.error_setError_ne_none (r : Reader) (rv : ErrorCode) :
    (r.setError rv).error ≠ none := by
  unfold Reader.setError
  split
  · rename_i he
    exact Option.isSome_iff_ne_none.mp he
  · simp

/-- The same reader on a longer input. -/
def Reader.extend (r : Reader) (w : List Octet) : Reader := { r with src := r.src ++ w }

namespace ReadM

variable {α β : Type}

theorem bind_apply (x : ReadM α) (f : α → ReadM β) (r : Reader) :
    (x >>= f) r = (x r >>= fun p => f p.1 p.2) := rfl

theorem isError_apply (r : Reader) : isError r = .ok (r.error.isSome, r) := rfl

theorem ensure_apply (n : ℕ) (r : Reader) :
    ensure n r = .ok (if r.offset ≤ r.src.length ∧ n ≤ r.src.length - r.offset then (true, r)
      else (false, r.setError .format)) := by
  by_cases h : r.offset ≤ r.src.length ∧ n ≤ r.src.length - r.offset
  · rw [if_pos h]
    change (if _ then _ else _ : ReadM Bool) r = _
    rw [if_pos h]
    rfl
  · rw [if_neg h]
    change (if _ then _ else _ : ReadM Bool) r = _
    rw [if_neg h]
    rfl

theorem current_apply {n : ℕ} {r : Reader} (h : r.offset + n ≤ r.src.length) :
    current n r = .ok ((r.src.drop r.offset).take n, r) := by
  change (if _ then _ else _ : ReadM (List Octet)) r = _
  rw [if_pos h]
  rfl

theorem forward_eq (n : ℕ) (r : Reader) :
    forward n r = (cbAssert (decide (r.offset + n ≤ intMax)) >>= fun _ =>
      .ok ((), { r with offset := r.offset + n })) := by
  unfold forward
  rw [bind_apply]
  change ((StateT.lift (cbAssert (decide (r.offset + n ≤ intMax))) : ReadM Unit) >>=
    fun _ => set { r with offset := r.offset + n }) r = _
  rw [bind_apply]
  change ((cbAssert (decide (r.offset + n ≤ intMax)) >>= fun a => .ok (a, r)) >>= _) = _
  cases cbAssert (decide (r.offset + n ≤ intMax)) <;> rfl

theorem forward_apply {n : ℕ} {r : Reader} (h : r.offset + n ≤ intMax) :
    forward n r = .ok ((), { r with offset := r.offset + n }) := by
  rw [forward_eq, decide_eq_true h]
  rfl

/-- A read of `n` bytes that are there. -/
theorem checked_apply {n : ℕ} {r : Reader} (f : List Octet → Except ErrorCode α) (hr : r.Inside)
    (he : r.error = none) (hn : n ≤ r.src.length - r.offset) :
    checked n f r = .ok (match f ((r.src.drop r.offset).take n) with
      | .error rv => (none, r.setError rv)
      | .ok a => (some a, { r with offset := r.offset + n })) := by
  have hle := hr.offset_le
  have hlen := hr.length_le
  unfold checked
  rw [bind_apply, isError_apply, he]
  simp only [ok_bind, Option.isSome_none, Bool.false_eq_true, if_false]
  rw [bind_apply, ensure_apply, if_pos ⟨hle, hn⟩]
  simp only [ok_bind, if_true]
  rw [bind_apply, current_apply (by omega)]
  simp only [ok_bind]
  cases f ((r.src.drop r.offset).take n) with
  | error rv => rfl
  | ok a =>
    simp only
    rw [bind_apply, forward_apply (by omega), he]
    rfl

/-- A read that is refused. -/
theorem checked_apply_none {n : ℕ} {r : Reader} (f : List Octet → Except ErrorCode α)
    (h : r.error.isSome = true ∨ ¬ n ≤ r.src.length - r.offset) :
    checked n f r = .ok (none, r.setError .format) := by
  unfold checked
  rw [bind_apply, isError_apply, ok_bind]
  by_cases he : r.error.isSome = true
  · simp only [he, if_true]
    rfl
  · have hn := h.resolve_left he
    simp only [he, if_false, Bool.false_eq_true]
    rw [bind_apply, ensure_apply, if_neg (fun hand => hn hand.2)]
    rfl

/-- Reading from inside the input ends inside the input, without an exception. -/
def Safe (x : ReadM α) : Prop :=
  ∀ r : Reader, r.Inside → ∃ a r', x r = .ok (a, r') ∧ r.Reaches r' ∧ r'.Inside

/-- Without an error nothing behind the end of the input has been asked for. -/
def Stable (x : ReadM α) : Prop :=
  ∀ r a r', x r = .ok (a, r') → r'.error = none →
    r.error = none ∧ ∀ w, x (r.extend w) = .ok (a, r'.extend w)

/-- From the bytes `bytes`, whatever follows them, `a` is read. -/
def Decodes (x : ReadM α) (bytes : List Octet) (a : α) : Prop :=
  ∀ src offset rest, src.length ≤ intMax → offset ≤ src.length → src.drop offset = bytes ++ rest →
    x ⟨src, offset, none⟩ = .ok (a, ⟨src, offset + bytes.length, none⟩)

theorem Safe.pure (a : α) : Safe (pure a : ReadM α) := fun r hr => ⟨a, r, rfl, .refl r, hr⟩

theorem Safe.bind {x : ReadM α} {f : α → ReadM β} (hx : Safe x)
    (hf : ∀ a, Safe (f a)) : Safe (x >>= f) := by
  intro r hr
  obtain ⟨a, r', hxr, hreach, hr'⟩ := hx r hr
  obtain ⟨b, r'', hfr, hreach', hr''⟩ := hf a r' hr'
  exact ⟨b, r'', by rw [bind_apply, hxr, ok_bind, hfr], hreach.trans hreach', hr''⟩

theorem Safe.ite {c : Prop} [Decidable c] {x y : ReadM α} (hx : Safe x) (hy : Safe y) :
    Safe (if c then x else y) := by
  split
  · exact hx
  · exact hy

theorem safe_isError : Safe isError := fun r hr => ⟨r.error.isSome, r, rfl, .refl r, hr⟩

theorem safe_setError (rv : ErrorCode) : Safe (setError rv) := fun r hr =>
  ⟨(), r.setError rv, rfl, r.reaches_setError rv, hr.setError rv⟩

theorem safe_ensure (n : ℕ) : Safe (ensure n) := by
  intro r hr
  rw [ensure_apply]
  by_cases h : r.offset ≤ r.src.length ∧ n ≤ r.src.length - r.offset
  · rw [if_pos h]
    exact ⟨true, r, rfl, .refl r, hr⟩
  · rw [if_neg h]
    exact ⟨false, r.setError .format, rfl, r.reaches_setError .format, hr.setError .format⟩

theorem safe_checked (n : ℕ) (f : List Octet → Except ErrorCode α) : Safe (checked n f) := by
  intro r hr
  have hle := hr.offset_le
  by_cases he : r.error = none
  · by_cases hn : n ≤ r.src.length - r.offset
    · rw [checked_apply f hr he hn]
      cases f ((r.src.drop r.offset).take n) with
      | error rv => exact ⟨_, _, rfl, r.reaches_setError rv, hr.setError rv⟩
      | ok a =>
        refine ⟨_, _, rfl, ⟨rfl, Nat.le_add_right _ _, fun h => ?_⟩, ?_, hr.length_le⟩
        · rw [he] at h
          cases h
        · show r.offset + n ≤ r.src.length
          omega
    · exact ⟨_, _, checked_apply_none f (.inr hn), r.reaches_setError .format, hr.setError .format⟩
  · exact ⟨_, _, checked_apply_none f (.inl (Option.isSome_iff_ne_none.mpr he)),
      r.reaches_setError .format, hr.setError .format⟩

theorem safe_assert {b : Bool} (hb : b = true) : Safe (assert b) := fun r hr => by
  subst hb
  exact ⟨(), r, rfl, .refl r, hr⟩

theorem Safe.forAll {x : ReadM α} (hx : Safe x) (n : ℕ) : Safe (forAll x n) := by
  induction n with
  | zero => exact .pure []
  | succ n ih => exact hx.bind fun a => ih.bind fun as => .pure (a :: as)

theorem Safe.whileNoError {x : ReadM α} (hx : Safe x) (n : ℕ) : Safe (whileNoError x n) := by
  induction n with
  | zero => exact .pure []
  | succ n ih =>
    exact safe_isError.bind fun e =>
      .ite (.pure []) (hx.bind fun a => ih.bind fun as => .pure (a :: as))

theorem Stable.pure (a : α) : Stable (pure a : ReadM α) := by
  intro r b r' h he
  cases h
  exact ⟨he, fun w => rfl⟩

theorem Stable.bind {x : ReadM α} {f : α → ReadM β} (hx : Stable x)
    (hf : ∀ a, Stable (f a)) : Stable (x >>= f) := by
  intro r b r'' h he
  rw [bind_apply] at h
  obtain ⟨⟨a, r'⟩, hxr, hfr⟩ := bind_ok_iff.mp h
  obtain ⟨he', hext'⟩ := hf a r' b r'' hfr he
  obtain ⟨he, hext⟩ := hx r a r' hxr he'
  exact ⟨he, fun w => by rw [bind_apply, hext w, ok_bind, hext' w]⟩

theorem Stable.ite {c : Prop} [Decidable c] {x y : ReadM α} (hx : Stable x) (hy : Stable y) :
    Stable (if c then x else y) := by
  split
  · exact hx
  · exact hy

theorem stable_isError : Stable isError := by
  intro r b r' h he
  cases h
  exact ⟨he, fun w => rfl⟩

theorem stable_setError (rv : ErrorCode) : Stable (setError rv) := by
  intro r u r' h he
  cases h
  exact absurd he (r.error_setError_ne_none rv)

theorem stable_ensure (n : ℕ) : Stable (ensure n) := by
  intro r b r' h he
  rw [ensure_apply] at h
  by_cases hn : r.offset ≤ r.src.length ∧ n ≤ r.src.length - r.offset
  · rw [if_pos hn] at h
    cases h
    refine ⟨he, fun w => ?_⟩
    rw [ensure_apply, if_pos]
    simp only [Reader.extend, List.length_append]
    omega
  · rw [if_neg hn] at h
    cases h
    exact absurd he (r.error_setError_ne_none .format)

theorem stable_current (n : ℕ) : Stable (current n) := by
  intro r bytes r' h he
  by_cases hn : r.offset + n ≤ r.src.length
  · rw [current_apply hn] at h
    cases h
    refine ⟨he, fun w => ?_⟩
    have hlen : (r.extend w).offset + n ≤ (r.extend w).src.length := by
      simp only [Reader.extend, List.length_append]
      omega
    rw [current_apply hlen]
    simp only [Reader.extend]
    rw [List.drop_append_of_le_length (by omega), List.take_append_of_le_length (by simp; omega)]
  · change (if _ then _ else _ : ReadM (List Octet)) r = _ at h
    rw [if_neg hn] at h
    cases h

theorem stable_forward (n : ℕ) : Stable (forward n) := by
  intro r u r' h he
  by_cases hn : r.offset + n ≤ intMax
  · rw [forward_apply hn] at h
    cases h
    exact ⟨he, fun w => forward_apply hn⟩
  · rw [forward_eq, decide_eq_false hn] at h
    cases h

theorem stable_checked (n : ℕ) (f : List Octet → Except ErrorCode α) : Stable (checked n f) := by
  refine stable_isError.bind fun _ => .ite ((stable_setError .format).bind fun _ => .pure none)
    ((stable_ensure n).bind fun _ => .ite ((stable_current n).bind fun bytes => ?_) (.pure none))
  cases f bytes with
  | error rv => exact (stable_setError rv).bind fun _ => .pure none
  | ok a => exact (stable_forward n).bind fun _ => .pure (some a)

theorem stable_assert (b : Bool) : Stable (assert b) := by
  intro r u r' h he
  cases b with
  | false => cases h
  | true =>
    cases h
    exact ⟨he, fun _ => rfl⟩

theorem Stable.forAll {x : ReadM α} (hx : Stable x) (n : ℕ) : Stable (forAll x n) := by
  induction n with
  | zero => exact .pure []
  | succ n ih => exact hx.bind fun a => ih.bind fun as => .pure (a :: as)

theorem Stable.whileNoError {x : ReadM α} (hx : Stable x) (n : ℕ) : Stable (whileNoError x n) := by
  induction n with
  | zero => exact .pure []
  | succ n ih =>
    exact stable_isError.bind fun e =>
      .ite (.pure []) (hx.bind fun a => ih.bind fun as => .pure (a :: as))

/-- Without an error the value has the property. -/
def Ensures (x : ReadM α) (P : α → Prop) : Prop :=
  ∀ r a r', x r = .ok (a, r') → r'.error = none → P a

theorem Ensures.pure {P : α → Prop} {a : α} (h : P a) : Ensures (pure a) P := by
  intro r b r' hr _
  cases hr
  exact h

theorem Ensures.bind {x : ReadM α} {f : α → ReadM β} {P : α → Prop}
    {Q : β → Prop} (hx : Ensures x P) (hf : ∀ a, P a → Ensures (f a) Q) (hs : ∀ a, Stable (f a)) :
    Ensures (x >>= f) Q := by
  intro r b r'' h he
  rw [bind_apply] at h
  obtain ⟨⟨a, r'⟩, hxr, hfr⟩ := bind_ok_iff.mp h
  exact hf a (hx r a r' hxr (hs a r' b r'' hfr he).1) r' b r'' hfr he

theorem Ensures.ite {c : Prop} [Decidable c] {x y : ReadM α} {P : α → Prop} (hx : c → Ensures x P)
    (hy : ¬ c → Ensures y P) : Ensures (if c then x else y) P := by
  by_cases h : c
  · rw [if_pos h]
    exact hx h
  · rw [if_neg h]
    exact hy h

theorem ensures_true (x : ReadM α) : Ensures x fun _ => True := fun _ _ _ _ _ => trivial

/-- An action that ends with an error set may return anything. -/
theorem ensures_setError (rv : ErrorCode) (a : α) (P : α → Prop) :
    Ensures (setError rv >>= fun _ => Pure.pure a) P := by
  intro r b r' h he
  cases h
  exact absurd he (r.error_setError_ne_none rv)

theorem ensures_isError : Ensures isError fun e => e = false := by
  intro r e r' h he
  cases h
  simp [he]

theorem Decodes.pure (a : α) : Decodes (pure a : ReadM α) [] a := fun _ _ _ _ _ _ => rfl

theorem Decodes.bind {x : ReadM α} {f : α → ReadM β} {bytes bytes' : List Octet} {a : α} {b : β}
    (hx : Decodes x bytes a) (hf : Decodes (f a) bytes' b) :
    Decodes (x >>= f) (bytes ++ bytes') b := by
  intro src offset rest hlen hle hdrop
  rw [List.append_assoc] at hdrop
  have hmid : src.drop (offset + bytes.length) = bytes' ++ rest := by
    rw [← List.drop_drop, hdrop, List.drop_left]
  have hle' : offset + bytes.length ≤ src.length := by
    have hcount := congrArg List.length hdrop
    simp only [List.length_drop, List.length_append] at hcount
    omega
  rw [bind_apply, hx src offset (bytes' ++ rest) hlen hle hdrop, ok_bind,
    hf src (offset + bytes.length) rest hlen hle' hmid, List.length_append, Nat.add_assoc]

/-- A conversion that reads nothing before the rest. -/
theorem Decodes.bind_nil {x : ReadM α} {f : α → ReadM β} {bytes : List Octet} {a : α} {b : β}
    (hx : Decodes x [] a) (hf : Decodes (f a) bytes b) : Decodes (x >>= f) bytes b := hx.bind hf

/-- The rest reads nothing more. -/
theorem Decodes.bind_end {x : ReadM α} {f : α → ReadM β} {bytes : List Octet} {a : α} {b : β}
    (hx : Decodes x bytes a) (hf : Decodes (f a) [] b) : Decodes (x >>= f) bytes b := by
  rw [← List.append_nil bytes]
  exact hx.bind hf

theorem decodes_isError : Decodes isError [] false := fun _ _ _ _ _ _ => rfl

theorem decodes_checked {f : List Octet → Except ErrorCode α} {bytes : List Octet} {a : α}
    (hf : f bytes = .ok a) :
    Decodes (checked bytes.length f) bytes (some a) := by
  intro src offset rest hlen hle hdrop
  have hcount := congrArg List.length hdrop
  simp only [List.length_drop, List.length_append] at hcount
  have h := @checked_apply _ bytes.length ⟨src, offset, none⟩ f ⟨hle, hlen⟩
    rfl (by simp only; omega)
  simp only [hdrop, List.take_left, hf] at h
  exact h

theorem decodes_assert {b : Bool} (hb : b = true) :
    Decodes (assert b) [] () := fun _ _ _ _ _ _ => by
  subst hb
  rfl

theorem decodes_fetch (bytes : List Octet) : Decodes (fetch bytes.length) bytes (some bytes) :=
  decodes_checked rfl

/-- The bytes that are asked for are among those that the rest reads. -/
theorem Decodes.ensure {f : Bool → ReadM β} {bytes : List Octet} {b : β}
    {n : ℕ} (hn : n ≤ bytes.length) (hf : Decodes (f true) bytes b) :
    Decodes (ensure n >>= f) bytes b := by
  intro src offset rest hlen hle hdrop
  have hcount := congrArg List.length hdrop
  simp only [List.length_drop, List.length_append] at hcount
  rw [bind_apply, ensure_apply, if_pos ⟨hle, by simp only; omega⟩, ok_bind]
  exact hf src offset rest hlen hle hdrop

theorem Decodes.forAll {x : ReadM α} {enc : α → List Octet} {l : List α}
    (hx : ∀ a ∈ l, Decodes x (enc a) a) :
    Decodes (forAll x l.length) (l.flatMap enc) l := by
  induction l with
  | nil => exact .pure []
  | cons a l ih =>
    rw [List.flatMap_cons]
    refine (hx a (by simp)).bind ?_
    exact (ih fun b hb => hx b (by simp [hb])).bind_end (.pure (a :: l))

theorem Decodes.whileNoError {x : ReadM α} {enc : α → List Octet} {l : List α}
    (hx : ∀ a ∈ l, Decodes x (enc a) a) :
    Decodes (whileNoError x l.length) (l.flatMap enc) l := by
  induction l with
  | nil => exact .pure []
  | cons a l ih =>
    rw [List.flatMap_cons]
    refine .bind_nil decodes_isError ?_
    refine (hx a (by simp)).bind ?_
    exact (ih fun b hb => hx b (by simp [hb])).bind_end (.pure (a :: l))

end ReadM

namespace WriteM

variable {α : Type}

theorem bind_apply (x : WriteM Unit) (f : Unit → WriteM Unit) (w : Writer) :
    (x >>= f) w = (x w >>= fun p => f p.1 p.2) := rfl

/-- The conversion writes exactly these bytes, in either mode. -/
def Writes (x : WriteM Unit) (bytes : List Octet) : Prop :=
  ∀ w : Writer, w.error = none → w.offset ≤ intMax → x w = put bytes w

theorem put_apply (bytes : List Octet) (w : Writer) :
    put bytes w = if w.offset + bytes.length ≤ intMax then
      .ok ((), { w with pointer := w.pointer.map (store bytes w.offset),
                        offset := w.offset + bytes.length })
    else throwing .assertionFailed := by
  change (((cbAssert (decide (w.offset + bytes.length ≤ intMax)) >>= fun a =>
    .ok (a, w)) : Outcome (Unit × Writer)) >>=
    fun p =>
      (set { w with pointer := w.pointer.map (store bytes w.offset),
                    offset := w.offset + bytes.length } :
      WriteM Unit) p.2) = _
  by_cases h : w.offset + bytes.length ≤ intMax
  · rw [decide_eq_true h, if_pos h]
    rfl
  · rw [decide_eq_false h, if_neg h]
    rfl

theorem store_append (bytes bytes' : List Octet) (offset : ℕ) (memory : ℕ → Octet) :
    store bytes' (offset + bytes.length) (store bytes offset memory) =
      store (bytes ++ bytes') offset memory := by
  funext i
  simp only [store, List.length_append]
  by_cases h : offset + bytes.length ≤ i
  · have hsub : i - offset - bytes.length = i - (offset + bytes.length) := by omega
    by_cases h' : i < offset + bytes.length + bytes'.length
    · rw [if_pos ⟨h, h'⟩, if_pos ⟨by omega, by omega⟩,
        List.getD_append_right _ _ _ _ (by omega), hsub]
    · rw [if_neg (by omega), if_neg (by omega), if_neg (by omega)]
  · rw [if_neg (by omega)]
    by_cases h' : offset ≤ i
    · rw [if_pos ⟨h', by omega⟩, if_pos ⟨h', by omega⟩, List.getD_append _ _ _ _ (by omega)]
    · rw [if_neg (by omega), if_neg (by omega)]

theorem store_nil (offset : ℕ) (memory : ℕ → Octet) : store [] offset memory = memory := by
  funext i
  rw [store, if_neg (by simp only [List.length_nil]; omega)]

theorem writes_put (bytes : List Octet) : Writes (put bytes) bytes := fun _ _ _ => rfl

theorem Writes.pure : Writes (pure ()) [] := by
  intro w _ hle
  rw [put_apply, if_pos (by simpa using hle)]
  cases w with
  | mk pointer offset error =>
    cases pointer <;> simp [store_nil, Pure.pure, StateT.pure, Except.pure]

theorem writes_assert {b : Bool} (hb : b = true) : Writes (assert b) [] := by
  intro w he hle
  rw [← Writes.pure w he hle, hb]
  rfl

theorem Writes.bind {x : WriteM Unit} {f : Unit → WriteM Unit}
    {bytes bytes' : List Octet} (hx : Writes x bytes) (hf : Writes (f ()) bytes') :
    Writes (x >>= f) (bytes ++ bytes') := by
  intro w he hle
  rw [bind_apply, hx w he hle, put_apply, put_apply, List.length_append]
  by_cases h : w.offset + bytes.length ≤ intMax
  · rw [if_pos h, ok_bind]
    have hnext := hf { w with
      pointer := w.pointer.map (store bytes w.offset), offset := w.offset + bytes.length } he h
    simp only at hnext ⊢
    rw [hnext, put_apply]
    simp only [Nat.add_assoc, Option.map_map]
    by_cases h' : w.offset + (bytes.length + bytes'.length) ≤ intMax
    · rw [if_pos h', if_pos h']
      cases hp : w.pointer with
      | none => rfl
      | some memory => simp only [Option.map_some, Function.comp_apply, store_append]
    · rw [if_neg h', if_neg h']
  · rw [if_neg h, if_neg (by omega)]
    rfl

/-- A conversion that writes nothing before the rest. -/
theorem Writes.bind_nil {x : WriteM Unit} {f : Unit → WriteM Unit}
    {bytes : List Octet} (hx : Writes x []) (hf : Writes (f ()) bytes) :
    Writes (x >>= f) bytes := hx.bind hf

/-- The rest writes nothing more. -/
theorem Writes.bind_end {x : WriteM Unit} {f : Unit → WriteM Unit}
    {bytes : List Octet} (hx : Writes x bytes) (hf : Writes (f ()) []) :
    Writes (x >>= f) bytes := by
  rw [← List.append_nil bytes]
  exact hx.bind hf

/-- Whatever is done after an error, none is set while only bytes are written. -/
theorem Writes.unless {x y : WriteM Unit} {bytes : List Octet} (hy : Writes y bytes) :
    Writes (isError >>= fun e => if e = true then x else y) bytes := by
  intro w he hle
  have happly : (isError >>= fun e => if e = true then x else y) w =
    (if w.error.isSome = true then x else y) w := rfl
  rw [happly, if_neg (by simp [he])]
  exact hy w he hle

theorem Writes.forAll {x : α → WriteM Unit} {enc : α → List Octet} {l : List α}
    (hx : ∀ a ∈ l, Writes (x a) (enc a)) :
    Writes (forAll x l) (l.flatMap enc) := by
  induction l with
  | nil => exact .pure
  | cons a l ih =>
    rw [List.flatMap_cons]
    exact (hx a (by simp)).bind (ih fun b hb => hx b (by simp [hb]))

theorem Writes.whileNoError {x : α → WriteM Unit} {enc : α → List Octet} {l : List α}
    (hx : ∀ a ∈ l, Writes (x a) (enc a)) : Writes (whileNoError x l) (l.flatMap enc) := by
  induction l with
  | nil => exact .pure
  | cons a l ih =>
    rw [List.flatMap_cons]
    exact .unless ((hx a (by simp)).bind (ih fun b hb => hx b (by simp [hb])))

end WriteM

open WriteM ReadM

/-- Both passes agree, and the buffer holds the bytes of the value and nothing else. -/
theorem ser_eq {x : WriteM Unit} {bytes : List Octet} (hx : Writes x bytes) (garbage : ℕ → Octet) :
    ser garbage x = if bytes.length ≤ intMax then .ok bytes else throwing .assertionFailed := by
  rw [ser, hx ⟨none, 0, none⟩ rfl (Nat.zero_le _), hx ⟨some garbage, 0, none⟩ rfl (Nat.zero_le _),
    put_apply, put_apply]
  simp only [Nat.zero_add]
  by_cases h : bytes.length ≤ intMax
  · rw [if_pos h, if_pos h, if_pos h]
    refine congrArg Except.ok (List.ext_getElem (by simp) fun i hi hi' => ?_)
    simp [store, hi']
  · rw [if_neg h, if_neg h, if_neg h]
    rfl

theorem deser_eq {α : Type} {x : ReadM α} {bytes : List Octet} {a : α} (hx : Decodes x bytes a)
    (hlen : bytes.length ≤ intMax) : deser x bytes = .ok a := by
  rw [deser, hx bytes 0 [] hlen (Nat.zero_le _) (by simp)]
  simp

/-- A code word followed by other bytes is rejected. -/
theorem deser_append {α : Type} {x : ReadM α} {bytes rest : List Octet} {a : α}
    (hx : Decodes x bytes a) (hlen : (bytes ++ rest).length ≤ intMax) (hne : rest ≠ []) :
    deser x (bytes ++ rest) = fail .badArg := by
  have hpos := List.length_pos_of_ne_nil hne
  rw [deser, hx (bytes ++ rest) 0 rest hlen (Nat.zero_le _) (by simp)]
  simp only [ok_bind, Nat.zero_add, List.length_append]
  rw [decide_eq_false (by omega), require_false]
  rfl

/-- Untrusted bytes are decoded or refused with a code. -/
theorem deser_returns {α : Type} {x : ReadM α} (hx : Safe x) {src : List Octet}
    (hlen : src.length ≤ intMax) :
    (∃ a, deser x src = .ok a) ∨ ∃ rv, deser x src = fail rv := by
  obtain ⟨a, r, hr, -, -⟩ := hx ⟨src, 0, none⟩ ⟨Nat.zero_le _, hlen⟩
  rw [deser, hr, ok_bind]
  cases he : r.error with
  | some rv => exact .inr ⟨rv, rfl⟩
  | none =>
    simp only
    by_cases hoff : r.offset = src.length
    · exact .inl ⟨a, by rw [decide_eq_true hoff]; rfl⟩
    · exact .inr ⟨.badArg, by rw [decide_eq_false hoff]; rfl⟩

/-- No strict prefix of a code word is accepted. -/
theorem deser_prefix {α : Type} {x : ReadM α} {bytes short : List Octet} {a : α}
    (hx : Decodes x bytes a) (hs : Safe x) (ht : Stable x) (hlen : bytes.length ≤ intMax)
    (hpre : short <+: bytes) (hne : short ≠ bytes) :
    ∃ rv, deser x short = fail rv := by
  obtain ⟨rest, rfl⟩ := hpre
  have hrest : rest ≠ [] := fun h => hne (by simp [h])
  have hpos := List.length_pos_of_ne_nil hrest
  rw [List.length_append] at hlen
  refine (deser_returns hs (by omega)).resolve_left ?_
  rintro ⟨b, hb⟩
  -- what was accepted is also read from the whole code word, and ends too early
  rw [deser] at hb
  obtain ⟨⟨b', r⟩, hr, hb⟩ := bind_ok_iff.mp hb
  cases he : r.error with
  | some rv =>
    rw [he] at hb
    cases hb
  | none =>
    rw [he] at hb
    obtain ⟨hoff, -⟩ := require_bind_ok_iff.mp hb
    have hoff' : r.offset = short.length := of_decide_eq_true hoff
    obtain ⟨-, hext⟩ := ht _ _ _ hr he
    have hwhole := hx (short ++ rest) 0 [] (by rw [List.length_append]; omega)
      (Nat.zero_le _) (by simp)
    have hsame := (hext rest).symm.trans hwhole
    have hoffset := congrArg (fun p => p.2.offset) (Except.ok.inj hsame)
    simp only [Reader.extend, Nat.zero_add, List.length_append] at hoffset
    omega

end CbMpc
