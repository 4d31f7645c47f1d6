import Mathlib

/-!
# Return codes and thrown exceptions

Every fallible function of the library returns an `error_t`; a failed
`cb_assert` or a missing key of `std::map::at` throws a C++ exception instead.
The two are kept apart, since a caller can act on the first and not on the
second. The log texts handed to `coinbase::error` are not part of the result.
-/
namespace CbMpc

/-- Bytes and parties are often written as literals. With these named instances the body of a
definition holds the instance's name, where the general one would leave an auxiliary proof in each
of them. -/
instance byteNeZero : NeZero 256 := inferInstance

instance twoNeZero : NeZero 2 := inferInstance

instance fiveNeZero : NeZero 5 := inferInstance

/-- The same for the small literals of a semiring. -/
instance atLeastTwoTwo : Nat.AtLeastTwo 2 := inferInstance

instance atLeastTwoThree : Nat.AtLeastTwo 3 := inferInstance

instance atLeastTwoFive : Nat.AtLeastTwo 5 := inferInstance

/-- The nonzero `error_t` codes that the modelled functions return. -/
inductive ErrorCode where
  | general | badArg | format | notFound | insufficient | range | netGeneral | crypto
  | ecdsa2pBitLeak
  deriving DecidableEq, Repr

/-- `assertion_failed_t` comes from `cb_assert`, `outOfRange` from `std::map::at`. A loop that draws
until it is content ends in `tapeEnd` when its tape of draws is used up. `outOfBounds` is an access
outside of a buffer and `overflow` a signed sum that does not fit, which C++ leaves undefined. -/
inductive Exception where
  | assertionFailed | outOfRange | tapeEnd | outOfBounds | overflow
  deriving DecidableEq, Repr

inductive Failure where
  | code : ErrorCode → Failure
  | thrown : Exception → Failure
  deriving DecidableEq, Repr

/-- The result of a modelled function: `SUCCESS` with its outputs, or a failure. -/
abbrev Outcome (α : Type) := Except Failure α

def fail {α : Type} (rv : ErrorCode) : Outcome α := .error (.code rv)

def throwing {α : Type} (e : Exception) : Outcome α := .error (.thrown e)

def cbAssert (b : Bool) : Outcome Unit := if b then .ok () else throwing .assertionFailed

/-- `if (!b) return coinbase::error(rv)`. -/
def require (b : Bool) (rv : ErrorCode) : Outcome Unit := if b then .ok () else fail rv

/-- No exception leaves the function: it returns, with success or with a code. -/
def Returns {α : Type} (x : Outcome α) : Prop := ∀ e, x ≠ throwing e

/-- A loop that stops at the first failure. -/
def forEach {α : Type} (f : α → Outcome Unit) : List α → Outcome Unit
  | [] => .ok ()
  | a :: l => do
    f a
    forEach f l

variable {α β ε : Type}

theorem bind_ok_iff {x : Except ε α} {f : α → Except ε β} {b : β} :
    (x >>= f) = .ok b ↔ ∃ a, x = .ok a ∧ f a = .ok b := by
  cases x with
  | ok a => simp [bind, Except.bind]
  | error e => simp [bind, Except.bind]

theorem bind_error_iff {x : Except ε α} {f : α → Except ε β} {e : ε} :
    (x >>= f) = .error e ↔ x = .error e ∨ ∃ a, x = .ok a ∧ f a = .error e := by
  cases x with
  | ok a => simp [bind, Except.bind]
  | error e' => simp [bind, Except.bind]

@[simp] theorem ok_bind (a : α) (f : α → Except ε β) : (Except.ok a >>= f) = f a := rfl

@[simp] theorem error_bind (e : ε) (f : α → Except ε β) :
    ((Except.error e : Except ε α) >>= f) = .error e := rfl

@[simp] theorem cbAssert_ok_iff (b : Bool) : cbAssert b = .ok () ↔ b = true := by
  cases b <;> simp [cbAssert, throwing]

@[simp] theorem require_ok_iff (b : Bool) (rv : ErrorCode) : require b rv = .ok () ↔ b = true := by
  cases b <;> simp [require, fail]

@[simp] theorem cbAssert_true : cbAssert true = .ok () := rfl

@[simp] theorem require_true (rv : ErrorCode) : require true rv = .ok () := rfl

@[simp] theorem require_false (rv : ErrorCode) : require false rv = fail rv := rfl

theorem require_bind_ok_iff {b : Bool} {rv : ErrorCode} {f : Unit → Outcome α} {a : α} :
    (require b rv >>= f) = .ok a ↔ b = true ∧ f () = .ok a := by
  cases b <;> simp [require, fail]

theorem cbAssert_bind_ok_iff {b : Bool} {f : Unit → Outcome α} {a : α} :
    (cbAssert b >>= f) = .ok a ↔ b = true ∧ f () = .ok a := by
  cases b <;> simp [cbAssert, throwing]

theorem unit_bind_ok_iff {x : Outcome Unit} {f : Unit → Outcome α} {a : α} :
    (x >>= f) = .ok a ↔ x = .ok () ∧ f () = .ok a :=
  bind_ok_iff.trans ⟨fun ⟨⟨⟩, h⟩ => h, fun h => ⟨(), h⟩⟩

theorem returns_ok (a : α) : Returns (.ok a) := by
  intro e h
  simp [throwing] at h

theorem returns_fail (rv : ErrorCode) : Returns (fail rv : Outcome α) := by
  intro e h
  simp [throwing, fail] at h

theorem returns_require (b : Bool) (rv : ErrorCode) : Returns (require b rv) := by
  cases b
  · exact returns_fail rv
  · exact returns_ok ()

/-- A sequence returns exactly when its head does and, on success, its tail does. -/
theorem returns_bind_iff {x : Outcome α} {f : α → Outcome β} :
    Returns (x >>= f) ↔ Returns x ∧ ∀ a, x = .ok a → Returns (f a) := by
  cases x with
  | ok a => simp [returns_ok]
  | error e =>
    cases e with
    | code rv => exact ⟨fun _ => ⟨returns_fail rv, by simp⟩, fun _ => returns_fail rv⟩
    | thrown e => simp [Returns, throwing]

theorem forEach_ok_iff {f : α → Outcome Unit} {l : List α} :
    forEach f l = .ok () ↔ ∀ a ∈ l, f a = .ok () := by
  induction l with
  | nil => simp [forEach]
  | cons a l ih =>
    rw [forEach, bind_ok_iff, List.forall_mem_cons, ih]
    exact exists_and_right.trans (and_congr_left' Unique.exists_iff)

/-- A loop returns when each turn that is reached does. -/
theorem returns_forEach_iff {f : α → Outcome Unit} {l : List α} :
    Returns (forEach f l) ↔
      ∀ l₁ a l₂, l = l₁ ++ a :: l₂ → (∀ b ∈ l₁, f b = .ok ()) → Returns (f a) := by
  induction l with
  | nil => simp [forEach, returns_ok]
  | cons a l ih =>
    rw [forEach, returns_bind_iff, ih]
    constructor
    · rintro ⟨ha, hl⟩ l₁ b l₂ he hb
      cases l₁ with
      | nil =>
        cases he
        exact ha
      | cons c l₁ =>
        cases he
        exact hl () (hb a (by simp)) l₁ b l₂ rfl fun d hd => hb d (by simp [hd])
    · intro h
      refine ⟨h [] a l rfl (by simp), fun _ ha l₁ b l₂ he hb => ?_⟩
      refine h (a :: l₁) b l₂ (by simp [he]) ?_
      simpa using ⟨ha, hb⟩

theorem returns_of_ok {x : Outcome α} {a : α} (h : x = .ok a) : Returns x := h ▸ returns_ok a

theorem returns_foldlM {f : β → α → Outcome β} {l : List α}
    (h : ∀ b, ∀ a ∈ l, Returns (f b a)) (b : β) :
    Returns (l.foldlM f b) := by
  induction l generalizing b with
  | nil => exact returns_ok b
  | cons a l ih =>
    rw [List.foldlM_cons, returns_bind_iff]
    exact ⟨h b a (by simp), fun c _ => ih (fun b a ha => h b a (by simp [ha])) c⟩

theorem returns_forEach {f : α → Outcome Unit} {l : List α} (h : ∀ a ∈ l, Returns (f a)) :
    Returns (forEach f l) :=
  returns_forEach_iff.mpr fun _ a _ hl _ => h a (by simp [hl])

/-- No error code is returned: the function succeeds or throws. -/
def NoCode (x : Outcome α) : Prop := ∀ rv, x ≠ fail rv

theorem noCode_cbAssert (b : Bool) : NoCode (cbAssert b) := by
  cases b <;> simp [NoCode, cbAssert, throwing, fail]

theorem NoCode.bind {x : Outcome α} {f : α → Outcome β} (hx : NoCode x) (hf : ∀ a, NoCode (f a)) :
    NoCode (x >>= f) := by
  intro rv h
  rcases bind_error_iff.mp h with h | ⟨a, -, h⟩
  · exact hx rv h
  · exact hf a rv h

theorem NoCode.forEach {f : α → Outcome Unit} (hf : ∀ a, NoCode (f a)) (l : List α) :
    NoCode (forEach f l) := by
  induction l with
  | nil => simp [NoCode, CbMpc.forEach, fail]
  | cons a l ih => exact (hf a).bind fun _ => ih

theorem NoCode.returns_iff {x : Outcome Unit} (hx : NoCode x) : Returns x ↔ x = .ok () := by
  constructor
  · intro h
    cases x with
    | ok u => rfl
    | error e =>
      cases e with
      | code rv => exact absurd rfl (hx rv)
      | thrown e => exact absurd rfl (h e)
  · exact returns_of_ok

/-- A loop whose turns test something that does not depend on the accumulated value:
all tests come first. `I` is an invariant of the accumulated value. -/
theorem foldlM_guarded {I : β → Prop} {f : β → α → Outcome β} {t : α → Outcome Unit} {g : β → α → β}
    (hf : ∀ acc a, I acc → f acc a = (t a >>= fun _ => .ok (g acc a)) ∧ I (g acc a)) (l : List α)
    {b : β} (hb : I b) :
    l.foldlM f b = (forEach t l >>= fun _ => .ok (l.foldl g b)) := by
  induction l generalizing b with
  | nil => rfl
  | cons a l ih =>
    obtain ⟨hstep, hinv⟩ := hf b a hb
    rw [List.foldlM_cons, hstep, forEach, List.foldl_cons]
    cases hg : t a with
    | error e => simp
    | ok u =>
      simp only [ok_bind]
      exact ih hinv

theorem noCode_ok (a : α) : NoCode (.ok a) := by simp [NoCode, fail]

/-- A loop that succeeds has succeeded in every turn. -/
theorem foldlM_ok_mem {f : β → α → Outcome β} {l : List α} {b c : β} (h : l.foldlM f b = .ok c) :
    ∀ a ∈ l, ∃ b' c', f b' a = .ok c' := by
  induction l generalizing b with
  | nil => simp
  | cons d l ih =>
    rw [List.foldlM_cons] at h
    obtain ⟨b', hb', h⟩ := bind_ok_iff.mp h
    intro a ha
    rcases List.mem_cons.mp ha with rfl | ha
    · exact ⟨b, b', hb'⟩
    · exact ih h a ha

/-- A loop succeeds when each turn does from a state with the invariant, and keeps it. -/
theorem foldlM_ok_of_invariant {I : β → Prop} {f : β → α → Outcome β} {l : List α} {b : β}
    (hf : ∀ b, ∀ a ∈ l, I b → ∃ c, f b a = .ok c ∧ I c) (hb : I b) :
    ∃ c, l.foldlM f b = .ok c ∧ I c := by
  induction l generalizing b with
  | nil => exact ⟨b, rfl, hb⟩
  | cons a l ih =>
    obtain ⟨c, hc, hI⟩ := hf b a (by simp) hb
    rw [List.foldlM_cons, hc, ok_bind]
    exact ih (fun b a ha => hf b a (by simp [ha])) hI

/-- A loop whose turns keep an invariant that knows how many turns have passed. -/
theorem foldlM_range_ok {I : ℕ → β → Prop} {f : β → ℕ → Outcome β} {b : β} (n : ℕ)
    (hf : ∀ t < n, ∀ b, I t b → ∃ c, f b t = .ok c ∧ I (t + 1) c) (hb : I 0 b) :
    ∃ c, (List.range n).foldlM f b = .ok c ∧ I n c := by
  induction n with
  | zero => exact ⟨b, rfl, hb⟩
  | succ n ih =>
    obtain ⟨c, hc, hI⟩ := ih fun t ht => hf t (by omega)
    obtain ⟨d, hd, hlast⟩ := hf n (by omega) c hI
    refine ⟨d, ?_, hlast⟩
    rw [List.range_succ, List.foldlM_append, hc, ok_bind, List.foldlM_cons, hd, ok_bind]
    rfl

theorem mapM_ok {f : α → Outcome β} {g : α → β} {l : List α} (h : ∀ a ∈ l, f a = .ok (g a)) :
    l.mapM f = .ok (l.map g) := by
  induction l with
  | nil => rfl
  | cons a l ih =>
    rw [List.mapM_cons, h a (by simp), ih fun b hb => h b (by simp [hb])]
    rfl

theorem mapM_congr {f g : α → Outcome β} {l : List α} (h : ∀ a ∈ l, f a = g a) :
    l.mapM f = l.mapM g := by
  induction l with
  | nil => rfl
  | cons a l ih =>
    rw [List.mapM_cons, List.mapM_cons, h a (by simp), ih fun b hb => h b (by simp [hb])]

theorem mapM_ok_iff {f : α → Outcome β} {l : List α} {bs : List β} :
    l.mapM f = .ok bs ↔ List.Forall₂ (fun a b => f a = .ok b) l bs := by
  induction l generalizing bs with
  | nil =>
    rw [List.mapM_nil, List.forall₂_nil_left_iff]
    exact ⟨fun h => (Except.ok.inj h).symm, fun h => h ▸ rfl⟩
  | cons a l ih =>
    rw [List.mapM_cons, List.forall₂_cons_left_iff, bind_ok_iff]
    constructor
    · rintro ⟨b, hb, h⟩
      obtain ⟨bs', hbs', h⟩ := bind_ok_iff.mp h
      cases h
      exact ⟨b, bs', hb, ih.mp hbs', rfl⟩
    · rintro ⟨b, bs', hb, hbs', rfl⟩
      exact ⟨b, hb, bind_ok_iff.mpr ⟨bs', ih.mpr hbs', rfl⟩⟩

theorem exists_mapM_ok_iff {f : α → Outcome β} {l : List α} :
    (∃ bs, l.mapM f = .ok bs) ↔ ∀ a ∈ l, ∃ b, f a = .ok b := by
  induction l with
  | nil => exact ⟨fun _ a ha => absurd ha (by simp), fun _ => ⟨[], rfl⟩⟩
  | cons a l ih =>
    rw [List.forall_mem_cons, ← ih, List.mapM_cons]
    constructor
    · rintro ⟨bs, h⟩
      obtain ⟨b, hb, h⟩ := bind_ok_iff.mp h
      obtain ⟨bs', hbs', -⟩ := bind_ok_iff.mp h
      exact ⟨⟨b, hb⟩, bs', hbs'⟩
    · rintro ⟨⟨b, hb⟩, bs, hbs⟩
      exact ⟨b :: bs, bind_ok_iff.mpr ⟨b, hb, bind_ok_iff.mpr ⟨bs, hbs, rfl⟩⟩⟩

theorem getD_map_range (f : ℕ → β) (d : β) {n i : ℕ} (h : i < n) :
    ((List.range n).map f).getD i d = f i := by
  rw [List.getD_eq_getElem _ _ (by simpa using h)]
  simp

theorem mapM_range_ok {f : ℕ → Outcome β} {n : ℕ} {bs : List β}
    (h : (List.range n).mapM f = .ok bs) (d : β) :
    bs.length = n ∧ ∀ i < n, f i = .ok (bs.getD i d) := by
  have hforall := mapM_ok_iff.mp h
  have hlen : bs.length = n := by simpa using hforall.length_eq.symm
  refine ⟨hlen, fun i hi => ?_⟩
  have hget := hforall.get (by simpa using hi : i < (List.range n).length)
    (by omega : i < bs.length)
  rw [List.getD_eq_getElem _ _ (by omega)]
  simpa using hget

/-- A loop with an index, whose turns succeed with something that holds of their index. -/
theorem zipIdx_mapM_ok {f : α × ℕ → Outcome β} {R : β → ℕ → Prop} {l : List α}
    (h : ∀ σ ∈ l.zipIdx, ∃ b, f σ = .ok b ∧ R b σ.2) :
    ∃ bs, l.zipIdx.mapM f = .ok bs ∧ ∀ ρ ∈ bs.zipIdx, R ρ.1 ρ.2 := by
  obtain ⟨bs, hbs⟩ := exists_mapM_ok_iff.mpr fun σ hσ => (h σ hσ).imp fun b hb => hb.1
  refine ⟨bs, hbs, ?_⟩
  rintro ⟨b, i⟩ hρ
  have hforall := mapM_ok_iff.mp hbs
  have hρ' : bs[i]? = some b := List.mem_zipIdx_iff_getElem?.mp hρ
  obtain ⟨hi, rfl⟩ := List.getElem?_eq_some_iff.mp hρ'
  have hil : i < l.zipIdx.length := by rw [hforall.length_eq]; exact hi
  obtain ⟨b, hb, hR⟩ := h _ (List.getElem_mem hil)
  have hget := hforall.get hil hi
  rw [List.get_eq_getElem, hb] at hget
  cases hget
  simpa using hR

theorem NoCode.mapM {f : α → Outcome β} {l : List α}
    (hf : ∀ a ∈ l, NoCode (f a)) : NoCode (l.mapM f) := by
  induction l with
  | nil => exact noCode_ok []
  | cons a l ih =>
    rw [List.mapM_cons]
    exact (hf a (by simp)).bind fun b =>
      (ih fun c hc => hf c (by simp [hc])).bind fun bs => noCode_ok (b :: bs)

end CbMpc
