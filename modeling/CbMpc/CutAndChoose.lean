import CbMpc.Outcome

/-!
# Cut and choose

A loop over an array stops at the first failure, and a search over an array goes on behind every
error code. A challenge says which side of every row is opened, so two challenges that differ open
both sides of a row.
-/
namespace CbMpc

variable {α β : Type}

/-- Fill an array, from its first element on. -/
def forRows : {n : ℕ} → (Fin n → Outcome α) → Outcome (Fin n → α)
  | 0, _ => .ok Fin.elim0
  | _ + 1, f => do
    let a ← f ⟨0, Nat.succ_pos _⟩
    let rest ← forRows fun i => f i.succ
    .ok (Fin.cons a rest)

/-- The first element that succeeds. Error codes are passed over. -/
def tryRows (f : α → Outcome β) : List α → Outcome β
  | [] => fail .crypto
  | a :: l =>
    match f a with
    | .error (.code _) => tryRows f l
    | x => x

theorem forRows_ok_iff {n : ℕ} {f : Fin n → Outcome α} {g : Fin n → α} :
    forRows f = .ok g ↔ ∀ i, f i = .ok (g i) := by
  induction n with
  | zero =>
    simp only [forRows, Except.ok.injEq]
    exact ⟨fun _ i => i.elim0, fun _ => funext fun i => i.elim0⟩
  | succ n ih =>
    simp only [forRows, bind_ok_iff, Fin.forall_fin_succ, Fin.mk_zero]
    constructor
    · rintro ⟨a, ha, rest, hrest, h⟩
      obtain rfl := Except.ok.inj h
      exact ⟨ha, ih.mp hrest⟩
    · rintro ⟨ha, hrest⟩
      exact ⟨g 0, ha, fun i => g i.succ, ih.mpr hrest, congrArg Except.ok (Fin.cons_self_tail g)⟩

theorem forRows_defined {n : ℕ} {f : Fin n → Outcome α} (h : ∀ i, ∃ a, f i = .ok a) :
    ∃ g, forRows f = .ok g := by
  choose g hg using h
  exact ⟨g, forRows_ok_iff.mpr hg⟩

theorem tryRows_cons_code {f : α → Outcome β} {a : α} {rv : ErrorCode}
    (h : f a = fail rv) (l : List α) :
    tryRows f (a :: l) = tryRows f l := by
  rw [tryRows, h, fail]

theorem tryRows_cons_ok {f : α → Outcome β} {a : α} {b : β} (h : f a = .ok b) (l : List α) :
    tryRows f (a :: l) = .ok b := by
  rw [tryRows, h]

/-- What a search finds is what one of the elements yields. -/
theorem tryRows_ok {f : α → Outcome β} {l : List α} {b : β} (h : tryRows f l = .ok b) :
    ∃ a ∈ l, f a = .ok b := by
  induction l with
  | nil => simp [tryRows, fail] at h
  | cons a l ih =>
    cases ha : f a with
    | ok b' =>
      rw [tryRows_cons_ok ha] at h
      exact ⟨a, List.mem_cons_self, ha.trans h⟩
    | error e =>
      cases e with
      | code rv =>
        rw [tryRows_cons_code ha] at h
        obtain ⟨a', ha', hb⟩ := ih h
        exact ⟨a', List.mem_cons_of_mem a ha', hb⟩
      | thrown e => simp [tryRows, ha] at h

/-- A search that no element interrupts finds something when one element has something. -/
theorem tryRows_defined {f : α → Outcome β} {l : List α} (hreturns : ∀ a ∈ l, Returns (f a))
    {a : α} (ha : a ∈ l) {b : β} (h : f a = .ok b) : ∃ b', tryRows f l = .ok b' := by
  induction l with
  | nil => exact absurd ha List.not_mem_nil
  | cons c l ih =>
    cases hc : f c with
    | ok b' => exact ⟨b', tryRows_cons_ok hc l⟩
    | error e =>
      cases e with
      | code rv =>
        rw [tryRows_cons_code hc]
        rcases List.mem_cons.mp ha with rfl | ha
        · rw [hc] at h
          cases h
        · exact ih (fun a ha => hreturns a (List.mem_cons_of_mem c ha)) ha
      | thrown e => exact absurd hc (hreturns c List.mem_cons_self e)

/-- Two challenges that differ open some row on different sides. -/
theorem exists_getLsbD_ne {n : ℕ} {b b' : BitVec n} (hne : b ≠ b') :
    ∃ i : Fin n, b'.getLsbD i = !b.getLsbD i := by
  by_contra! hall
  apply hne
  apply BitVec.eq_of_getLsbD_eq
  intro i hi
  have hbit := hall ⟨i, hi⟩
  cases hb : b.getLsbD i <;> simp_all

end CbMpc
