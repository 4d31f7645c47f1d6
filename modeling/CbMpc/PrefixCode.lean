import Mathlib

/-!
# Codes whose words do not run into each other

A code relates values to words. It is unambiguous when a value can be told from the front of any
sequence that starts with one of its words, and what follows the word with it. Pairs of such codes,
and sequences of a number that is known or written in front, are unambiguous again. Where a word
leaves something open about its value, the code separates the values up to a relation.
-/
namespace PrefixCode

variable {α β γ : Type}

/-- Values that can be read from the front of one sequence are alike, and leave one rest. -/
def Separates (E : α → α → Prop) (R : α → List γ → Prop) : Prop :=
  ∀ ⦃a b s t⦄, R a s → R b t → ∀ ⦃x y⦄, s ++ x = t ++ y → E a b ∧ x = y

/-- From the front of a sequence one value at most can be read, and one rest. -/
def Unambiguous (R : α → List γ → Prop) : Prop := Separates Eq R

/-- The code of an encoder on the values in `S`. -/
def graph (S : α → Prop) (e : α → List γ) (a : α) (s : List γ) : Prop := S a ∧ s = e a

variable {E : α → α → Prop} {R R' : α → List γ → Prop} {Q : β → List γ → Prop}

theorem Separates.alike (h : Separates E R) {a b : α} {s : List γ}
    (ha : R a s) (hb : R b s) : E a b :=
  (h ha hb (rfl : s ++ [] = s ++ [])).1

theorem Separates.mono (h : Separates E R) (hle : ∀ a s, R' a s → R a s) : Separates E R' :=
  fun _ _ _ _ ha hb _ _ hxy => h (hle _ _ ha) (hle _ _ hb) hxy

theorem Unambiguous.eq (h : Unambiguous R) {a b : α} {s : List γ}
    (ha : R a s) (hb : R b s) : a = b :=
  Separates.alike h ha hb

theorem Unambiguous.mono (h : Unambiguous R) (hle : ∀ a s, R' a s → R a s) : Unambiguous R' :=
  Separates.mono h hle

/-- Words of one length do not run into each other. -/
theorem unambiguous_of_length {n : ℕ} (hlen : ∀ a s, R a s → s.length = n)
    (hinj : ∀ a b s, R a s → R b s → a = b) :
    Unambiguous R := by
  intro a b s t ha hb x y hxy
  obtain ⟨rfl, rfl⟩ := List.append_inj hxy ((hlen a s ha).trans (hlen b t hb).symm)
  exact ⟨hinj a b s ha hb, rfl⟩

/-- A word behind another one. -/
theorem Unambiguous.pair (hR : Unambiguous R) (hQ : Unambiguous Q) :
    Unambiguous fun (p : α × β) s => ∃ u v, R p.1 u ∧ Q p.2 v ∧ s = u ++ v := by
  rintro ⟨a, b⟩ ⟨a', b'⟩ s t ⟨u, v, hu, hv, rfl⟩ ⟨u', v', hu', hv', rfl⟩ x y hxy
  rw [List.append_assoc, List.append_assoc] at hxy
  obtain ⟨rfl, hrest⟩ := hR hu hu' hxy
  obtain ⟨rfl, rfl⟩ := hQ hv hv' hrest
  exact ⟨rfl, rfl⟩

/-- Sequences of one length, word by word. -/
theorem Separates.flatten (h : Separates E R) {l l' : List α} {ps qs : List (List γ)}
    (hl : List.Forall₂ R l ps) (hl' : List.Forall₂ R l' qs) (hlen : l.length = l'.length)
    {x y : List γ} (hxy : ps.flatten ++ x = qs.flatten ++ y) :
    List.Forall₂ E l l' ∧ x = y := by
  induction hl generalizing l' qs with
  | nil =>
    cases hl' with
    | nil => exact ⟨.nil, hxy⟩
    | cons hb hl' => simp at hlen
  | cons ha hl ih =>
    cases hl' with
    | nil => simp at hlen
    | cons hb hl' =>
      rw [List.flatten_cons, List.flatten_cons, List.append_assoc, List.append_assoc] at hxy
      obtain ⟨hab, hrest⟩ := h ha hb hxy
      obtain ⟨htail, hxy⟩ := ih hl' (Nat.succ.inj hlen) hrest
      exact ⟨.cons hab htail, hxy⟩

theorem Unambiguous.flatten (h : Unambiguous R) {l l' : List α} {ps qs : List (List γ)}
    (hl : List.Forall₂ R l ps) (hl' : List.Forall₂ R l' qs) (hlen : l.length = l'.length)
    {x y : List γ} (hxy : ps.flatten ++ x = qs.flatten ++ y) :
    l = l' ∧ x = y := by
  have hflat := Separates.flatten h hl hl' hlen hxy
  rwa [List.forall₂_eq_eq_eq] at hflat

/-- Sequences behind their number. -/
theorem Separates.counted (h : Separates E R) {T : ℕ → List γ → Prop} (hT : Unambiguous T) :
    Separates (List.Forall₂ E) fun (l : List α) s => ∃ u ps, T l.length u ∧ List.Forall₂ R l ps ∧
    s = u ++ ps.flatten := by
  rintro l l' s t ⟨u, ps, hu, hps, rfl⟩ ⟨u', qs, hu', hqs, rfl⟩ x y hxy
  rw [List.append_assoc, List.append_assoc] at hxy
  obtain ⟨hlen, hrest⟩ := hT hu hu' hxy
  exact h.flatten hps hqs hlen hrest

theorem Unambiguous.counted (h : Unambiguous R) {T : ℕ → List γ → Prop} (hT : Unambiguous T) :
    Unambiguous fun (l : List α) s => ∃ u ps, T l.length u ∧ List.Forall₂ R l ps ∧
    s = u ++ ps.flatten := by
  have hcounted := Separates.counted h hT
  rwa [List.forall₂_eq_eq_eq] at hcounted

/-- The words of an encoder, in sequence. -/
theorem forall₂_words {e : α → List γ} {l : List α} (h : ∀ a ∈ l, R a (e a)) :
    List.Forall₂ R l (l.map e) :=
  List.forall₂_map_right_iff.mpr (List.forall₂_same.mpr h)

end PrefixCode
