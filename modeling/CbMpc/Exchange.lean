import Mathlib.Algebra.BigOperators.Group.Finset.Basic
import Mathlib.Algebra.Order.BigOperators.Group.Finset
import Mathlib.Data.Fintype.Basic
import Mathlib.Logic.Relation
import Mathlib.Logic.Function.Basic

/-!
# One exchange over pairwise channels

Each party first sends what it has to send and then waits for its peers, over one queue for
each ordered pair. The parties run in any order. When everyone waits for exactly those that
send to it, no order blocks, and all orders deliver the same.
-/
namespace Exchange

variable {ι β : Type} [DecidableEq ι]

/-- The parties' remaining work, the queues from a sender to a receiver, and what has arrived. -/
structure Net (ι β : Type) where
  sends : ι → List (ι × β)
  awaits : ι → List ι
  queue : ι → ι → List β
  got : ι → ι → Option β

namespace Net

def start (sends : ι → List (ι × β)) (awaits : ι → List ι) : Net ι β :=
  ⟨sends, awaits, fun _ _ => [], fun _ _ => none⟩

/-- A party that has neither to send nor to wait. -/
def Finished (s : Net ι β) (i : ι) : Prop := s.sends i = [] ∧ s.awaits i = []

/-- One entry of a table of pairs. -/
def put {γ : Type} (t : ι → ι → γ) (i j : ι) (c : γ) : ι → ι → γ :=
  Function.update t i (Function.update (t i) j c)

/-- The first message of a party goes into its queue. -/
def sent (s : Net ι β) (i j : ι) (b : β) (rest : List (ι × β)) : Net ι β :=
  { s with sends := Function.update s.sends i rest, queue := put s.queue i j (s.queue i j ++ [b]) }

/-- A party takes the first message of a queue. -/
def taken (s : Net ι β) (i k : ι) (b : β) (rest : List β) : Net ι β where
  sends := s.sends
  awaits := Function.update s.awaits i ((s.awaits i).erase k)
  queue := put s.queue k i rest
  got := put s.got i k (some b)

/-- One party acts. -/
inductive Step : Net ι β → Net ι β → Prop
  | send {s : Net ι β} {i j : ι} {b : β} {rest : List (ι × β)} (h : s.sends i = (j, b) :: rest) :
    Step s (s.sent i j b rest)
  | receive {s : Net ι β} {i k : ι} {b : β} {rest : List β} (hdone : s.sends i = [])
      (hawait : k ∈ s.awaits i)
      (h : s.queue k i = b :: rest) : Step s (s.taken i k b rest)

/-- What a sender still has for a receiver. -/
def toward (l : List (ι × β)) (i : ι) : List β :=
  l.filterMap fun p => if p.1 = i then some p.2 else none

/-- What is on its way, in the queue or still with the sender. -/
def underway (s : Net ι β) (k i : ι) : List β := s.queue k i ++ toward (s.sends k) i

/-- Nothing is lost, doubled or mixed up: what is awaited is on its way, and all else has
arrived. -/
structure Consistent (msg : ι → ι → Option β) (s : Net ι β) : Prop where
  nodup : ∀ i, (s.awaits i).Nodup
  awaited : ∀ i, ∀ k ∈ s.awaits i, ∃ b, msg k i = some b ∧ s.underway k i = [b] ∧ s.got i k = none
  arrived : ∀ i k, k ∉ s.awaits i → s.underway k i = [] ∧ s.got i k = msg k i

section Put

variable {γ : Type} (t : ι → ι → γ) (c : γ)

@[simp] theorem put_same (i j : ι) : put t i j c i j = c := by simp [put]

theorem put_other {i j a b : ι} (h : ¬ (a = i ∧ b = j)) : put t i j c a b = t a b := by
  unfold put
  by_cases ha : a = i
  · subst ha
    rw [Function.update_self, Function.update_of_ne fun hb => h ⟨rfl, hb⟩]
  · rw [Function.update_of_ne ha]

end Put

section Steps

variable {msg : ι → ι → Option β} {s s' : Net ι β}

theorem toward_cons_self (j : ι) (b : β) (rest : List (ι × β)) :
    toward ((j, b) :: rest) j = b :: toward rest j := by
  simp [toward]

theorem toward_cons_other {i j : ι} (h : i ≠ j) (b : β) (rest : List (ι × β)) :
    toward ((j, b) :: rest) i = toward rest i := by
  simp [toward, Ne.symm h]

/-- A message on its way to the queue stays on its way. -/
theorem underway_sent {i j : ι} {b : β} {rest : List (ι × β)}
    (h : s.sends i = (j, b) :: rest) (k a : ι) :
    (s.sent i j b rest).underway k a = s.underway k a := by
  change put s.queue i j (s.queue i j ++ [b]) k a ++ toward (Function.update s.sends i rest k) a = _
  rw [underway]
  by_cases hk : k = i
  · subst hk
    rw [Function.update_self, h]
    by_cases ha : a = j
    · subst ha
      rw [put_same, toward_cons_self, List.append_assoc]
      rfl
    · rw [put_other _ _ fun hand => ha hand.2, toward_cons_other ha]
  · rw [Function.update_of_ne hk, put_other _ _ fun hand => hk hand.1]

theorem underway_taken_other {i k : ι} {b : β} {rest : List β} {a c : ι} (h : ¬ (c = k ∧ a = i)) :
    (s.taken i k b rest).underway c a = s.underway c a := by
  change put s.queue k i rest c a ++ _ = _
  rw [put_other _ _ h]
  rfl

theorem Consistent.sent (hs : Consistent msg s) {i j : ι} {b : β} {rest : List (ι × β)}
    (h : s.sends i = (j, b) :: rest) :
    Consistent msg (s.sent i j b rest) where
  nodup := hs.nodup
  awaited a k hk := by
    rw [underway_sent h]
    exact hs.awaited a k hk
  arrived a k hk := by
    rw [underway_sent h]
    exact hs.arrived a k hk

/-- The message that is taken is the one that was meant. -/
theorem Consistent.taken (hs : Consistent msg s) {i k : ι} {b : β} {rest : List β}
    (hawait : k ∈ s.awaits i) (h : s.queue k i = b :: rest) :
    Consistent msg (s.taken i k b rest) := by
  obtain ⟨b', hmsg, hway, -⟩ := hs.awaited i k hawait
  have hfirst : b :: (rest ++ toward (s.sends k) i) = [b'] := by
    rw [← hway, underway, h]
    rfl
  obtain ⟨rfl, hempty⟩ := List.cons.inj hfirst
  have hmem : ∀ a c, c ∈ (s.taken i k b rest).awaits a ↔ c ∈ s.awaits a ∧
      ¬ (c = k ∧ a = i) := fun a c => by
    change c ∈ Function.update s.awaits i ((s.awaits i).erase k) a ↔ _
    by_cases ha : a = i
    · subst ha
      rw [Function.update_self, (hs.nodup a).mem_erase_iff]
      tauto
    · rw [Function.update_of_ne ha]
      tauto
  have hgot : ∀ a c, ¬ (c = k ∧ a = i) → (s.taken i k b rest).got a c = s.got a c := fun a c hne =>
    put_other _ _ fun hand => hne hand.symm
  constructor
  · intro a
    by_cases ha : a = i
    · subst ha
      exact (congrArg List.Nodup (Function.update_self a _ _)).mpr ((hs.nodup a).erase k)
    · exact (congrArg List.Nodup (Function.update_of_ne ha _ _)).mpr (hs.nodup a)
  · intro a c hc
    obtain ⟨hc, hne⟩ := (hmem a c).mp hc
    rw [underway_taken_other hne, hgot a c hne]
    exact hs.awaited a c hc
  · intro a c hc
    by_cases hne : c = k ∧ a = i
    · obtain ⟨rfl, rfl⟩ := hne
      constructor
      · rw [underway, show (s.taken a c b rest).queue c a = rest from put_same _ _ _ _]
        exact hempty
      · rw [hmsg]
        exact put_same _ _ _ _
    · rw [underway_taken_other hne, hgot a c hne]
      exact hs.arrived a c fun hold => hc ((hmem a c).mpr ⟨hold, hne⟩)

theorem Consistent.step (hs : Consistent msg s) (h : Step s s') : Consistent msg s' := by
  cases h with
  | send h => exact hs.sent h
  | receive _ hawait h => exact hs.taken hawait h

theorem Consistent.run (hs : Consistent msg s) (h : Relation.ReflTransGen Step s s') :
    Consistent msg s' := by
  induction h with
  | refl => exact hs
  | tail _ hstep ih => exact ih.step hstep

/-- A party that is done holds what everyone had for it. -/
theorem Consistent.got_eq (hs : Consistent msg s) {i : ι} (h : s.Finished i)
    (k : ι) : s.got i k = msg k i :=
  (hs.arrived i k (by simp [h.2])).2

/-- While a party is at work, some party can act. -/
theorem Consistent.progress (hs : Consistent msg s) {i : ι} (h : ¬ s.Finished i) : ∃ s',
      Step s s' := by
  by_cases hsends : ∃ k, s.sends k ≠ []
  · obtain ⟨k, hk⟩ := hsends
    obtain ⟨⟨j, b⟩, rest, hk⟩ := List.exists_cons_of_ne_nil hk
    exact ⟨_, .send hk⟩
  · have hnone : ∀ k, s.sends k = [] := fun k => by_contra fun hk => hsends ⟨k, hk⟩
    have hawaits : s.awaits i ≠ [] := fun hempty => h ⟨hnone i, hempty⟩
    obtain ⟨k, rest, hk⟩ := List.exists_cons_of_ne_nil hawaits
    have hmem : k ∈ s.awaits i := by simp [hk]
    obtain ⟨b, -, hway, -⟩ := hs.awaited i k hmem
    rw [underway, hnone k] at hway
    exact ⟨_, .receive (hnone i) hmem ((List.append_nil _).symm.trans hway)⟩

/-- The parties start with one message for each of those that wait for them. -/
theorem consistent_start {sends : ι → List (ι × β)} {awaits : ι → List ι}
    (hnodup : ∀ i, (awaits i).Nodup) (hsends : ∀ k i, toward (sends k) i = (msg k i).toList)
    (hawaits : ∀ i k, k ∈ awaits i ↔ (msg k i).isSome = true) :
    Consistent msg (start sends awaits) where
  nodup := hnodup
  awaited i k hk := by
    obtain ⟨b, hb⟩ := Option.isSome_iff_exists.mp ((hawaits i k).mp hk)
    have hway : toward (sends k) i = [b] := by rw [hsends, hb, Option.toList_some]
    exact ⟨b, hb, hway, rfl⟩
  arrived i k hk := by
    have hnone : msg k i = none := Option.not_isSome_iff_eq_none.mp fun h =>
      hk ((hawaits i k).mpr h)
    have hway : toward (sends k) i = [] := by rw [hsends, hnone, Option.toList_none]
    exact ⟨hway, hnone.symm⟩

end Steps

section Measure

variable [Fintype ι]

/-- The number of steps that are left. -/
def todo (s : Net ι β) : ℕ := ∑ i, ((s.sends i).length + (s.awaits i).length)

/-- A sum changes as one of its terms does. -/
theorem sum_update_lt {f g : ι → ℕ} {i : ι} (hi : f i + 1 = g i)
    (hothers : ∀ k, k ≠ i → f k = g k) :
    ∑ k, f k + 1 = ∑ k, g k := by
  have hrest : ∑ k ∈ Finset.univ.erase i, f k = ∑ k ∈ Finset.univ.erase i, g k :=
    Finset.sum_congr rfl fun k hk => hothers k (Finset.ne_of_mem_erase hk)
  have hf : f i + ∑ k ∈ Finset.univ.erase i, f k = ∑ k, f k :=
    Finset.add_sum_erase _ f (Finset.mem_univ i)
  have hg : g i + ∑ k ∈ Finset.univ.erase i, g k = ∑ k, g k :=
    Finset.add_sum_erase _ g (Finset.mem_univ i)
  omega

/-- Every step is one less to do, so no run is longer than the work at its start. -/
theorem todo_step {s s' : Net ι β} (h : Step s s') : s'.todo + 1 = s.todo := by
  cases h with
  | @send i j b rest h =>
    refine @sum_update_lt _ _ _ _ _ i ?_ fun k hk => ?_
    · change (Function.update s.sends i rest i).length + (s.awaits i).length + 1 = _
      rw [Function.update_self, h, List.length_cons]
      omega
    · change (Function.update s.sends i rest k).length + _ = _
      rw [Function.update_of_ne hk]
      rfl
  | @receive i k b rest _ hawait h =>
    refine @sum_update_lt _ _ _ _ _ i ?_ fun c hc => ?_
    · change _ + (Function.update s.awaits i ((s.awaits i).erase k) i).length + 1 = _
      have hpos := List.length_pos_of_mem hawait
      rw [Function.update_self, List.length_erase_of_mem hawait]
      change (s.sends i).length + _ + 1 = _
      omega
    · change _ + (Function.update s.awaits i ((s.awaits i).erase k) c).length = _
      rw [Function.update_of_ne hc]
      rfl

/-- Every run can be continued until all parties are done. -/
theorem Consistent.run_to_end {msg : ι → ι → Option β} {s : Net ι β} (hs : Consistent msg s) :
    ∃ s', Relation.ReflTransGen Step s s' ∧ ∀ i, s'.Finished i := by
  induction h : s.todo generalizing s with
  | zero =>
    refine ⟨s, .refl, fun i => by_contra fun hi => ?_⟩
    obtain ⟨s', hstep⟩ := hs.progress hi
    have hone := todo_step hstep
    omega
  | succ w ih =>
    by_cases hdone : ∀ i, s.Finished i
    · exact ⟨s, .refl, hdone⟩
    · obtain ⟨i, hi⟩ := not_forall.mp hdone
      obtain ⟨s₁, hstep⟩ := hs.progress hi
      have hone := todo_step hstep
      obtain ⟨s', hrun, hend⟩ := ih (hs.step hstep) (by omega)
      exact ⟨s', .head hstep hrun, hend⟩

end Measure

end Net

end Exchange
