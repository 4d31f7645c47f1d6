import CbMpc.Drbg
import CbMpc.Sharing

/-!
# Dealing a secret from a seed

With a `drbg_aes_ctr_t` at hand, `share` draws its random values from it. How many it draws depends
on the tree only, so the generator stands at a known place afterwards.
-/
namespace CbMpc

open Node

/-- The values that `share_recursive` draws at a node and below it. -/
def drawNode (type : NodeType) (_name : PName) (threshold : ℤ) (children : List (PName × ℕ)) : ℕ :=
  match type with
  | .leaf | .none => 0
  | .or | .and | .threshold => ownDraws type threshold children.length + (children.map Prod.snd).sum

def drawCount (t : Node) : ℕ := t.fold drawNode

/-- The generator after some draws of `gen_bn`. -/
def Drbg.afterDraws (q : ℕ) : ℕ → Drbg → Drbg
  | 0, d => d
  | n + 1, d => Drbg.afterDraws q n (d.afterDraw q)

/-- `ac_t::share` with a generator. -/
def shareSeeded (q : ℕ) (pid : PName → ℕ) (t : Node) (x : ℤ) (d : Drbg) :
    Outcome (OrderedMap PName ℤ × Drbg) := do
  let shares ← share q pid t x (d.draws q)
  .ok (shares, d.afterDraws q (drawCount t))

/-- What is still to be drawn does not depend on when it is looked at. -/
theorem draws_afterDraws (q n : ℕ) (d : Drbg) :
    (d.draws q).drop n = (d.afterDraws q n).draws q := by
  induction n generalizing d with
  | zero => rfl
  | succ n ih =>
    have htail : (d.draws q).tail = (d.afterDraw q).draws q := by
      rw [Drbg.draws, Stream'.corec_eq, Stream'.tail_cons]
      rfl
    rw [Drbg.afterDraws, ← ih, ← htail, Stream'.drop_tail']

section Recursion

variable {q : ℕ} {E : Type} [AddCommGroup E] [Module (ZMod q) E]

omit [AddCommGroup E] [Module (ZMod q) E] in
/-- A loop whose turns draw known numbers of values draws their sum. -/
theorem foldlM_rand {β : Type} {f : ShareState q E → β → Outcome (ShareState q E)}
    {count : β → ℕ} {l : List β}
    (h : ∀ b ∈ l, ∀ st st', f st b = .ok st' → st'.rand = st.rand.drop (count b))
    {st st' : ShareState q E} (hrun : l.foldlM f st = .ok st') :
    st'.rand = st.rand.drop (l.map count).sum := by
  induction l generalizing st with
  | nil =>
    obtain rfl := Except.ok.inj hrun
    rfl
  | cons b l ih =>
    rw [List.foldlM_cons] at hrun
    obtain ⟨st₁, hb, hrun⟩ := bind_ok_iff.mp hrun
    rw [ih (fun c hc => h c (List.mem_cons_of_mem b hc)) hrun, h b List.mem_cons_self st st₁ hb,
      List.map_cons, List.sum_cons, Stream'.drop_drop]

theorem recordInternals_rand {additional : Option (Curve q E)} {name : PName} {a : ℤ}
    {st st' : ShareState q E} (h : recordInternals additional name a st = .ok st') :
    st'.rand = st.rand := by
  cases additional with
  | none =>
    obtain rfl := Except.ok.inj h
    rfl
  | some curve =>
    obtain ⟨P, -, h⟩ := bind_ok_iff.mp h
    obtain rfl := Except.ok.inj h
    rfl

theorem shareAnd_spec {x : ℤ} {n : ℕ} {rand : Rand q} {p : List ℤ × Rand q}
    (h : shareAnd q x n rand = .ok p) :
    p.1.length = n ∧ p.2 = rand.drop (n - 1) := by
  obtain ⟨hpos, h⟩ := cbAssert_bind_ok_iff.mp h
  obtain ⟨sum, -, h⟩ := bind_ok_iff.mp h
  obtain ⟨first, -, h⟩ := bind_ok_iff.mp h
  obtain rfl := Except.ok.inj h
  rw [decide_eq_true_eq] at hpos
  refine ⟨?_, rfl⟩
  rw [List.length_cons, List.length_map, Stream'.length_take]
  omega

theorem shareThreshold_spec {a threshold : ℤ} {n : ℕ} {pids : List ℤ} {rand : Rand q}
    {p : List ℤ × List ℤ × Rand q} (h : shareThreshold q a threshold n pids rand = .ok p) :
    p.1.length = n ∧ p.2.2 = rand.drop (threshold.toNat - 1) := by
  rw [shareThreshold, cbAssert_bind_ok_iff, cbAssert_bind_ok_iff, cbAssert_bind_ok_iff] at h
  obtain ⟨-, -, hn, h⟩ := h
  obtain ⟨shares, hshares, h⟩ := bind_ok_iff.mp h
  obtain rfl := Except.ok.inj h
  refine ⟨?_, rfl⟩
  rw [decide_eq_true_eq] at hn
  rw [← (mapM_ok_iff.mp hshares).length_eq, List.length_take, min_eq_left hn]

/-- The children of a node draw their own numbers of values, in any order. -/
theorem sum_drawCount_sorted (cs : List Node) :
    ((cs.insertionSort (fun a b => a.name ≤ b.name)).map drawCount).sum = (cs.map drawCount).sum :=
  ((List.perm_insertionSort _ cs).map drawCount).sum_eq

theorem drawCount_mk (type : NodeType) (name : PName) (th : ℤ) (cs : List Node) :
    drawCount (mk type name th cs) =
      drawNode type name th (cs.map fun c => (c.name, drawCount c)) := by
  rw [drawCount, fold_mk]
  rfl

/-- Handing values to the sorted children draws what the children draw. -/
theorem run_children_rand (pid : PName → ℕ) (additional : Option (Curve q E)) {cs : List Node}
    (ih : ∀ c ∈ cs, ∀ {a : ℤ} {st st' : ShareState q E},
      shareRecursive pid additional c a st = .ok st' →
      st'.rand = st.rand.drop (drawCount c)) {vals : List ℤ} (hvals : vals.length = cs.length)
      {st st' : ShareState q E}
      (h : (((cs.insertionSort (fun a b => a.name ≤ b.name)).map fun c =>
        (c.name, shareRecursive pid additional c)).zip vals).foldlM
      (fun st c => c.1.2 c.2 st) st = .ok st') :
      st'.rand = st.rand.drop (cs.map drawCount).sum := by
  have hperm := List.perm_insertionSort (fun a b : Node => a.name ≤ b.name) cs
  have hzip :
      (((cs.insertionSort (fun a b => a.name ≤ b.name)).zip vals).map fun p => drawCount p.1) =
      (cs.insertionSort (fun a b => a.name ≤ b.name)).map drawCount := by
    change ((cs.insertionSort (fun a b => a.name ≤ b.name)).zip vals).map (drawCount ∘ Prod.fst) = _
    rw [← List.map_map, List.map_fst_zip (by rw [hperm.length_eq, hvals])]
  rw [List.zip_map_left, List.foldlM_map] at h
  rw [← sum_drawCount_sorted, ← hzip]
  exact foldlM_rand (fun p hp st st' hrun =>
    ih p.1 (hperm.mem_iff.mp (List.of_mem_zip hp).1) hrun) h

/-- A run of `share_recursive` draws as many values as the tree says, whatever is shared. -/
theorem shareRecursive_rand (pid : PName → ℕ) (additional : Option (Curve q E)) (t : Node) {a : ℤ}
    {st st' : ShareState q E} (h : shareRecursive pid additional t a st = .ok st') :
    st'.rand = st.rand.drop (drawCount t) := by
  induction t using Node.induction generalizing a st st' with
  | h type name th cs ih =>
    have hperm := List.perm_insertionSort (fun a b : Node => a.name ≤ b.name) cs
    rw [shareRecursive, fold_mk, shareNode, sortByName_map] at h
    obtain ⟨st₁, hst₁, h⟩ := bind_ok_iff.mp h
    rw [drawCount_mk, ← recordInternals_rand hst₁]
    cases type with
    | leaf =>
      obtain rfl := Except.ok.inj h
      rfl
    | none =>
      obtain rfl := Except.ok.inj h
      rfl
    | or =>
      simp only [drawNode, ownDraws, List.map_map, Function.comp_def, zero_add]
      rw [List.foldlM_map] at h
      rw [← sum_drawCount_sorted]
      exact foldlM_rand (fun c hc st st' hrun => ih c (hperm.mem_iff.mp hc) hrun) h
    | and =>
      simp only [drawNode, ownDraws, List.map_map, Function.comp_def, List.length_map] at h ⊢
      obtain ⟨⟨vals, rand⟩, hshare, h⟩ := bind_ok_iff.mp h
      obtain ⟨hlen, hrand⟩ := shareAnd_spec hshare
      rw [← Stream'.drop_drop]
      rw [hperm.length_eq] at hlen hrand
      rw [← hrand]
      exact run_children_rand pid additional (fun c hc => ih c hc) hlen h
    | threshold =>
      simp only [drawNode, ownDraws, List.map_map, Function.comp_def, List.length_map] at h ⊢
      obtain ⟨⟨vals, b, rand⟩, hshare, h⟩ := bind_ok_iff.mp h
      obtain ⟨hlen, hrand⟩ := shareThreshold_spec hshare
      rw [← Stream'.drop_drop]
      rw [hperm.length_eq] at hlen
      rw [← hrand]
      exact run_children_rand pid additional (fun c hc => ih c hc) hlen h

/-- The recursion leaves the stream of values where `shareSeeded` leaves the generator. -/
theorem shareRecursive_draws (pid : PName → ℕ) (additional : Option (Curve q E)) (t : Node) {a : ℤ}
    {st st' : ShareState q E} {d : Drbg} (hrand : st.rand = d.draws q)
    (h : shareRecursive pid additional t a st = .ok st') :
    st'.rand = (d.afterDraws q (drawCount t)).draws q := by
  rw [shareRecursive_rand pid additional t h, hrand, draws_afterDraws]

end Recursion

end CbMpc
