import Mathlib

/-!
# Unfolding a finite graph

A graph is given by the lists of the successors of its vertices. It is a rooted
tree when every vertex but the root is listed exactly once and all vertices are
reached. The preorder of its unfolding from the root decides the same thing,
with a bound on the depth.
-/
namespace CbMpc

section Unfolding

variable {ι : Type} (succ : ι → List ι)

/-- The ends of the walks of `d` edges from `i`. -/
def level : ℕ → ι → List ι
  | 0, i => [i]
  | d + 1, i => (succ i).flatMap (level d)

/-- The vertices of the unfolding from `i` in preorder, cut off below `levels` levels. -/
def preorder : ℕ → ι → List ι
  | 0, _ => []
  | levels + 1, i => i :: (succ i).flatMap (preorder levels)

/-- The unfolding from `i` has at most so many levels. -/
def Unfolds : ℕ → ι → Prop
  | 0, _ => False
  | levels + 1, i => ∀ j ∈ succ i, Unfolds levels j

/-- A tree on the vertices `V`, in which no vertex is more than `depth` edges away from the root. -/
structure IsRootedTree [DecidableEq ι] (V : Finset ι) (root : ι) (depth : ℕ) : Prop where
  root_mem : root ∈ V
  indegree : ∀ v, ∑ u ∈ V, (succ u).count v = if v ∈ V ∧ v ≠ root then 1 else 0
  reached : ∀ v ∈ V, ∃ d ≤ depth, v ∈ level succ d root

variable {succ}

theorem level_succ (d : ℕ) (i : ι) : level succ (d + 1) i = (level succ d i).flatMap succ := by
  induction d generalizing i with
  | zero => simp [level]
  | succ d ih =>
    rw [level, level, List.flatMap_assoc]
    exact List.flatMap_congr fun j _ => ih j

theorem unfolds_iff {levels : ℕ} {i : ι} : Unfolds succ levels i ↔ level succ levels i = [] := by
  induction levels generalizing i with
  | zero => simp [Unfolds, level]
  | succ levels ih => simp only [Unfolds, level, List.flatMap_eq_nil_iff, ih]

theorem self_mem_preorder {levels : ℕ} {i : ι} (h : Unfolds succ levels i) :
    i ∈ preorder succ levels i := by
  cases levels with
  | zero => exact h.elim
  | succ levels => simp [preorder]

section Counting

variable [DecidableEq ι]

theorem count_preorder (levels : ℕ) (i v : ι) :
    (preorder succ levels i).count v = ∑ d ∈ Finset.range levels, (level succ d i).count v := by
  induction levels generalizing i with
  | zero => rfl
  | succ levels ih =>
    have hbelow : ((succ i).flatMap (preorder succ levels)).count v =
        ∑ d ∈ Finset.range levels, (level succ (d + 1) i).count v := by
      simp only [level, List.count_flatMap]
      generalize succ i = js
      induction js with
      | nil => simp
      | cons j js ihj =>
        simp only [List.map_cons, List.sum_cons, ihj, Function.comp_apply, ih,
          Finset.sum_add_distrib]
    rw [preorder, Finset.sum_range_succ', List.count_cons, hbelow, level, List.count_singleton]

/-- The successors of a list of vertices, counted vertex by vertex. -/
theorem count_flatMap_succ {V : Finset ι} {l : List ι} (hl : ∀ u ∈ l, u ∈ V) (v : ι) :
    (l.flatMap succ).count v = ∑ u ∈ V, l.count u * (succ u).count v := by
  rw [List.count_flatMap, Finset.sum_list_map_count]
  refine (Finset.sum_subset (fun u hu => hl u (by simpa using hu)) fun u _ hu => ?_)
  rw [List.count_eq_zero.mpr (by simpa using hu)]
  simp

/-- One more level: every vertex on the way passes on its successors. -/
theorem count_preorder_succ {V : Finset ι} {levels : ℕ} {i : ι}
    (hmem : ∀ d < levels, ∀ u ∈ level succ d i, u ∈ V) (v : ι) :
    (preorder succ (levels + 1) i).count v =
      (if v = i then 1 else 0) + ∑ u ∈ V, (preorder succ levels i).count u * (succ u).count v := by
  have hlevel : ∀ d ∈ Finset.range levels, (level succ (d + 1) i).count v =
      ∑ u ∈ V, (level succ d i).count u * (succ u).count v := fun d hd => by
    rw [level_succ, count_flatMap_succ (hmem d (Finset.mem_range.mp hd)) v]
  rw [count_preorder, Finset.sum_range_succ', Finset.sum_congr rfl hlevel, Finset.sum_comm,
    Nat.add_comm]
  congr 1
  · rw [level, List.count_singleton]
    by_cases h : v = i
    · simp [h]
    · simp [h, Ne.symm h]
  · exact Finset.sum_congr rfl fun u _ => by rw [count_preorder, Finset.sum_mul]

theorem mem_preorder_iff {levels : ℕ} {i v : ι} :
    v ∈ preorder succ levels i ↔ ∃ d < levels, v ∈ level succ d i := by
  simp only [← List.count_pos_iff, count_preorder, Finset.sum_pos_iff, Finset.mem_range]

section Tree

variable {V : Finset ι} {root : ι} {depth : ℕ}

theorem IsRootedTree.level_subset (h : IsRootedTree succ V root depth) (d : ℕ) :
    ∀ v ∈ level succ d root, v ∈ V := by
  induction d with
  | zero => simpa [level] using h.root_mem
  | succ d ih =>
    intro v hv
    rw [level_succ, List.mem_flatMap] at hv
    obtain ⟨u, hu, hv⟩ := hv
    by_contra hV
    have hzero := h.indegree v
    rw [if_neg (fun hand => hV hand.1), Finset.sum_eq_zero_iff] at hzero
    exact List.count_eq_zero.mp (hzero u (ih u hu)) hv

/-- However far the unfolding is followed, no vertex is met twice. -/
theorem IsRootedTree.count_le_one (h : IsRootedTree succ V root depth) (levels : ℕ) (v : ι) :
    (preorder succ levels root).count v ≤ 1 := by
  induction levels generalizing v with
  | zero => simp [preorder]
  | succ levels ih =>
    have hsum : ∑ u ∈ V, (preorder succ levels root).count u * (succ u).count v ≤ ∑ u ∈ V,
        (succ u).count v :=
      Finset.sum_le_sum fun u _ => (Nat.mul_le_mul_right _ (ih u)).trans_eq (Nat.one_mul _)
    rw [h.indegree v] at hsum
    rw [count_preorder_succ fun d _ => h.level_subset d]
    by_cases hv : v = root
    · rw [if_neg (fun hand => hand.2 hv)] at hsum
      rw [if_pos hv]
      omega
    · have hone : (if v ∈ V ∧ v ≠ root then 1 else 0) ≤ 1 := by split_ifs <;> omega
      rw [if_neg hv]
      omega

theorem IsRootedTree.unfolds (h : IsRootedTree succ V root depth) :
    Unfolds succ (depth + 1) root := by
  refine unfolds_iff.mpr (List.eq_nil_iff_forall_not_mem.mpr fun v hv => ?_)
  -- such a vertex would be met once more above
  obtain ⟨d, hd, hv'⟩ := h.reached v (h.level_subset _ v hv)
  have habove : 0 < (preorder succ (depth + 1) root).count v :=
    List.count_pos_iff.mpr (mem_preorder_iff.mpr ⟨d, by omega, hv'⟩)
  have hlast : 0 < (level succ (depth + 1) root).count v := List.count_pos_iff.mpr hv
  have hle := h.count_le_one (depth + 2) v
  rw [count_preorder, Finset.sum_range_succ, ← count_preorder] at hle
  omega

theorem isRootedTree_of_preorder (hU : Unfolds succ (depth + 1) root)
    (hnd : (preorder succ (depth + 1) root).Nodup)
    (hmem : ∀ v, v ∈ preorder succ (depth + 1) root ↔ v ∈ V) : IsRootedTree succ V root depth := by
  have hcount : ∀ v, (preorder succ (depth + 1) root).count v = if v ∈ V then 1 else 0 := by
    intro v
    by_cases hv : v ∈ V
    · rw [if_pos hv, List.count_eq_one_of_mem hnd ((hmem v).mpr hv)]
    · rw [if_neg hv, List.count_eq_zero.mpr fun h => hv ((hmem v).mp h)]
  have hlevel : ∀ d < depth + 1, ∀ u ∈ level succ d root, u ∈ V := fun d hd u hu =>
    (hmem u).mp (mem_preorder_iff.mpr ⟨d, hd, hu⟩)
  refine ⟨(hmem root).mp (self_mem_preorder hU), fun v => ?_, fun v hv => ?_⟩
  · have hnext := count_preorder_succ hlevel v
    have hsum : ∑ u ∈ V, (preorder succ (depth + 1) root).count u * (succ u).count v = ∑ u ∈ V,
        (succ u).count v :=
      Finset.sum_congr rfl fun u hu => by rw [hcount, if_pos hu, Nat.one_mul]
    rw [hsum, count_preorder, Finset.sum_range_succ, ← count_preorder, unfolds_iff.mp hU, hcount,
      List.count_nil] at hnext
    have hroot : v = root → v ∈ V := fun h => h ▸ (hmem root).mp (self_mem_preorder hU)
    by_cases h : v = root
    · rw [if_neg (fun hand => hand.2 h)]
      rw [if_pos (hroot h), if_pos h] at hnext
      omega
    · simp only [h, if_false, not_false_eq_true, and_true, Nat.zero_add, ne_eq] at hnext ⊢
      omega
  · obtain ⟨d, hd, hv⟩ := mem_preorder_iff.mp ((hmem v).mpr hv)
    exact ⟨d, by omega, hv⟩

/-- The unfolding of a rooted tree meets every vertex exactly once, and conversely. -/
theorem isRootedTree_iff :
    IsRootedTree succ V root depth ↔ Unfolds succ (depth + 1) root ∧
    (preorder succ (depth + 1) root).Nodup ∧
      ∀ v, v ∈ preorder succ (depth + 1) root ↔ v ∈ V := by
  refine ⟨fun h => ⟨h.unfolds, List.nodup_iff_count_le_one.mpr (h.count_le_one _), fun v =>
    ⟨fun hv => ?_, fun hv => ?_⟩⟩,
    fun h => isRootedTree_of_preorder h.1 h.2.1 h.2.2⟩
  · obtain ⟨d, -, hv⟩ := mem_preorder_iff.mp hv
    exact h.level_subset d v hv
  · obtain ⟨d, hd, hv⟩ := h.reached v hv
    exact mem_preorder_iff.mpr ⟨d, by omega, hv⟩

end Tree

end Counting

end Unfolding

end CbMpc
