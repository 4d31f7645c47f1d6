import CbMpc.AccessStructure
import CbMpc.Unfolding

/-!
# The flat access structure of the C API

The C API passes an access structure as an array of nodes, each with a slice of
a common array of child indices. `to_cpp_access_structure` follows the indices
from the root with a state per node, and accepts the arrays when they encode one
tree.
-/
namespace CbMpc

open Node

/-- `cbmpc_access_structure_node_t`, where `none` is the null pointer. -/
structure FlatNode where
  type : Int32
  leafName : Option PName
  thresholdK : Int32
  childIndicesOffset : Int32
  childIndicesCount : Int32
  deriving DecidableEq

/-- `cbmpc_access_structure_t`. -/
structure FlatStructure where
  nodes : Option (List FlatNode)
  nodesCount : Int32
  childIndices : Option (List Int32)
  childIndicesCount : Int32
  rootIndex : Int32
  deriving DecidableEq

/-- `state`: 0, 1 and 2. -/
inductive Visit where
  | unvisited | visiting | done
  deriving DecidableEq, Repr

/-- An element of an array. -/
def elementAt {α : Type} (l : List α) (i : ℕ) : Outcome α :=
  match l[i]? with
  | some a => .ok a
  | none => throwing .outOfBounds

/-- The value of a sum of `int32_t`. -/
def int32 (x : ℤ) : Outcome ℤ := if -2 ^ 31 ≤ x ∧ x < 2 ^ 31 then .ok x else throwing .overflow

/-- The cases of the switch over `n.type`. -/
def flatType (type : Int32) : NodeType :=
  if type = 1 then .leaf
  else if type = 2 then .and
  else if type = 3 then .or
  else if type = 4 then .threshold
  else .none

def checkSlice (n : FlatNode) (childIndicesCount : Int32) : Outcome Unit := do
  require (decide (0 ≤ n.childIndicesOffset.toInt ∧ 0 ≤ n.childIndicesCount.toInt)) .badArg
  if 0 < n.childIndicesCount.toInt then do
    let last ← int32 (childIndicesCount.toInt - n.childIndicesCount.toInt)
    require (decide (n.childIndicesOffset.toInt ≤ last)) .badArg
  else
    .ok ()

/-- The case of a leaf, with the name of the new node. -/
def checkLeaf (n : FlatNode) (isRoot : Bool) : Outcome PName := do
  require (!isRoot) .badArg
  match n.leafName with
  | none => fail .badArg
  | some name => do
    require (!name.isEmpty) .badArg
    require (decide (n.thresholdK.toInt = 0)) .badArg
    require (decide (n.childIndicesCount.toInt = 0)) .badArg
    .ok name

/-- The cases of the other nodes, with `threshold_k` of the new node. -/
def checkInner (n : FlatNode) : Outcome ℤ := do
  require n.leafName.isNone .badArg
  require (decide (0 < n.childIndicesCount.toInt)) .badArg
  if flatType n.type = .threshold then do
    require (decide (1 ≤ n.thresholdK.toInt)) .badArg
    require (decide (n.thresholdK.toInt ≤ n.childIndicesCount.toInt)) .badArg
    .ok n.thresholdK.toInt
  else do
    require (decide (n.thresholdK.toInt = 0)) .badArg
    .ok 0

/-- The loop over the child indices. -/
def buildFromIndices (child : Int32 → List Visit → Outcome (AccessStructure × List Visit))
    (childIndices : List Int32) (off : ℤ) :
    List ℕ → List Visit → Outcome (List AccessStructure × List Visit)
  | [], state => .ok ([], state)
  | i :: is, state => do
    let pos ← int32 (off + i)
    let childIdx ← elementAt childIndices pos.toNat
    let (c, state) ← child childIdx state
    let (cs, state) ← buildFromIndices child childIndices off is state
    .ok (c :: cs, state)

/-- The switch over `n.type`, where `child` is the recursive call. -/
def buildNode (n : FlatNode) (isRoot : Bool)
    (child : Int32 → List Visit → Outcome (AccessStructure × List Visit))
    (childIndices : List Int32) (state : List Visit) : Outcome (AccessStructure × List Visit) :=
  match flatType n.type with
  | .leaf => do
    let name ← checkLeaf n isRoot
    .ok (Node.mk .leaf name 0 [], state)
  | .none => fail .badArg
  | type => do
    let thresholdK ← checkInner n
    let (children, state) ← buildFromIndices child childIndices n.childIndicesOffset.toInt
      (List.range n.childIndicesCount.toInt.toNat) state
    .ok (Node.mk type [] thresholdK children, state)

namespace FlatStructure

variable (a : FlatStructure)

/-- `builder_t::build`, where the depth limit leaves `levels` more levels. -/
def build : ℕ → Int32 → Bool → List Visit → Outcome (AccessStructure × List Visit)
  | 0, _, _, _ => fail .range
  | levels + 1, idx, isRoot, state => do
    require (decide (0 ≤ idx.toInt ∧ idx.toInt < a.nodesCount.toInt)) .badArg
    let visit ← elementAt state idx.toInt.toNat
    require (decide (visit = .unvisited)) .badArg
    let n ← elementAt (a.nodes.getD []) idx.toInt.toNat
    checkSlice n a.childIndicesCount
    let (node, state) ← buildNode n isRoot (fun j => build levels j false) (a.childIndices.getD [])
      (state.set idx.toInt.toNat .visiting)
    .ok (node, state.set idx.toInt.toNat .done)

end FlatStructure

/-- `to_cpp_access_structure`, with the contents of `out` on success. -/
def toCppAccessStructure : Option FlatStructure → Outcome AccessStructure
  | none => fail .badArg
  | some a => do
    require (decide (0 ≤ a.nodesCount.toInt ∧ 0 ≤ a.childIndicesCount.toInt)) .badArg
    require (decide (a.nodesCount.toInt ≠ 0)) .badArg
    require (decide (a.nodesCount.toInt ≤ accessStructureMaxNodes)) .range
    require a.nodes.isSome .badArg
    require (decide (0 < a.childIndicesCount.toInt → a.childIndices.isSome = true)) .badArg
    require (decide (0 ≤ a.rootIndex.toInt ∧ a.rootIndex.toInt < a.nodesCount.toInt)) .badArg
    let (out, state) ← a.build (accessStructureMaxDepth + 1) a.rootIndex true
      (List.replicate a.nodesCount.toInt.toNat .unvisited)
    require (state.all fun visit => decide (visit = .done)) .badArg
    .ok out

/-- A node obeys the rules of its type. -/
def FlatNode.TypeWellFormed (n : FlatNode) : Prop :=
  match flatType n.type with
  | .leaf =>
    (∃ name, n.leafName = some name ∧ name ≠ []) ∧ n.thresholdK.toInt = 0 ∧
      n.childIndicesCount.toInt = 0
  | .and | .or => n.leafName = none ∧ 0 < n.childIndicesCount.toInt ∧ n.thresholdK.toInt = 0
  | .threshold => n.leafName = none ∧ 0 < n.childIndicesCount.toInt ∧ 1 ≤ n.thresholdK.toInt ∧
      n.thresholdK.toInt ≤ n.childIndicesCount.toInt
  | .none => False

namespace FlatStructure

variable (a : FlatStructure)

/-- Both arrays are as long as their counts say. -/
structure Sized : Prop where
  nodes : (a.nodes.getD []).length = a.nodesCount.toInt.toNat
  childIndices : (a.childIndices.getD []).length = a.childIndicesCount.toInt.toNat

/-- The valid indices. -/
def vertices : Finset ℤ := (Finset.range a.nodesCount.toInt.toNat).image Nat.cast

def nodeAt (i : ℤ) : Option FlatNode := if 0 ≤ i then (a.nodes.getD [])[i.toNat]? else none

/-- The child indices of a node. -/
def slice (n : FlatNode) : List Int32 :=
  ((a.childIndices.getD []).drop n.childIndicesOffset.toInt.toNat).take
    n.childIndicesCount.toInt.toNat

/-- The graph that the arrays describe. -/
def succ (i : ℤ) : List ℤ := (a.nodeAt i).elim [] fun n => (a.slice n).map Int32.toInt

/-- The slice of a node lies inside the common array. -/
def SliceWellFormed (n : FlatNode) : Prop :=
  0 ≤ n.childIndicesOffset.toInt ∧ 0 ≤ n.childIndicesCount.toInt ∧ (0 < n.childIndicesCount.toInt →
    n.childIndicesOffset.toInt + n.childIndicesCount.toInt ≤ a.childIndicesCount.toInt)

/-- The node at an index is well formed. -/
def LocallyWellFormed (i : ℤ) : Prop :=
  ∃ n, a.nodeAt i = some n ∧ a.SliceWellFormed n ∧ n.TypeWellFormed

/-- The root is no leaf. -/
def RootInner (i : ℤ) : Prop := ∀ n, a.nodeAt i = some n → flatType n.type ≠ .leaf

/-- The tree that unfolds from an index, with the children in the order of the slices. -/
def unfolding : ℕ → ℤ → AccessStructure
  | 0, _ => Node.mk .none [] 0 []
  | levels + 1, i =>
    (a.nodeAt i).elim (Node.mk .none [] 0 []) fun n =>
      Node.mk (flatType n.type) (n.leafName.getD []) n.thresholdK.toInt
        ((a.succ i).map (unfolding levels))

end FlatStructure

theorem elementAt_ok_iff {α : Type} {l : List α} {i : ℕ} {x : α} :
    elementAt l i = .ok x ↔ l[i]? = some x := by
  unfold elementAt
  cases l[i]? with
  | none => simp [throwing]
  | some y => simp

theorem elementAt_bind_ok_iff {α β : Type} {l : List α} {i : ℕ} {f : α → Outcome β} {b : β} :
    (elementAt l i >>= f) = .ok b ↔ ∃ x, l[i]? = some x ∧ f x = .ok b := by
  simp only [bind_ok_iff, elementAt_ok_iff]

theorem returns_elementAt {α : Type} {l : List α} {i : ℕ} (h : i < l.length) :
    Returns (elementAt l i) :=
  returns_of_ok (elementAt_ok_iff.mpr (List.getElem?_eq_getElem h))

theorem int32_eq {x : ℤ} (h : -2 ^ 31 ≤ x ∧ x < 2 ^ 31) : int32 x = .ok x := if_pos h

/-- The difference of two counts fits. -/
theorem checkSlice_eq {n : FlatNode} {childIndicesCount : Int32} (h : 0 ≤ childIndicesCount.toInt) :
    checkSlice n childIndicesCount =
      require (decide (0 ≤ n.childIndicesOffset.toInt ∧ 0 ≤ n.childIndicesCount.toInt ∧
      (0 < n.childIndicesCount.toInt →
        n.childIndicesOffset.toInt + n.childIndicesCount.toInt ≤ childIndicesCount.toInt)))
          .badArg := by
  have hub := childIndicesCount.toInt_lt
  have hcount := n.childIndicesCount.toInt_lt
  unfold checkSlice
  by_cases hsign : 0 ≤ n.childIndicesOffset.toInt ∧ 0 ≤ n.childIndicesCount.toInt
  · rw [decide_eq_true hsign, require_true, ok_bind]
    by_cases hpos : 0 < n.childIndicesCount.toInt
    · rw [if_pos hpos, int32_eq (by omega), ok_bind]
      congr 1
      exact decide_eq_decide.mpr (by omega)
    · rw [if_neg hpos, decide_eq_true (by omega), require_true]
  · rw [decide_eq_false hsign, decide_eq_false (fun hand => hsign ⟨hand.1, hand.2.1⟩)]
    rfl

theorem checkLeaf_ok_iff {n : FlatNode} {isRoot : Bool} {name : PName} :
    checkLeaf n isRoot = .ok name ↔ isRoot = false ∧ n.leafName = some name ∧ name ≠ [] ∧
    n.thresholdK.toInt = 0 ∧
      n.childIndicesCount.toInt = 0 := by
  unfold checkLeaf
  rw [require_bind_ok_iff]
  cases n.leafName with
  | none => simp [fail]
  | some name' =>
    simp only [require_bind_ok_iff, decide_eq_true_eq, Bool.not_eq_true', List.isEmpty_eq_false_iff,
      Except.ok.injEq, Option.some.injEq]
    constructor
    · rintro ⟨hroot, hname, hk, hcount, rfl⟩
      exact ⟨hroot, rfl, hname, hk, hcount⟩
    · rintro ⟨hroot, rfl, hname, hk, hcount⟩
      exact ⟨hroot, hname, hk, hcount, rfl⟩

theorem returns_checkLeaf (n : FlatNode) (isRoot : Bool) : Returns (checkLeaf n isRoot) := by
  refine returns_bind_iff.mpr ⟨returns_require _ _, fun _ _ => ?_⟩
  cases n.leafName with
  | none => exact returns_fail .badArg
  | some name => exact returns_bind_iff.mpr ⟨returns_require _ _, fun _ _ => returns_bind_iff.mpr
      ⟨returns_require _ _, fun _ _ =>
        returns_bind_iff.mpr ⟨returns_require _ _, fun _ _ => returns_ok name⟩⟩⟩

theorem returns_checkInner (n : FlatNode) : Returns (checkInner n) := by
  refine returns_bind_iff.mpr ⟨returns_require _ _, fun _ _ =>
    returns_bind_iff.mpr ⟨returns_require _ _, fun _ _ => ?_⟩⟩
  split
  · exact returns_bind_iff.mpr ⟨returns_require _ _, fun _ _ => returns_bind_iff.mpr
      ⟨returns_require _ _, fun _ _ => returns_ok _⟩⟩
  · exact returns_bind_iff.mpr ⟨returns_require _ _, fun _ _ => returns_ok _⟩

theorem checkInner_ok_iff {n : FlatNode} {k : ℤ} :
    checkInner n = .ok k ↔ n.leafName = none ∧ 0 < n.childIndicesCount.toInt ∧
    k = n.thresholdK.toInt ∧
      if flatType n.type = .threshold then 1 ≤ k ∧ k ≤ n.childIndicesCount.toInt else k = 0 := by
  unfold checkInner
  rw [require_bind_ok_iff, require_bind_ok_iff]
  by_cases ht : flatType n.type = .threshold
  · simp only [ht, if_true, require_bind_ok_iff, decide_eq_true_eq, Except.ok.injEq,
      Option.isNone_iff_eq_none]
    constructor
    · rintro ⟨hname, hcount, hlo, hhi, rfl⟩
      exact ⟨hname, hcount, rfl, hlo, hhi⟩
    · rintro ⟨hname, hcount, rfl, hlo, hhi⟩
      exact ⟨hname, hcount, hlo, hhi, rfl⟩
  · simp only [ht, if_false, require_bind_ok_iff, decide_eq_true_eq, Except.ok.injEq,
      Option.isNone_iff_eq_none]
    constructor
    · rintro ⟨hname, hcount, hk, rfl⟩
      exact ⟨hname, hcount, hk.symm, rfl⟩
    · rintro ⟨hname, hcount, hk, hzero⟩
      exact ⟨hname, hcount, hk ▸ hzero, hzero.symm⟩

/-- The loop over the child indices themselves. -/
def buildAll (child : Int32 → List Visit → Outcome (AccessStructure × List Visit)) :
    List Int32 → List Visit → Outcome (List AccessStructure × List Visit)
  | [], state => .ok ([], state)
  | j :: js, state => do
    let (c, state) ← child j state
    let (cs, state) ← buildAll child js state
    .ok (c :: cs, state)

theorem returns_buildAll {child : Int32 → List Visit → Outcome (AccessStructure × List Visit)}
    {size : ℕ} (hchild : ∀ j state, state.length = size →
      Returns (child j state) ∧ ∀ t state', child j state = .ok (t, state') → state'.length = size)
    (js : List Int32) {state : List Visit} (hstate : state.length = size) :
    Returns (buildAll child js state) := by
  induction js generalizing state with
  | nil => exact returns_ok _
  | cons j js ih =>
    obtain ⟨hreturns, hlen⟩ := hchild j state hstate
    refine returns_bind_iff.mpr ⟨hreturns, fun p hp =>
      returns_bind_iff.mpr ⟨ih (hlen p.1 p.2 hp), fun q _ => ?_⟩⟩
    exact returns_ok _

/-- Inside the common array neither the position overflows nor the access fails. -/
theorem buildFromIndices_eq (child : Int32 → List Visit → Outcome (AccessStructure × List Visit))
    {l : List Int32} {off : ℤ} (hoff : 0 ≤ off) {js : List Int32} {first : ℕ}
    (hjs : js <+: l.drop (off.toNat + first))
    (hmax : off + first + js.length < 2 ^ 31) (state : List Visit) :
    buildFromIndices child l off (List.range' first js.length) state = buildAll child js state := by
  induction js generalizing first state with
  | nil => rfl
  | cons j js ih =>
    obtain ⟨rest, hrest⟩ := hjs
    have helem : l[off.toNat + first]? = some j := by
      rw [← List.head?_drop, ← hrest]
      rfl
    have htail : js <+: l.drop (off.toNat + (first + 1)) := ⟨rest, by
      rw [← Nat.add_assoc, ← List.drop_drop, ← hrest]
      rfl⟩
    have hpos : (off + (first : ℤ)).toNat = off.toNat + first := by omega
    simp only [List.length_cons, Nat.cast_add, Nat.cast_one] at hmax
    rw [List.length_cons, List.range'_succ, buildFromIndices, buildAll, int32_eq (by omega),
      ok_bind, hpos, elementAt_ok_iff.mpr helem, ok_bind]
    congr 1
    funext p
    obtain ⟨c, state'⟩ := p
    simp only [ih htail (by push_cast; omega)]

/-- The vertices of a preorder, now done. -/
def mark (vs : List ℤ) (state : List Visit) : List Visit :=
  state.mapIdx fun i visit => if (i : ℤ) ∈ vs then .done else visit

/-- Valid and not met before. -/
def Fresh (vs : List ℤ) (state : List Visit) : Prop :=
  ∀ v ∈ vs, 0 ≤ v ∧ state[v.toNat]? = some .unvisited

@[simp] theorem length_mark (vs : List ℤ) (state : List Visit) :
    (mark vs state).length = state.length := by simp [mark]

theorem getElem?_mark (vs : List ℤ) (state : List Visit) (i : ℕ) :
    (mark vs state)[i]? = state[i]?.map fun visit => if (i : ℤ) ∈ vs then .done else
      visit := List.getElem?_mapIdx ..

@[simp] theorem mark_nil (state : List Visit) : mark [] state = state := by
  refine List.ext_getElem? fun i => ?_
  rw [getElem?_mark]
  simp

theorem mark_append (vs vs' : List ℤ) (state : List Visit) :
    mark (vs ++ vs') state = mark vs' (mark vs state) := by
  refine List.ext_getElem? fun i => ?_
  simp only [getElem?_mark, Option.map_map, List.mem_append]
  congr 1
  funext visit
  by_cases h : (i : ℤ) ∈ vs <;> by_cases h' : (i : ℤ) ∈ vs' <;> simp [h, h']

/-- The vertex itself is marked before and after the vertices below it. -/
theorem mark_cons {i : ℤ} (hi : 0 ≤ i) (vs : List ℤ) (state : List Visit) :
    mark (i :: vs) state = (mark vs (state.set i.toNat .visiting)).set i.toNat .done := by
  refine List.ext_getElem? fun k => ?_
  rw [List.getElem?_set, getElem?_mark, getElem?_mark, List.getElem?_set, length_mark,
    List.length_set]
  by_cases hk : i.toNat = k
  · subst hk
    rw [if_pos rfl, Int.toNat_of_nonneg hi]
    by_cases hlen : i.toNat < state.length
    · simp [hlen]
    · simp [hlen]
  · have hne : (k : ℤ) ≠ i := by omega
    simp [hk, hne]

theorem fresh_append_iff {vs vs' : List ℤ} {state : List Visit} :
    Fresh vs state ∧ Fresh vs' (mark vs state) ↔ Fresh (vs ++ vs') state ∧ vs.Disjoint vs' := by
  simp only [Fresh, List.forall_mem_append, getElem?_mark]
  constructor
  · rintro ⟨h, h'⟩
    refine ⟨⟨h, fun v hv => ?_⟩, fun v hv hv' => ?_⟩
    · obtain ⟨hnonneg, hstate⟩ := h' v hv
      rw [Int.toNat_of_nonneg hnonneg] at hstate
      obtain ⟨visit, hvisit, hnew⟩ := Option.map_eq_some_iff.mp hstate
      refine ⟨hnonneg, ?_⟩
      split_ifs at hnew
      rw [hvisit, hnew]
    · obtain ⟨hnonneg, hstate⟩ := h' v hv'
      rw [Int.toNat_of_nonneg hnonneg] at hstate
      obtain ⟨visit, -, hnew⟩ := Option.map_eq_some_iff.mp hstate
      rw [if_pos hv] at hnew
      cases hnew
  · rintro ⟨⟨h, h'⟩, hdisj⟩
    refine ⟨h, fun v hv => ?_⟩
    obtain ⟨hnonneg, hstate⟩ := h' v hv
    have hout : v ∉ vs := fun hin => hdisj hin hv
    exact ⟨hnonneg, by rw [hstate, Int.toNat_of_nonneg hnonneg, Option.map_some, if_neg hout]⟩

theorem fresh_cons_iff {i : ℤ} {vs : List ℤ} {state : List Visit} :
    Fresh (i :: vs) state ∧ i ∉ vs ↔
      (0 ≤ i ∧ state[i.toNat]? = some .unvisited) ∧ Fresh vs (state.set i.toNat .visiting) := by
  simp only [Fresh, List.forall_mem_cons]
  constructor
  · rintro ⟨⟨h, h'⟩, hi⟩
    refine ⟨h, fun v hv => ⟨(h' v hv).1, ?_⟩⟩
    have hne : v ≠ i := fun he => hi (he ▸ hv)
    have := (h' v hv).1
    rw [List.getElem?_set_ne (by omega)]
    exact (h' v hv).2
  · rintro ⟨h, h'⟩
    have hlen : i.toNat < state.length := (List.getElem?_eq_some_iff.mp h.2).1
    have hi : i ∉ vs := fun hi => by
      have hvisiting := (h' i hi).2
      rw [List.getElem?_set_self hlen] at hvisiting
      cases hvisiting
    refine ⟨⟨h, fun v hv => ⟨(h' v hv).1, ?_⟩⟩, hi⟩
    have hne : v ≠ i := fun he => hi (he ▸ hv)
    have := (h' v hv).1
    rw [← (h' v hv).2, List.getElem?_set_ne (by omega)]

namespace FlatStructure

variable {a : FlatStructure}

theorem mem_vertices {v : ℤ} : v ∈ a.vertices ↔ 0 ≤ v ∧ v < a.nodesCount.toInt := by
  simp only [vertices, Finset.mem_image, Finset.mem_range]
  constructor
  · rintro ⟨k, hk, rfl⟩
    omega
  · rintro ⟨hlo, hhi⟩
    exact ⟨v.toNat, by omega, Int.toNat_of_nonneg hlo⟩

theorem nodeAt_eq_some_iff {i : ℤ} {n : FlatNode} :
    a.nodeAt i = some n ↔ 0 ≤ i ∧ (a.nodes.getD [])[i.toNat]? = some n := by
  unfold nodeAt
  split_ifs with h
  · simp [h]
  · simp [h]

theorem Sized.exists_nodeAt_iff (h : a.Sized) {i : ℤ} :
    (∃ n, a.nodeAt i = some n) ↔ 0 ≤ i ∧ i < a.nodesCount.toInt := by
  have hlen := h.nodes
  constructor
  · rintro ⟨n, hn⟩
    obtain ⟨hlo, hn⟩ := nodeAt_eq_some_iff.mp hn
    have hlt := (List.getElem?_eq_some_iff.mp hn).1
    omega
  · rintro ⟨hlo, hhi⟩
    have hlt : i.toNat < (a.nodes.getD []).length := by omega
    exact ⟨_, nodeAt_eq_some_iff.mpr ⟨hlo, List.getElem?_eq_getElem hlt⟩⟩

theorem Sized.length_slice (h : a.Sized) {n : FlatNode} (hn : a.SliceWellFormed n) :
    (a.slice n).length = n.childIndicesCount.toInt.toNat := by
  obtain ⟨hoff, hcount, hin⟩ := hn
  rw [slice, List.length_take, List.length_drop, h.childIndices]
  omega

/-- Positions inside the slice are positions inside the common array. -/
theorem Sized.buildFromIndices_slice (h : a.Sized) {n : FlatNode} (hn : a.SliceWellFormed n)
    (child : Int32 → List Visit → Outcome (AccessStructure × List Visit)) (state : List Visit) :
    buildFromIndices child (a.childIndices.getD []) n.childIndicesOffset.toInt
      (List.range n.childIndicesCount.toInt.toNat) state = buildAll child (a.slice n) state := by
  have hub := a.childIndicesCount.toInt_lt
  have hoff := n.childIndicesOffset.toInt_lt
  have hlen := h.length_slice hn
  rw [List.range_eq_range', ← hlen]
  refine buildFromIndices_eq child hn.1 ?_ ?_ state
  · rw [Nat.add_zero]
    exact List.take_prefix _ _
  · have hin := hn.2.2
    have hcount := hn.2.1
    rw [hlen]
    omega

theorem Sized.buildInner_ok_iff (h : a.Sized) {n : FlatNode} (hn : a.SliceWellFormed n)
    {child : Int32 → List Visit → Outcome (AccessStructure × List Visit)}
    {state state' : List Visit} {t : AccessStructure} {type : NodeType} :
    (checkInner n >>= fun k =>
      buildFromIndices child (a.childIndices.getD []) n.childIndicesOffset.toInt
        (List.range n.childIndicesCount.toInt.toNat) state >>= fun p =>
          .ok (Node.mk type [] k p.1, p.2)) =
        .ok (t, state') ↔
      (n.leafName = none ∧ 0 < n.childIndicesCount.toInt ∧ if flatType n.type = .threshold then
        1 ≤ n.thresholdK.toInt ∧ n.thresholdK.toInt ≤ n.childIndicesCount.toInt else
          n.thresholdK.toInt = 0) ∧
        ∃ cs, buildAll child (a.slice n) state = .ok (cs, state') ∧
          t = Node.mk type (n.leafName.getD []) n.thresholdK.toInt cs := by
  simp only [bind_ok_iff, checkInner_ok_iff, h.buildFromIndices_slice hn]
  constructor
  · rintro ⟨k, ⟨hname, hcount, rfl, hk⟩, ⟨cs, s⟩, hcs, hout⟩
    cases hout
    exact ⟨⟨hname, hcount, hk⟩, cs, hcs, by rw [hname, Option.getD_none]⟩
  · rintro ⟨⟨hname, hcount, hk⟩, cs, hcs, rfl⟩
    exact ⟨_, ⟨hname, hcount, rfl, hk⟩, (cs, state'), hcs, by rw [hname, Option.getD_none]⟩

/-- What the switch asks for and builds. -/
theorem Sized.buildNode_ok_iff (h : a.Sized) {n : FlatNode}
    (hn : a.SliceWellFormed n) {isRoot : Bool}
    {child : Int32 → List Visit → Outcome (AccessStructure × List Visit)}
    {state state' : List Visit} {t : AccessStructure} :
    buildNode n isRoot child (a.childIndices.getD []) state = .ok (t, state') ↔
      n.TypeWellFormed ∧ (isRoot = true → flatType n.type ≠ .leaf) ∧
        ∃ cs, buildAll child (a.slice n) state = .ok (cs, state') ∧
          t = Node.mk (flatType n.type) (n.leafName.getD []) n.thresholdK.toInt cs := by
  have hinner := @buildInner_ok_iff a h n hn child state state' t (flatType n.type)
  unfold buildNode FlatNode.TypeWellFormed
  cases ht : flatType n.type with
  | none => simp [fail]
  | leaf =>
    simp only [bind_ok_iff, checkLeaf_ok_iff, Except.ok.injEq, Prod.mk.injEq]
    constructor
    · rintro ⟨name, ⟨hroot, hname, hne, hk, hcount⟩, rfl, rfl⟩
      have hnil : a.slice n = [] := by rw [slice, hcount, Int.toNat_zero, List.take_zero]
      exact ⟨⟨⟨name, hname, hne⟩, hk, hcount⟩, by simp [hroot],
        [], by rw [hnil]; rfl, by rw [hname, hk]; rfl⟩
    · rintro ⟨⟨⟨name, hname, hne⟩, hk, hcount⟩, hroot, cs, hcs, rfl⟩
      have hnil : a.slice n = [] := by rw [slice, hcount, Int.toNat_zero, List.take_zero]
      rw [hnil] at hcs
      cases hcs
      exact ⟨name, ⟨by simpa using hroot, hname, hne, hk, hcount⟩, by rw [hname, hk]; rfl, rfl⟩
  | and =>
    rw [ht] at hinner
    simpa using hinner
  | or =>
    rw [ht] at hinner
    simpa using hinner
  | threshold =>
    rw [ht] at hinner
    simpa using hinner

/-- One call of the recursion. -/
theorem Sized.build_succ_ok_iff (h : a.Sized) (hcount : 0 ≤ a.childIndicesCount.toInt)
    {levels : ℕ} {idx : Int32} {isRoot : Bool} {state state' : List Visit} {t : AccessStructure} :
    a.build (levels + 1) idx isRoot state = .ok (t, state') ↔
      ∃ n, a.nodeAt idx.toInt = some n ∧
      state[idx.toInt.toNat]? = some .unvisited ∧ a.SliceWellFormed n ∧
        n.TypeWellFormed ∧ (isRoot = true → flatType n.type ≠ .leaf) ∧
        ∃ cs state'', buildAll (fun j => a.build levels j false) (a.slice n)
          (state.set idx.toInt.toNat .visiting) =
            .ok (cs, state'') ∧
          t = Node.mk (flatType n.type) (n.leafName.getD []) n.thresholdK.toInt cs ∧
          state' = state''.set idx.toInt.toNat .done := by
  have hrange := @exists_nodeAt_iff a h idx.toInt
  rw [build, require_bind_ok_iff, decide_eq_true_eq, ← hrange]
  simp only [elementAt_bind_ok_iff, require_bind_ok_iff, decide_eq_true_eq, checkSlice_eq hcount]
  constructor
  · rintro ⟨⟨n, hn⟩, visit, hvisit, rfl, n', hn', hslice, hrest⟩
    obtain ⟨⟨node, s⟩, hnode, hout⟩ := bind_ok_iff.mp hrest
    cases hout
    have hsame : n' = n := by
      rw [(nodeAt_eq_some_iff.mp hn).2] at hn'
      exact (Option.some.inj hn').symm
    subst hsame
    obtain ⟨htype, hroot, cs, hcs, rfl⟩ := (h.buildNode_ok_iff hslice).mp hnode
    exact ⟨n', hn, hvisit, hslice, htype, hroot, cs, s, hcs, rfl, rfl⟩
  · rintro ⟨n, hn, hvisit, hslice, htype, hroot, cs, s, hcs, rfl, rfl⟩
    refine ⟨⟨n, hn⟩, _, hvisit, rfl, n, (nodeAt_eq_some_iff.mp hn).2, hslice, bind_ok_iff.mpr ⟨_,
      (h.buildNode_ok_iff hslice).mpr ⟨htype, hroot, cs, hcs, rfl⟩, rfl⟩⟩

/-- The vertices can be visited one after another. -/
structure Visitable (a : FlatStructure) (vs : List ℤ) (state : List Visit) : Prop where
  wellFormed : ∀ v ∈ vs, a.LocallyWellFormed v
  nodup : vs.Nodup
  fresh : Fresh vs state

theorem visitable_nil (state : List Visit) : a.Visitable [] state :=
  ⟨by simp, .nil, by simp [Fresh]⟩

theorem visitable_append_iff {vs vs' : List ℤ} {state : List Visit} :
    a.Visitable (vs ++ vs') state ↔ a.Visitable vs state ∧ a.Visitable vs' (mark vs state) := by
  constructor
  · rintro ⟨hwf, hnd, hfresh⟩
    obtain ⟨hnd, hnd', hdisj⟩ := List.nodup_append'.mp hnd
    obtain ⟨hwf, hwf'⟩ := List.forall_mem_append.mp hwf
    obtain ⟨hfresh, hfresh'⟩ := fresh_append_iff.mpr ⟨hfresh, hdisj⟩
    exact ⟨⟨hwf, hnd, hfresh⟩, hwf', hnd', hfresh'⟩
  · rintro ⟨⟨hwf, hnd, hfresh⟩, hwf', hnd', hfresh'⟩
    obtain ⟨hfresh, hdisj⟩ := fresh_append_iff.mp ⟨hfresh, hfresh'⟩
    exact ⟨List.forall_mem_append.mpr ⟨hwf, hwf'⟩,
      List.nodup_append'.mpr ⟨hnd, hnd', hdisj⟩, hfresh⟩

theorem visitable_cons_iff {i : ℤ} {vs : List ℤ} {state : List Visit} :
    a.Visitable (i :: vs) state ↔ a.LocallyWellFormed i ∧
    (0 ≤ i ∧ state[i.toNat]? = some .unvisited) ∧
      a.Visitable vs (state.set i.toNat .visiting) := by
  constructor
  · rintro ⟨hwf, hnd, hfresh⟩
    obtain ⟨hi, hnd⟩ := List.nodup_cons.mp hnd
    obtain ⟨hhead, hfresh⟩ := fresh_cons_iff.mp ⟨hfresh, hi⟩
    exact ⟨hwf i (by simp), hhead, fun v hv => hwf v (by simp [hv]), hnd, hfresh⟩
  · rintro ⟨hi, hhead, hwf, hnd, hfresh⟩
    obtain ⟨hfresh, hnotin⟩ := fresh_cons_iff.mpr ⟨hhead, hfresh⟩
    exact ⟨by simpa using ⟨hi, hwf⟩, List.nodup_cons.mpr ⟨hnotin, hnd⟩, hfresh⟩

/-- The children one after another, when one call does what it should. -/
theorem buildAll_ok_iff {levels : ℕ}
    {child : Int32 → List Visit → Outcome (AccessStructure × List Visit)}
    (hchild : ∀ j state t state', child j state = .ok (t, state') ↔ Unfolds a.succ levels j.toInt ∧
      a.Visitable (preorder a.succ levels j.toInt) state ∧ t = a.unfolding levels j.toInt ∧
      state' = mark (preorder a.succ levels j.toInt) state)
    {js : List Int32} {state state' : List Visit} {cs : List AccessStructure} :
    buildAll child js state = .ok (cs, state') ↔
    (∀ j ∈ js.map Int32.toInt, Unfolds a.succ levels j) ∧
      a.Visitable ((js.map Int32.toInt).flatMap (preorder a.succ levels)) state ∧
      cs = (js.map Int32.toInt).map (a.unfolding levels) ∧
      state' = mark ((js.map Int32.toInt).flatMap (preorder a.succ levels)) state := by
  induction js generalizing state state' cs with
  | nil =>
    simp only [buildAll, List.map_nil, List.flatMap_nil, mark_nil, Except.ok.injEq, Prod.mk.injEq]
    constructor
    · rintro ⟨rfl, rfl⟩
      exact ⟨by simp, visitable_nil _, rfl, rfl⟩
    · rintro ⟨-, -, rfl, rfl⟩
      exact ⟨rfl, rfl⟩
  | cons j js ih =>
    simp only [buildAll, bind_ok_iff, Prod.exists, hchild, ih, List.map_cons, List.flatMap_cons,
      mark_append, visitable_append_iff, List.forall_mem_cons, Except.ok.injEq, Prod.mk.injEq]
    constructor
    · rintro ⟨c, s, ⟨hU, hv, rfl, rfl⟩, cs', s', ⟨hUs, hvs, rfl, rfl⟩, rfl, rfl⟩
      exact ⟨⟨hU, hUs⟩, ⟨hv, hvs⟩, rfl, rfl⟩
    · rintro ⟨⟨hU, hUs⟩, ⟨hv, hvs⟩, rfl, rfl⟩
      exact ⟨_, _, ⟨hU, hv, rfl, rfl⟩, _, _, ⟨hUs, hvs, rfl, rfl⟩, rfl, rfl⟩

theorem succ_eq {i : ℤ} {n : FlatNode} (hn : a.nodeAt i = some n) :
    a.succ i = (a.slice n).map Int32.toInt := by
  rw [succ, hn]
  rfl

/-- The recursion succeeds on the trees of the graph, and marks what it has unfolded. -/
theorem Sized.build_ok_iff (h : a.Sized) (hcount : 0 ≤ a.childIndicesCount.toInt)
    {levels : ℕ} {idx : Int32} {isRoot : Bool} {state state' : List Visit} {t : AccessStructure} :
    a.build levels idx isRoot state = .ok (t, state') ↔ Unfolds a.succ levels idx.toInt ∧
      a.Visitable (preorder a.succ levels idx.toInt) state ∧
      (isRoot = true → a.RootInner idx.toInt) ∧
      t = a.unfolding levels idx.toInt ∧
      state' = mark (preorder a.succ levels idx.toInt) state := by
  induction levels generalizing idx isRoot state t state' with
  | zero => simp [build, fail, Unfolds]
  | succ levels ih =>
    have hchildren := fun (js : List Int32) (s s' : List Visit) (cs : List AccessStructure) =>
      @buildAll_ok_iff a levels (fun j => a.build levels j false)
        (fun j s t s' => by simpa using @ih j false s s' t) js s s' cs
    simp only [h.build_succ_ok_iff hcount, hchildren, preorder, visitable_cons_iff, Unfolds]
    constructor
    · rintro ⟨n, hn, hstate, hslice, htype, hroot, cs, s, ⟨hU, hv, rfl, rfl⟩, rfl, rfl⟩
      have hnonneg := (nodeAt_eq_some_iff.mp hn).1
      rw [mark_cons hnonneg, succ_eq hn]
      refine ⟨hU, ⟨⟨n, hn, hslice, htype⟩, ⟨hnonneg, hstate⟩, hv⟩, fun hr m hm => ?_, ?_, rfl⟩
      · rw [hn] at hm
        cases hm
        exact hroot hr
      · rw [unfolding, hn, Option.elim_some, succ_eq hn]
    · rintro ⟨hU, ⟨⟨n, hn, hslice, htype⟩, ⟨hnonneg, hstate⟩, hv⟩, hroot, rfl, rfl⟩
      rw [mark_cons hnonneg]
      rw [succ_eq hn] at hU hv ⊢
      exact ⟨n, hn, hstate, hslice, htype, fun hr => hroot hr n hn, _, _, ⟨hU, hv, rfl, rfl⟩,
        by rw [unfolding, hn, Option.elim_some, succ_eq hn], rfl⟩

/-- No read leaves the arrays and no sum overflows. -/
theorem Sized.returns_build (h : a.Sized) (hcount : 0 ≤ a.childIndicesCount.toInt)
    (levels : ℕ) (idx : Int32) (isRoot : Bool) {state : List Visit}
    (hstate : state.length = a.nodesCount.toInt.toNat) :
    Returns (a.build levels idx isRoot state) := by
  induction levels generalizing idx isRoot state with
  | zero => exact returns_fail .range
  | succ levels ih =>
    have hnodes := h.nodes
    refine returns_bind_iff.mpr ⟨returns_require _ _, fun _ hidx => ?_⟩
    rw [require_ok_iff, decide_eq_true_eq] at hidx
    refine returns_bind_iff.mpr ⟨returns_elementAt (by omega), fun visit _ => returns_bind_iff.mpr
      ⟨returns_require _ _, fun _ _ =>
        returns_bind_iff.mpr ⟨returns_elementAt (by omega), fun n _ => ?_⟩⟩⟩
    rw [checkSlice_eq hcount]
    refine returns_bind_iff.mpr ⟨returns_require _ _, fun _ hslice => ?_⟩
    rw [require_ok_iff, decide_eq_true_eq] at hslice
    have hall : Returns (buildAll (fun j => a.build levels j false) (a.slice n)
        (state.set idx.toInt.toNat .visiting)) := by
      refine returns_buildAll (fun j s hs => ⟨ih j false hs, fun t s' ht => ?_⟩) _
        (List.length_set.trans hstate)
      rw [((h.build_ok_iff hcount).mp ht).2.2.2.2, length_mark, hs]
    refine returns_bind_iff.mpr ⟨?_, fun p _ => returns_ok _⟩
    unfold buildNode
    split
    · exact returns_bind_iff.mpr ⟨returns_checkLeaf n isRoot, fun _ _ => returns_ok _⟩
    · exact returns_fail .badArg
    · rw [h.buildFromIndices_slice hslice]
      exact returns_bind_iff.mpr ⟨returns_checkInner n, fun _ _ =>
        returns_bind_iff.mpr ⟨hall, fun p _ => returns_ok _⟩⟩

theorem all_done_iff (vs : List ℤ) (size : ℕ) :
    ((mark vs (List.replicate size .unvisited)).all fun visit => decide (visit = .done)) = true ↔
      ∀ i < size, (i : ℤ) ∈ vs := by
  have hget : ∀ i < size, (mark vs (List.replicate size .unvisited))[i]? =
      some (if (i : ℤ) ∈ vs then .done else .unvisited) := fun i hi => by
    rw [getElem?_mark, List.getElem?_replicate, if_pos hi, Option.map_some]
  simp only [List.all_eq_true, decide_eq_true_eq]
  constructor
  · intro h i hi
    have hdone := h _ (List.mem_of_getElem? (hget i hi))
    by_contra hout
    rw [if_neg hout] at hdone
    cases hdone
  · intro h visit hvisit
    obtain ⟨i, hi, rfl⟩ := List.mem_iff_getElem.mp hvisit
    have hlt : i < size := by simpa using hi
    have hdone := hget i hlt
    rw [List.getElem?_eq_getElem hi, if_pos (h i hlt)] at hdone
    exact Option.some.inj hdone

/-- The arrays encode one tree: every node is met exactly once from the root, and obeys its
rules. -/
structure EncodesTree (a : FlatStructure) : Prop where
  tree : IsRootedTree a.succ a.vertices a.rootIndex.toInt accessStructureMaxDepth
  wellFormed : ∀ i ∈ a.vertices, a.LocallyWellFormed i
  rootInner : a.RootInner a.rootIndex.toInt

theorem visitable_replicate_iff {vs : List ℤ} (hvs : ∀ v ∈ vs, v ∈ a.vertices) :
    a.Visitable vs (List.replicate a.nodesCount.toInt.toNat .unvisited) ↔
      (∀ v ∈ vs, a.LocallyWellFormed v) ∧ vs.Nodup := by
  refine ⟨fun hv => ⟨hv.wellFormed, hv.nodup⟩, fun hv => ⟨hv.1, hv.2, fun v hmem => ?_⟩⟩
  obtain ⟨hlo, hhi⟩ := mem_vertices.mp (hvs v hmem)
  exact ⟨hlo, by rw [List.getElem?_replicate, if_pos (by omega)]⟩

theorem LocallyWellFormed.mem_vertices (h : a.Sized) {i : ℤ}
    (hi : a.LocallyWellFormed i) : i ∈ a.vertices :=
  FlatStructure.mem_vertices.mpr (h.exists_nodeAt_iff.mp (hi.imp fun _ hn => hn.1))

/-- An inner root has children, so that there are child indices. -/
theorem childIndicesCount_pos {i : ℤ} (h : a.LocallyWellFormed i) (hinner : a.RootInner i) :
    0 < a.childIndicesCount.toInt := by
  obtain ⟨n, hn, ⟨hoff, -, hin⟩, htype⟩ := h
  have hleaf := hinner n hn
  have hpos : 0 < n.childIndicesCount.toInt := by
    unfold FlatNode.TypeWellFormed at htype
    split at htype
    · rename_i ht
      exact absurd ht hleaf
    · exact htype.2.1
    · exact htype.2.1
    · exact htype.2.1
    · exact htype.elim
  have hle := hin hpos
  omega

end FlatStructure

theorem isSome_of_length_pos {α : Type} {l : Option (List α)}
    (h : 0 < (l.getD []).length) : l.isSome = true := by
  cases l with
  | none => simp at h
  | some l => rfl

/-- The arrays are followed without a read outside of them and without an overflow, and are accepted
exactly when they encode one tree on at most `CBMPC_ACCESS_STRUCTURE_MAX_NODES` nodes. -/
theorem toCppAccessStructure_spec {a : FlatStructure} (h : a.Sized) :
    Returns (toCppAccessStructure (some a)) ∧ ∀ out, toCppAccessStructure (some a) = .ok out ↔
      a.nodesCount.toInt ≤ accessStructureMaxNodes ∧ a.EncodesTree ∧
        out = a.unfolding (accessStructureMaxDepth + 1) a.rootIndex.toInt := by
  have hnodes := h.nodes
  have hindices := h.childIndices
  constructor
  · refine returns_bind_iff.mpr ⟨returns_require _ _, fun _ hcounts => ?_⟩
    rw [require_ok_iff, decide_eq_true_eq] at hcounts
    refine returns_bind_iff.mpr ⟨returns_require _ _, fun _ _ =>
        returns_bind_iff.mpr ⟨returns_require _ _, fun _ _ =>
      returns_bind_iff.mpr ⟨returns_require _ _, fun _ _ =>
          returns_bind_iff.mpr ⟨returns_require _ _, fun _ _ =>
        returns_bind_iff.mpr ⟨returns_require _ _, fun _ _ => ?_⟩⟩⟩⟩⟩
    exact returns_bind_iff.mpr ⟨h.returns_build hcounts.2 _ _ _ (List.length_replicate ..),
        fun p _ =>
      returns_bind_iff.mpr ⟨returns_require _ _, fun _ _ => returns_ok _⟩⟩
  · intro out
    simp only [toCppAccessStructure, require_bind_ok_iff, decide_eq_true_eq]
    constructor
    · rintro ⟨⟨-, hcount⟩, -, hmax, -, -, -, hrest⟩
      obtain ⟨⟨t, state⟩, hbuild, hrest⟩ := bind_ok_iff.mp hrest
      obtain ⟨hall, hout⟩ := require_bind_ok_iff.mp hrest
      cases hout
      obtain ⟨hU, hv, hroot, rfl, rfl⟩ := (h.build_ok_iff hcount).mp hbuild
      rw [FlatStructure.all_done_iff] at hall
      have hvertices : ∀ v, v ∈ preorder a.succ (accessStructureMaxDepth + 1) a.rootIndex.toInt ↔
          v ∈ a.vertices := by
        refine fun v => ⟨fun hmem => (hv.wellFormed v hmem).mem_vertices h, fun hmem => ?_⟩
        obtain ⟨hlo, hhi⟩ := FlatStructure.mem_vertices.mp hmem
        rw [← Int.toNat_of_nonneg hlo]
        exact hall v.toNat (by omega)
      exact ⟨hmax, ⟨isRootedTree_iff.mpr ⟨hU, hv.nodup, hvertices⟩, fun i hi =>
        hv.wellFormed i ((hvertices i).mpr hi), hroot rfl⟩, rfl⟩
    · rintro ⟨hmax, ⟨htree, hwf, hroot⟩, rfl⟩
      obtain ⟨hU, hnd, hvertices⟩ := isRootedTree_iff.mp htree
      have hrange := FlatStructure.mem_vertices.mp htree.root_mem
      have hcount : 0 < a.childIndicesCount.toInt :=
        FlatStructure.childIndicesCount_pos (hwf _ htree.root_mem) hroot
      have hbuild :=
        (@FlatStructure.Sized.build_ok_iff a h hcount.le
          (accessStructureMaxDepth + 1) a.rootIndex true
        (List.replicate a.nodesCount.toInt.toNat .unvisited) _ _).mpr ⟨hU,
        (FlatStructure.visitable_replicate_iff
          fun v hv => (hvertices v).mp hv).mpr ⟨fun v hv => hwf v ((hvertices v).mp hv), hnd⟩,
          fun _ => hroot, rfl, rfl⟩
      refine ⟨⟨by omega, hcount.le⟩, by omega, hmax, isSome_of_length_pos (by omega),
        fun _ => isSome_of_length_pos (by omega), hrange, bind_ok_iff.mpr ⟨_, hbuild,
        require_bind_ok_iff.mpr ⟨(FlatStructure.all_done_iff _ _).mpr fun i hi => ?_, rfl⟩⟩⟩
      exact (hvertices i).mpr (FlatStructure.mem_vertices.mpr ⟨by omega, by omega⟩)

section Examples

/-- An OR node over `n` leaves. -/
def wide (n : ℕ) : FlatStructure where
  nodes := some (⟨3, none, 0, 0, Int32.ofNat n⟩ :: List.replicate n ⟨1, some [97], 0, 0, 0⟩)
  nodesCount := Int32.ofNat (n + 1)
  childIndices := some ((List.range n).map fun k => Int32.ofNat (k + 1))
  childIndicesCount := Int32.ofNat n
  rootIndex := 0

variable {n : ℕ}

theorem wide_sized (hn : n + 1 < 2 ^ 31) : (wide n).Sized where
  nodes := by
    simp only [wide, Option.getD_some, List.length_cons, List.length_replicate,
      Int32.toInt_ofNat_of_lt hn]
    omega
  childIndices := by
    have hlt : n < 2 ^ 31 := by omega
    simp only [wide, Option.getD_some, List.length_map, List.length_range,
      Int32.toInt_ofNat_of_lt hlt, Int.toNat_natCast]

theorem wide_nodeAt_zero : (wide n).nodeAt 0 = some ⟨3, none, 0, 0, Int32.ofNat n⟩ := rfl

theorem wide_nodeAt_pos {i : ℤ} (hi : 0 < i) (hin : i ≤ n) :
    (wide n).nodeAt i = some ⟨1, some [97], 0, 0, 0⟩ := by
  obtain ⟨k, rfl⟩ : ∃ k : ℕ, i = k + 1 := ⟨(i - 1).toNat, by omega⟩
  have hk : ((k : ℤ) + 1).toNat = k + 1 := by omega
  rw [FlatStructure.nodeAt_eq_some_iff, hk]
  refine ⟨by omega, ?_⟩
  simp only [wide, Option.getD_some, List.getElem?_cons_succ, List.getElem?_replicate]
  rw [if_pos (by omega)]

theorem wide_succ_zero (hn : n + 1 < 2 ^ 31) :
    (wide n).succ 0 = (List.range n).map fun k : ℕ => (k : ℤ) + 1 := by
  have hlt : n < 2 ^ 31 := by omega
  rw [FlatStructure.succ_eq wide_nodeAt_zero, FlatStructure.slice]
  simp only [wide, Option.getD_some, Int32.toInt_ofNat_of_lt hlt, Int.toNat_natCast]
  rw [show (0 : Int32).toInt.toNat = 0 from rfl, List.drop_zero, List.take_of_length_le (by simp),
    List.map_map]
  refine List.map_congr_left fun k hk => ?_
  have hk' : k + 1 < 2 ^ 31 := by
    have := List.mem_range.mp hk
    omega
  rw [Function.comp_apply, Int32.toInt_ofNat_of_lt hk', Nat.cast_succ]

theorem wide_succ_pos {i : ℤ} (hi : 0 < i) (hin : i ≤ n) : (wide n).succ i = [] := by
  rw [FlatStructure.succ_eq (wide_nodeAt_pos hi hin), FlatStructure.slice]
  rfl

theorem wide_encodesTree (hn : n + 1 < 2 ^ 31) (hpos : 0 < n) : (wide n).EncodesTree := by
  have hlt : n < 2 ^ 31 := by omega
  have hmem : ∀ v, v ∈ (wide n).vertices ↔ 0 ≤ v ∧ v ≤ n := fun v => by
    rw [FlatStructure.mem_vertices]
    simp only [wide, Int32.toInt_ofNat_of_lt hn]
    omega
  have hroot : (wide n).rootIndex.toInt = 0 := rfl
  have hchild : ∀ v, v ∈ (wide n).succ 0 ↔ 0 < v ∧ v ≤ n := fun v => by
    rw [wide_succ_zero hn, List.mem_map]
    constructor
    · rintro ⟨k, hk, rfl⟩
      have := List.mem_range.mp hk
      omega
    · rintro ⟨hlo, hhi⟩
      exact ⟨(v - 1).toNat, List.mem_range.mpr (by omega), by omega⟩
  have hnodup : ((wide n).succ 0).Nodup := by
    rw [wide_succ_zero hn]
    exact List.nodup_range.map fun k k' h => by simpa using h
  refine ⟨⟨?_, fun v => ?_, fun v hv => ?_⟩, fun v hv => ?_, fun m hm => ?_⟩
  · rw [hroot, hmem]
    omega
  · have hlisted : (v ∈ (wide n).vertices ∧ v ≠ 0) ↔ v ∈ (wide n).succ 0 := by
      rw [hmem, hchild]
      omega
    rw [Finset.sum_eq_single 0 (fun u hu hne => ?_) fun h =>
      absurd ((hmem 0).mpr (by omega)) h, hroot]
    · by_cases hv : v ∈ (wide n).succ 0
      · rw [List.count_eq_one_of_mem hnodup hv, if_pos (hlisted.mpr hv)]
      · rw [List.count_eq_zero.mpr hv, if_neg (fun h => hv (hlisted.mp h))]
    · have hu' := (hmem u).mp hu
      rw [wide_succ_pos (by omega) hu'.2, List.count_nil]
  · obtain ⟨hlo, hhi⟩ := (hmem v).mp hv
    rcases hlo.eq_or_lt with rfl | hlt'
    · exact ⟨0, Nat.zero_le _, by simp [level, hroot]⟩
    · refine ⟨1, by decide, ?_⟩
      rw [hroot, level]
      exact List.mem_flatMap.mpr ⟨v, (hchild v).mpr ⟨hlt', hhi⟩, by simp [level]⟩
  · obtain ⟨hlo, hhi⟩ := (hmem v).mp hv
    rcases hlo.eq_or_lt with rfl | hlt'
    · have hcount : (Int32.ofNat n).toInt = n := Int32.toInt_ofNat_of_lt hlt
      have hzero : (0 : Int32).toInt = 0 := rfl
      refine ⟨_, wide_nodeAt_zero, ⟨le_rfl, ?_, fun _ => ?_⟩, rfl, ?_, rfl⟩
      · rw [hcount]
        omega
      · rw [hzero, zero_add]
        rfl
      · rw [hcount]
        omega
    · exact ⟨_, wide_nodeAt_pos hlt' hhi, ⟨le_rfl, le_rfl, fun h => absurd h (by decide)⟩,
        ⟨[97], rfl, by decide⟩, rfl, rfl⟩
  · rw [hroot, wide_nodeAt_zero] at hm
    cases hm
    exact NodeType.noConfusion

/-- 4097 nodes are one too many, whatever tree they encode. -/
theorem wide_rejected : (wide 4096).Sized ∧ (wide 4096).EncodesTree ∧
    toCppAccessStructure (some (wide 4096)) = fail .range :=
  ⟨wide_sized (by decide), wide_encodesTree (by decide) (by decide), rfl⟩

/-- The root is the third node, and the slices lie in another order than the nodes. -/
def flatSample : FlatStructure where
  nodes := some [⟨1, some [97], 0, 0, 0⟩, ⟨1, some [98], 0, 0, 0⟩, ⟨3, none, 0, 2, 2⟩,
    ⟨1, some [99], 0, 0, 0⟩, ⟨4, none, 1, 0, 2⟩]
  nodesCount := 5
  childIndices := some [3, 1, 4, 0]
  childIndicesCount := 4
  rootIndex := 2

theorem toCppAccessStructure_sample :
    toCppAccessStructure (some flatSample) = .ok (Node.mk .or [] 0 [Node.mk .threshold [] 1
      [Node.mk .leaf [99] 0 [], Node.mk .leaf [98] 0 []], Node.mk .leaf [97] 0 []]) ∧
      flatSample.EncodesTree := by
  obtain ⟨-, hspec⟩ := @toCppAccessStructure_spec flatSample ⟨rfl, rfl⟩
  exact ⟨rfl, ((hspec _).mp rfl).2.1⟩

end Examples

end CbMpc
