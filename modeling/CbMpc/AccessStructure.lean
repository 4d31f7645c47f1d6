import CbMpc.AccessTree

/-!
# From the public access structure to the internal tree

The caller describes the parties by an `access_structure_t`, whose inner nodes
have no names. `to_internal_access_structure` checks its shape, compares its
leaves with the parties of the job, and builds the tree `node_t`, giving every
inner node below the root a name that no leaf carries.
-/
namespace CbMpc

open Node

/-- `access_structure_t` has the fields of `node_t` under other names: `leaf_name` and
`threshold_k`. The type `none` stands for a value outside the enumeration. -/
abbrev AccessStructure := Node

/-- `CBMPC_ACCESS_STRUCTURE_MAX_DEPTH`. -/
def accessStructureMaxDepth : ℕ := 128

/-- `CBMPC_ACCESS_STRUCTURE_MAX_NODES`. -/
def accessStructureMaxNodes : ℕ := 4096

/-- The body of `validate_access_structure_node_impl`, on the depth and the nodes seen so far. -/
def validateShape (type : NodeType) (leafName : PName) (thresholdK : ℤ)
    (children : List (PName × (ℕ → ℕ → Outcome ℕ))) (depth nodesSeen : ℕ) : Outcome ℕ := do
  require (decide (nodesSeen + 1 ≤ accessStructureMaxNodes)) .range
  require (decide (depth ≤ accessStructureMaxDepth)) .range
  match type with
  | .leaf => do
    require (!leafName.isEmpty) .badArg
    require children.isEmpty .badArg
    require (decide (thresholdK = 0)) .badArg
    .ok (nodesSeen + 1)
  | .and | .or => do
    require (!children.isEmpty) .badArg
    require leafName.isEmpty .badArg
    require (decide (thresholdK = 0)) .badArg
    children.foldlM (fun seen c => c.2 (depth + 1) seen) (nodesSeen + 1)
  | .threshold => do
    require (!children.isEmpty) .badArg
    require leafName.isEmpty .badArg
    require (decide (1 ≤ thresholdK)) .badArg
    require (decide (thresholdK ≤ children.length)) .badArg
    children.foldlM (fun seen c => c.2 (depth + 1) seen) (nodesSeen + 1)
  | .none => fail .badArg

/-- `validate_access_structure_node`. -/
def validateAccessStructureNode (s : AccessStructure) : Outcome Unit := do
  let _ ← s.fold validateShape 0 0
  .ok ()

/-- The loop of `collect_leaf_names`, with the top of the stack first; `budget` is what
`nodes_seen` leaves of the limit. -/
def collectLeafNamesLoop : ℕ → List (AccessStructure × ℕ) → Finset PName → Outcome (Finset PName)
  | _, [], out => .ok out
  | 0, _ :: _, _ => fail .range
  | budget + 1, (node, depth) :: stack, out => do
    require (decide (depth ≤ accessStructureMaxDepth)) .range
    if node.type = .leaf then
      collectLeafNamesLoop budget stack (insert node.name out)
    else
      collectLeafNamesLoop budget
        (node.children.reverse.map (fun ch => (ch, depth + 1)) ++ stack) out

/-- `collect_leaf_names`. -/
def collectLeafNames (s : AccessStructure) : Outcome (Finset PName) :=
  collectLeafNamesLoop accessStructureMaxNodes [(s, 0)] ∅

/-- `std::to_string` of a counter. -/
def decimal (n : ℕ) : PName :=
  if n = 0 then [48] else (Nat.digits 10 n).reverse.map (fun d => Fin.ofNat 256 (48 + d))

/-- `"__cbmpc_ac_node_" + std::to_string(counter)`. -/
def internalNodeName (counter : ℕ) : PName :=
  [95, 95, 99, 98, 109, 112, 99, 95, 97, 99, 95, 110, 111, 100, 101, 95] ++ decimal counter

/-- `used_names` and `name_counter`. -/
structure NameState where
  used : Finset PName
  counter : ℕ

/-- The loop of `gen_internal_node_name`: the first counter after the given one whose name is
not used. `tries` bounds the turns; `freshCounter_not_used` says that the bound is not met. -/
def freshCounter (used : Finset PName) : ℕ → ℕ → ℕ
  | 0, counter => counter + 1
  | tries + 1, counter =>
    if internalNodeName (counter + 1) ∈ used then
      freshCounter used tries (counter + 1) else counter + 1

/-- `gen_internal_node_name`. -/
def genInternalNodeName (st : NameState) : PName × NameState :=
  let counter := freshCounter st.used st.used.card st.counter
  (internalNodeName counter, ⟨insert (internalNodeName counter) st.used, counter⟩)

/-- The loop over the children in `build_internal_ac_node`. -/
def buildChildren (children : List (PName × (ℕ → Bool → NameState → Outcome (Node × NameState))))
    (depth : ℕ) (st : NameState) : Outcome (List Node × NameState) :=
  children.foldlM (fun acc ch => do
    let child ← ch.2 (depth + 1) false acc.2
    .ok (acc.1 ++ [child.1], child.2)) ([], st)

/-- The body of `build_internal_ac_node`. -/
def buildInternalAcNode (type : NodeType) (leafName : PName) (thresholdK : ℤ)
    (children : List (PName × (ℕ → Bool → NameState → Outcome (Node × NameState))))
    (depth : ℕ) (isRoot : Bool) (st : NameState) : Outcome (Node × NameState) := do
  require (decide (depth ≤ accessStructureMaxDepth)) .range
  match type with
  | .leaf => do
    require (!isRoot) .badArg
    .ok (mk .leaf leafName 0 [], st)
  | .and | .or | .threshold => do
    require (!children.isEmpty) .badArg
    let k := if type = .threshold then thresholdK else 0
    let named := if isRoot then ([], st) else genInternalNodeName st
    let built ← buildChildren children depth named.2
    .ok (mk type named.1 k built.1, built.2)
  | .none => fail .badArg

/-- `ac_owned_t`, whose root is a null pointer in an empty tree. -/
structure AcOwned (κ : Type) where
  curve : Option κ
  root : Option Node

/-- The part of `to_internal_access_structure` up to the tree it builds. An invalid curve is a
null pointer. -/
def buildTree {κ : Type} (s : AccessStructure) (partyNames : List PName)
    (curve : Option κ) : Outcome Node := do
  require curve.isSome .badArg
  validateAccessStructureNode s
  require (!decide (s.type = .leaf)) .badArg
  let leafNames ← collectLeafNames s
  require (decide (leafNames = partyNames.toFinset)) .badArg
  let root ← s.fold buildInternalAcNode 0 true ⟨insert [] leafNames, 0⟩
  .ok root.1

/-- `to_internal_access_structure`: the return code, and the output parameter afterwards. -/
def toInternalAccessStructure {κ : Type} (s : AccessStructure)
    (partyNames : List PName) (curve : Option κ) (out : AcOwned κ) : Outcome Unit × AcOwned κ :=
  match buildTree s partyNames curve with
  | .error e => (.error e, { out with root := none })
  | .ok root =>
    match root.validateTree with
    | .error e => (.error e, ⟨curve, none⟩)
    | .ok () => (.ok (), ⟨curve, some root⟩)

namespace Node

/-- The number of nodes. -/
def size (t : Node) : ℕ := t.subtrees.length

/-- The number of edges on the longest path downwards. -/
def height (t : Node) : ℕ := t.fold (fun _ _ _ cs => (cs.map (fun c => c.2 + 1)).foldr max 0)

theorem size_mk (type : NodeType) (name : PName) (th : ℤ) (cs : List Node) :
    (mk type name th cs).size = 1 + (cs.map size).sum := by
  have hlist : ∀ l : List Node, (subtreesList l).length = (l.map size).sum := by
    intro l
    induction l with
    | nil => rfl
    | cons c l ih => simp [subtreesList, ih, size]
  rw [size, subtrees, List.length_cons, hlist, Nat.add_comm]

theorem foldr_max_le_iff (l : List ℕ) (b : ℕ) : l.foldr max 0 ≤ b ↔ ∀ n ∈ l, n ≤ b := by
  induction l with
  | nil => simp
  | cons n l ih => simp [ih]

theorem height_le_iff {type : NodeType} {name : PName} {th : ℤ} {cs : List Node} {b : ℕ} :
    (mk type name th cs).height ≤ b ↔ ∀ c ∈ cs, c.height + 1 ≤ b := by
  rw [height, fold_mk, foldr_max_le_iff]
  simp [height]

/-- What a public node must satisfy on its own: the type fixes which fields are set. -/
def Shaped (s : Node) : Prop :=
  match s.type with
  | .leaf => s.name ≠ [] ∧ s.children = [] ∧ s.threshold = 0
  | .and | .or => s.children ≠ [] ∧ s.name = [] ∧ s.threshold = 0
  | .threshold => s.children ≠ [] ∧ s.name = [] ∧ 1 ≤ s.threshold ∧ s.threshold ≤ s.children.length
  | .none => False

/-- The connective of one node, on the values of its children. -/
def connective (S : Finset PName) (type : NodeType) (leafName : PName) (k : ℤ)
    (children : List (PName × Bool)) :
    Bool :=
  match type with
  | .leaf => decide (leafName ∈ S)
  | .and => children.all Prod.snd
  | .or => children.any Prod.snd
  | .threshold => decide (k ≤ children.countP Prod.snd)
  | .none => false

/-- The monotone formula over the parties that a public structure describes. -/
def formula (S : Finset PName) (s : AccessStructure) : Bool := s.fold (connective S)

end Node

/-- The limits and shapes that the converter asks of a structure for the given parties. -/
structure AcceptedStructure (s : AccessStructure) (partyNames : List PName) : Prop where
  shaped : s.Forall Shaped
  depth : s.height ≤ accessStructureMaxDepth
  nodes : s.size ≤ accessStructureMaxNodes
  root : s.type ≠ .leaf
  nodup : s.listLeafNames.Nodup
  parties : ∀ nm, nm ∈ s.listLeafNames ↔ nm ∈ partyNames

/-- The loop over the children adds their sizes to the nodes seen. -/
theorem validate_children_iff {cs : List Node} {depth seen seen' : ℕ}
    (ih : ∀ c ∈ cs, ∀ depth seen seen', c.fold validateShape depth seen = .ok seen' ↔
      c.Forall Shaped ∧ depth + c.height ≤ accessStructureMaxDepth ∧
        seen + c.size ≤ accessStructureMaxNodes ∧ seen' = seen + c.size)
    (hseen : seen ≤ accessStructureMaxNodes) :
    (cs.map (fun c => (c.name, c.fold validateShape))).foldlM (fun seen c =>
      c.2 (depth + 1) seen) seen =
        .ok seen' ↔
      (∀ c ∈ cs, c.Forall Shaped ∧ depth + 1 + c.height ≤ accessStructureMaxDepth) ∧
        seen + (cs.map size).sum ≤ accessStructureMaxNodes ∧ seen' = seen + (cs.map size).sum := by
  induction cs generalizing seen with
  | nil =>
    simp only [List.map_nil, List.foldlM_nil, List.sum_nil, Nat.add_zero]
    constructor
    · intro h
      cases h
      exact ⟨by simp, hseen, rfl⟩
    · rintro ⟨-, -, rfl⟩
      rfl
  | cons c cs ihc =>
    rw [List.map_cons, List.foldlM_cons, bind_ok_iff, List.forall_mem_cons, List.map_cons,
      List.sum_cons]
    have ih' := fun d hd => ih d (List.mem_cons_of_mem c hd)
    constructor
    · rintro ⟨mid, hc, hrest⟩
      obtain ⟨hs, hd, hn, rfl⟩ := (ih c (by simp) _ _ _).mp hc
      obtain ⟨hcs, hn', rfl⟩ := (ihc ih' hn).mp hrest
      exact ⟨⟨⟨hs, hd⟩, hcs⟩, by omega, by omega⟩
    · rintro ⟨⟨⟨hs, hd⟩, hcs⟩, hn, rfl⟩
      have hmid : seen + c.size ≤ accessStructureMaxNodes := by omega
      exact ⟨seen + c.size, (ih c (by simp) _ _ _).mpr ⟨hs, hd, hmid, rfl⟩,
        (ihc ih' hmid).mpr ⟨hcs, by omega, by omega⟩⟩

/-- What a node's own checks leave to the loop over its children. -/
theorem validateShape_ok_iff {type : NodeType} {name : PName} {th : ℤ} {cs : List Node}
    {depth seen seen' : ℕ} :
    validateShape type name th (cs.map (fun c => (c.name, c.fold validateShape)))
      depth seen = .ok seen' ↔
      seen + 1 ≤ accessStructureMaxNodes ∧ depth ≤ accessStructureMaxDepth ∧
      Shaped (mk type name th cs) ∧
        (cs.map (fun c => (c.name, c.fold validateShape))).foldlM
          (fun seen c => c.2 (depth + 1) seen)
          (seen + 1) = .ok seen' := by
  unfold validateShape
  rw [require_bind_ok_iff, require_bind_ok_iff, decide_eq_true_iff, decide_eq_true_iff]
  refine and_congr_right' (and_congr_right' ?_)
  cases type with
  | none => simp [Shaped, fail]
  | leaf =>
    simp only [require_bind_ok_iff, Shaped, type_mk, name_mk, children_mk, threshold_mk]
    constructor
    · rintro ⟨hn, hc, ht, h⟩
      have hcs : cs = [] := by simpa using hc
      subst hcs
      exact ⟨⟨by simpa using hn, rfl, by simpa using ht⟩, h⟩
    · rintro ⟨⟨hn, rfl, ht⟩, h⟩
      exact ⟨by simpa using hn, rfl, by simpa using ht, h⟩
  | and => simp [require_bind_ok_iff, Shaped, and_assoc]
  | or => simp [require_bind_ok_iff, Shaped, and_assoc]
  | threshold => simp [require_bind_ok_iff, Shaped, and_assoc]

/-- The shape pass succeeds exactly within the limits, and counts the nodes. -/
theorem validate_iff (s : AccessStructure) (depth seen seen' : ℕ) :
    s.fold validateShape depth seen = .ok seen' ↔
      s.Forall Shaped ∧ depth + s.height ≤ accessStructureMaxDepth ∧
        seen + s.size ≤ accessStructureMaxNodes ∧ seen' = seen + s.size := by
  induction s using Node.induction generalizing depth seen seen' with
  | h type name th cs ih =>
    rw [fold_mk, validateShape_ok_iff, forall_mk, size_mk]
    have hheight : depth + (mk type name th cs).height ≤ accessStructureMaxDepth ↔
        depth ≤ accessStructureMaxDepth ∧ ∀ c ∈ cs,
          depth + 1 + c.height ≤ accessStructureMaxDepth := by
      constructor
      · intro h
        refine ⟨by omega, fun c hc => ?_⟩
        have := height_le_iff.mp (le_refl (mk type name th cs).height) c hc
        omega
      · rintro ⟨hd, hcs⟩
        have : (mk type name th cs).height ≤ accessStructureMaxDepth - depth :=
          height_le_iff.mpr fun c hc => by have := hcs c hc; omega
        omega
    rw [hheight]
    constructor
    · rintro ⟨hn, hd, hs, hloop⟩
      obtain ⟨hcs, hn', rfl⟩ := (validate_children_iff ih hn).mp hloop
      exact ⟨⟨hs, fun c hc => (hcs c hc).1⟩, ⟨hd, fun c hc => (hcs c hc).2⟩, by omega, by omega⟩
    · rintro ⟨⟨hs, hcs⟩, ⟨hd, hds⟩, hn, rfl⟩
      have hn' : seen + 1 ≤ accessStructureMaxNodes := by omega
      exact ⟨hn', hd, hs, (validate_children_iff ih hn').mpr
        ⟨fun c hc => ⟨hcs c hc, hds c hc⟩, by omega, by omega⟩⟩

theorem validateAccessStructureNode_ok_iff {s : AccessStructure} :
    validateAccessStructureNode s = .ok () ↔
      s.Forall Shaped ∧ s.height ≤ accessStructureMaxDepth ∧ s.size ≤ accessStructureMaxNodes := by
  rw [validateAccessStructureNode, bind_ok_iff]
  constructor
  · rintro ⟨seen, h, -⟩
    obtain ⟨hs, hd, hn, -⟩ := (validate_iff s 0 0 seen).mp h
    exact ⟨hs, by omega, by omega⟩
  · rintro ⟨hs, hd, hn⟩
    exact ⟨0 + s.size, (validate_iff s 0 0 _).mpr ⟨hs, by omega, by omega, rfl⟩, rfl⟩

/-- On a structure of the right shape the stack is worked off, and every leaf below it collected. -/
theorem collectLeafNamesLoop_ok {budget : ℕ}
    {stack : List (AccessStructure × ℕ)} {out : Finset PName}
    (hs : ∀ f ∈ stack, f.1.Forall Shaped ∧ f.2 + f.1.height ≤ accessStructureMaxDepth)
    (hn : (stack.map (fun f => f.1.size)).sum ≤ budget) :
    collectLeafNamesLoop budget stack out =
      .ok (out ∪ (stack.flatMap (fun f => f.1.listLeafNames)).toFinset) := by
  induction budget generalizing stack out with
  | zero =>
    cases stack with
    | nil => simp [collectLeafNamesLoop]
    | cons f stack =>
      obtain ⟨⟨type, name, th, cs⟩, depth⟩ := f
      rw [List.map_cons, List.sum_cons, size_mk] at hn
      omega
  | succ budget ih =>
    cases stack with
    | nil => simp [collectLeafNamesLoop]
    | cons f stack =>
      obtain ⟨⟨type, name, th, cs⟩, depth⟩ := f
      obtain ⟨⟨hshape, hdepth⟩, hstack⟩ := List.forall_mem_cons.mp hs
      obtain ⟨hroot, hcs⟩ := forall_mk.mp hshape
      rw [List.map_cons, List.sum_cons, size_mk] at hn
      have hd : depth ≤ accessStructureMaxDepth := by simp only at hdepth; omega
      unfold collectLeafNamesLoop
      rw [decide_eq_true hd, require_true, ok_bind]
      by_cases htype : type = .leaf
      · subst htype
        obtain ⟨-, hnil, -⟩ : name ≠ [] ∧ cs = [] ∧ th = 0 := hroot
        subst hnil
        rw [type_mk, if_pos rfl, ih hstack (by simp only [List.map_nil, List.sum_nil] at hn; omega)]
        refine congrArg Except.ok ?_
        ext nm
        simp [listLeafNames_mk]
      · rw [type_mk, if_neg htype, ih]
        · refine congrArg Except.ok ?_
          ext nm
          simp [listLeafNames_mk, htype]
        · intro g hg
          rcases List.mem_append.mp hg with hg | hg
          · obtain ⟨c, hc, rfl⟩ := List.mem_map.mp hg
            rw [children_mk, List.mem_reverse] at hc
            have hle := height_le_iff.mp (le_refl (mk type name th cs).height) c hc
            exact ⟨hcs c hc, by simp only at hdepth ⊢; omega⟩
          · exact hstack g hg
        · have hsum :
              ((((mk type name th cs).children.reverse.map (fun ch => (ch, depth + 1))) ++
                stack).map
              (fun f => f.1.size)).sum = (cs.map size).sum +
                (stack.map (fun f => f.1.size)).sum := by
            rw [List.map_append, List.sum_append, List.map_map, children_mk, List.map_reverse,
              List.sum_reverse]
            rfl
          exact hsum.trans_le (by omega)

theorem collectLeafNames_ok {s : AccessStructure} (hs : s.Forall Shaped)
    (hd : s.height ≤ accessStructureMaxDepth) (hn : s.size ≤ accessStructureMaxNodes) :
    collectLeafNames s = .ok s.listLeafNames.toFinset := by
  rw [collectLeafNames, collectLeafNamesLoop_ok (by simpa using ⟨hs, hd⟩) (by simpa using hn)]
  simp

/-- The number can be read back off its decimal digits. -/
theorem ofDigits_decimal (n : ℕ) :
    Nat.ofDigits 10 ((decimal n).map (fun b => b.val - 48)).reverse = n := by
  by_cases hn : n = 0
  · subst hn
    rfl
  · rw [decimal, if_neg hn, List.map_map, List.map_reverse, List.reverse_reverse]
    have hdigit : ∀ d ∈ Nat.digits 10 n,
        ((fun b : Fin 256 => b.val - 48) ∘ fun d => Fin.ofNat 256 (48 + d)) d = d := by
      intro d hd
      have hlt : d < 10 := Nat.digits_lt_base (by norm_num) hd
      simp only [Function.comp_apply, Fin.ofNat]
      omega
    rw [List.map_congr_left hdigit, List.map_id', Nat.ofDigits_digits]

theorem internalNodeName_injective : Function.Injective internalNodeName := by
  intro m n h
  have hdecimal : decimal m = decimal n := List.append_cancel_left h
  rw [← ofDigits_decimal m, ← ofDigits_decimal n, hdecimal]

/-- If the loop ends on a used name, it has met one used name for each try. -/
theorem freshCounter_spec (used : Finset PName) (tries counter : ℕ) :
    counter < freshCounter used tries counter ∧
      (internalNodeName (freshCounter used tries counter) ∉ used ∨
        ∀ k ∈ Finset.Icc (counter + 1) (counter + 1 + tries), internalNodeName k ∈ used) := by
  induction tries generalizing counter with
  | zero =>
    refine ⟨Nat.lt_succ_self counter, ?_⟩
    by_cases h : internalNodeName (counter + 1) ∈ used
    · right
      intro k hk
      have : k = counter + 1 := by rw [Finset.mem_Icc] at hk; omega
      rwa [this]
    · exact .inl h
  | succ tries ih =>
    rw [freshCounter]
    by_cases h : internalNodeName (counter + 1) ∈ used
    · rw [if_pos h]
      obtain ⟨hlt, hor⟩ := ih (counter + 1)
      refine ⟨by omega, hor.imp_right fun hall k hk => ?_⟩
      rw [Finset.mem_Icc] at hk
      by_cases hk0 : k = counter + 1
      · rwa [hk0]
      · exact hall k (Finset.mem_Icc.mpr ⟨by omega, by omega⟩)
    · rw [if_neg h]
      exact ⟨Nat.lt_succ_self counter, .inl h⟩

/-- The generated name is never one in use. -/
theorem freshCounter_not_used (used : Finset PName) (counter : ℕ) :
    internalNodeName (freshCounter used used.card counter) ∉ used := by
  rcases (freshCounter_spec used used.card counter).2 with h | hall
  · exact h
  · -- more names than `used` has elements
    have hsub : (Finset.Icc (counter + 1) (counter + 1 + used.card)).image
        internalNodeName ⊆ used := by
      intro nm hnm
      obtain ⟨k, hk, rfl⟩ := Finset.mem_image.mp hnm
      exact hall k hk
    have hcard := Finset.card_le_card hsub
    rw [Finset.card_image_of_injective _ internalNodeName_injective, Nat.card_Icc] at hcard
    omega

namespace Node

/-- `t` is the structure `s` with other names on its inner nodes. -/
inductive Renamed : Node → Node → Prop
  | leaf (name : PName) : Renamed (mk .leaf name 0 []) (mk .leaf name 0 [])
  | inner {type : NodeType} (name name' : PName) (th : ℤ) {cs ds : List Node} :
      type ≠ .leaf → List.Forall₂ Renamed cs ds → Renamed (mk type name th cs) (mk type name' th ds)

/-- The names of the nodes that are not leaves. -/
def innerNames (t : Node) : List PName :=
  (t.subtrees.filter (fun s => !decide (s.type = .leaf))).map name

theorem names_perm (t : Node) : t.names.Perm (t.listLeafNames ++ t.innerNames) := by
  rw [names, listLeafNames, innerNames, ← List.map_append]
  exact ((List.filter_append_perm _ _).map _).symm

theorem innerNames_mk (type : NodeType) (name : PName) (threshold : ℤ) (cs : List Node) :
    (mk type name threshold cs).innerNames =
      (if type = .leaf then [] else [name]) ++ cs.flatMap innerNames := by
  have hlist : ∀ l : List Node,
      ((subtreesList l).filter (fun s => !decide (s.type = .leaf))).map Node.name =
      l.flatMap innerNames := by
    intro l
    induction l with
    | nil => rfl
    | cons c l ih => simp [subtreesList, ih, innerNames]
  rw [← hlist, innerNames, subtrees, List.filter_cons]
  by_cases h : type = .leaf <;> simp [h]

theorem map_eq_of_forall₂ {α : Type} {cs ds : List Node} {f g : Node → α}
    (h : List.Forall₂ Renamed cs ds) (hfg : ∀ c ∈ cs, ∀ d, Renamed c d → g d = f c) :
    ds.map g = cs.map f := by
  induction h with
  | nil => rfl
  | @cons c d cs ds hcd _ ih =>
    rw [List.map_cons, List.map_cons, hfg c (by simp) d hcd, ih fun c hc =>
      hfg c (List.mem_cons_of_mem _ hc)]

theorem exists_of_mem_right {cs ds : List Node} {d : Node}
    (h : List.Forall₂ Renamed cs ds) (hd : d ∈ ds) :
    ∃ c ∈ cs, Renamed c d := by
  induction h with
  | nil => cases hd
  | @cons c e cs ds hce _ ih =>
    rcases List.mem_cons.mp hd with rfl | hd
    · exact ⟨c, by simp, hce⟩
    · obtain ⟨c', hc', hcd⟩ := ih hd
      exact ⟨c', List.mem_cons_of_mem c hc', hcd⟩

theorem Renamed.listLeafNames_eq {s t : Node} (h : Renamed s t) :
    t.listLeafNames = s.listLeafNames := by
  induction s using Node.induction generalizing t with
  | h type name th cs ih =>
    cases h with
    | leaf => rfl
    | @inner _ _ name' _ _ ds htype hcs =>
      have hmap := map_eq_of_forall₂ hcs fun c hc d hcd => ih c hc hcd
      rw [listLeafNames_mk, listLeafNames_mk, if_neg htype, if_neg htype, List.flatMap_def,
        List.flatMap_def, hmap]

theorem Renamed.wellFormed {s t : Node} (h : Renamed s t)
    (hs : s.Forall Shaped) : t.WellFormed := by
  induction s using Node.induction generalizing t with
  | h type name th cs ih =>
    obtain ⟨hroot, hsub⟩ := forall_mk.mp hs
    cases h with
    | leaf => exact forall_mk.mpr ⟨⟨rfl, rfl⟩, by simp⟩
    | @inner _ _ name' _ _ ds htype hcs =>
      have hlen : cs.length = ds.length := hcs.length_eq
      refine forall_mk.mpr ⟨?_, fun d hd => ?_⟩
      · cases type with
        | none => exact hroot.elim
        | leaf => exact absurd rfl htype
        | and =>
          obtain ⟨hne, -, hth⟩ : cs ≠ [] ∧ name = [] ∧ th = 0 := hroot
          exact ⟨hth, by simpa [← hlen] using hne⟩
        | or =>
          obtain ⟨hne, -, hth⟩ : cs ≠ [] ∧ name = [] ∧ th = 0 := hroot
          exact ⟨hth, by simpa [← hlen] using hne⟩
        | threshold =>
          obtain ⟨-, -, h1, hn⟩ : cs ≠ [] ∧ name = [] ∧ 1 ≤ th ∧ th ≤ cs.length := hroot
          exact ⟨h1, by simpa [← hlen] using hn⟩
      · obtain ⟨c, hc, hcd⟩ := exists_of_mem_right hcs hd
        exact ih c hc hcd (hsub c hc)

/-- The built tree asks for the same quorums as the formula of the public structure. -/
theorem Renamed.enoughForQuorum_eq {s t : Node} (h : Renamed s t)
    (hs : s.Forall Shaped) (S : Finset PName) :
    t.enoughForQuorum S = s.formula S := by
  induction s using Node.induction generalizing t with
  | h type name th cs ih =>
    obtain ⟨hroot, hsub⟩ := forall_mk.mp hs
    rw [formula, fold_mk]
    cases h with
    | leaf => exact enoughForQuorum_leaf name 0 []
    | @inner _ _ name' _ _ ds htype hcs =>
      have hmap : ds.map (enoughForQuorum S) = cs.map (formula S) :=
        map_eq_of_forall₂ hcs fun c hc d hcd => ih c hc hcd (hsub c hc)
      cases type with
      | none => exact hroot.elim
      | leaf => exact absurd rfl htype
      | and =>
        have hall : ds.all (enoughForQuorum S) = cs.all (formula S) := by
          simpa [List.all_map] using congrArg (fun l => l.all id) hmap
        rw [enoughForQuorum_and, hall, connective, List.all_map]
        rfl
      | or =>
        have hany : ds.any (enoughForQuorum S) = cs.any (formula S) := by
          simpa [List.any_map] using congrArg (fun l => l.any id) hmap
        rw [enoughForQuorum_or, hany, connective, List.any_map]
        rfl
      | threshold =>
        obtain ⟨-, -, h1, -⟩ : cs ≠ [] ∧ name = [] ∧ 1 ≤ th ∧ th ≤ cs.length := hroot
        obtain ⟨k, rfl⟩ := Int.eq_ofNat_of_zero_le (by omega : 0 ≤ th)
        have hcount : ds.countP (enoughForQuorum S) = cs.countP (formula S) := by
          simpa [List.countP_map, Function.comp_def] using congrArg (fun l => l.countP id) hmap
        have hchildren : (cs.map (fun c => (c.name, c.fold (connective S)))).countP Prod.snd =
            cs.countP (formula S) := List.countP_map
        rw [enoughForQuorum_threshold name' (by omega), hcount, connective, hchildren]
        simp only [Nat.cast_le]

end Node

/-- What building the children of a node or a node below the root achieves. -/
structure Built (st : NameState) (cs ds : List Node) (st' : NameState) : Prop where
  renamed : List.Forall₂ Renamed cs ds
  nodup : (ds.flatMap innerNames).Nodup
  fresh : ∀ nm ∈ ds.flatMap innerNames, nm ∉ st.used ∧ nm ∈ st'.used
  used_subset : st.used ⊆ st'.used

theorem genInternalNodeName_fresh (st : NameState) :
    (genInternalNodeName st).1 ∉ st.used ∧
    (genInternalNodeName st).1 ∈ (genInternalNodeName st).2.used ∧
      st.used ⊆ (genInternalNodeName st).2.used :=
  ⟨freshCounter_not_used st.used st.counter, Finset.mem_insert_self _ _, Finset.subset_insert _ _⟩

theorem Built.cons {st mid st' : NameState} {c d : Node} {cs ds : List Node}
    (h : Built st [c] [d] mid) (hs : Built mid cs ds st') : Built st (c :: cs) (d :: ds) st' where
  renamed := List.forall₂_cons.mpr ⟨(List.forall₂_cons.mp h.renamed).1, hs.renamed⟩
  nodup := by
    have hd : d.innerNames.Nodup := by simpa using h.nodup
    rw [List.flatMap_cons, List.nodup_append]
    refine ⟨hd, hs.nodup, ?_⟩
    rintro nm hnm _ hnm' rfl
    exact (hs.fresh nm hnm').1 (h.fresh nm (by simpa using hnm)).2
  fresh := by
    intro nm hnm
    rw [List.flatMap_cons, List.mem_append] at hnm
    rcases hnm with hnm | hnm
    · obtain ⟨hn, hin⟩ := h.fresh nm (by simpa using hnm)
      exact ⟨hn, hs.used_subset hin⟩
    · obtain ⟨hn, hin⟩ := hs.fresh nm hnm
      exact ⟨fun hst => hn (h.used_subset hst), hin⟩
  used_subset := h.used_subset.trans hs.used_subset

/-- The loop over the children appends what it builds. -/
theorem buildChildren_ok {cs : List Node} (depth : ℕ)
    (ih : ∀ c ∈ cs, ∀ st, ∃ d st', c.fold buildInternalAcNode (depth + 1) false st = .ok (d, st') ∧
      Built st [c] [d] st') (st : NameState) :
    ∃ ds st', buildChildren (cs.map (fun c => (c.name, c.fold buildInternalAcNode))) depth st =
      .ok (ds, st') ∧
      Built st cs ds st' := by
  suffices hloop : ∀ (done : List Node) (st : NameState), ∃ ds st',
      (cs.map (fun c => (c.name, c.fold buildInternalAcNode))).foldlM (fun acc ch => do
        let child ← ch.2 (depth + 1) false acc.2
        .ok (acc.1 ++ [child.1], child.2)) (done, st) =
          (.ok (done ++ ds, st') : Outcome (List Node × NameState)) ∧
      Built st cs ds st' from hloop [] st
  induction cs with
  | nil =>
    exact fun done st => ⟨[], st, by simp [pure, Except.pure], .nil, by simp, by simp, subset_rfl⟩
  | cons c cs ihcs =>
    intro done st
    obtain ⟨d, mid, hd, hb⟩ := ih c (by simp) st
    obtain ⟨ds, st', hds, hbs⟩ :=
      ihcs (fun c hc => ih c (List.mem_cons_of_mem _ hc)) (done ++ [d]) mid
    refine ⟨d :: ds, st', ?_, hb.cons hbs⟩
    rw [List.map_cons, List.foldlM_cons]
    simp only [hd, ok_bind]
    rw [hds, List.append_assoc]
    rfl

/-- An inner node of the right shape is built from its children, under the given name. -/
theorem buildInternalAcNode_inner {type : NodeType} {name : PName} {th : ℤ} {cs : List Node}
    (htype : type ≠ .leaf) (hshape : Shaped (mk type name th cs)) {depth : ℕ}
    (hd : depth ≤ accessStructureMaxDepth) (isRoot : Bool) (st : NameState)
    {ds : List Node} {st' : NameState}
    (hcs : buildChildren (cs.map (fun c => (c.name, c.fold buildInternalAcNode))) depth
      (if isRoot then ([], st) else genInternalNodeName st).2 = .ok (ds, st')) :
    (mk type name th cs).fold buildInternalAcNode depth isRoot st =
      .ok (mk type (if isRoot then ([], st) else genInternalNodeName st).1 th ds, st') := by
  rw [fold_mk]
  cases type with
  | none => exact hshape.elim
  | leaf => exact absurd rfl htype
  | and =>
    obtain ⟨hne, -, rfl⟩ : cs ≠ [] ∧ name = [] ∧ th = 0 := hshape
    simp [buildInternalAcNode, hd, List.isEmpty_eq_false_iff.mpr hne, hcs]
  | or =>
    obtain ⟨hne, -, rfl⟩ : cs ≠ [] ∧ name = [] ∧ th = 0 := hshape
    simp [buildInternalAcNode, hd, List.isEmpty_eq_false_iff.mpr hne, hcs]
  | threshold =>
    obtain ⟨hne, -, -, -⟩ : cs ≠ [] ∧ name = [] ∧ 1 ≤ th ∧ th ≤ cs.length := hshape
    simp [buildInternalAcNode, hd, List.isEmpty_eq_false_iff.mpr hne, hcs]

theorem build_ok {s : AccessStructure} (hs : s.Forall Shaped) {depth : ℕ}
    (hd : depth + s.height ≤ accessStructureMaxDepth) (st : NameState) :
    ∃ t st', s.fold buildInternalAcNode depth false st = .ok (t, st') ∧ Built st [s] [t] st' := by
  induction s using Node.induction generalizing depth st with
  | h type name th cs ih =>
    obtain ⟨hroot, hsub⟩ := forall_mk.mp hs
    have hdepth : depth ≤ accessStructureMaxDepth := by omega
    by_cases htype : type = .leaf
    · subst htype
      obtain ⟨-, rfl, rfl⟩ : name ≠ [] ∧ cs = [] ∧ th = 0 := hroot
      refine ⟨mk .leaf name 0 [], st, ?_, .cons (.leaf name) .nil, ?_, ?_, subset_rfl⟩
      · simp [fold_mk, buildInternalAcNode, hdepth]
      · simp [innerNames_mk]
      · simp [innerNames_mk]
    · obtain ⟨hnew, hin, hsubset⟩ := genInternalNodeName_fresh st
      obtain ⟨ds, st', hds, hb⟩ := buildChildren_ok depth (fun c hc st => ih c hc (hsub c hc) (by
        have := height_le_iff.mp (le_refl (mk type name th cs).height) c hc
        omega) st) (genInternalNodeName st).2
      refine ⟨_, st', buildInternalAcNode_inner htype hroot hdepth false st hds, ?_, ?_, ?_, ?_⟩
      · exact .cons (.inner name _ th htype hb.renamed) .nil
      · rw [List.flatMap_singleton, innerNames_mk, if_neg htype, List.singleton_append,
          List.nodup_cons]
        exact ⟨fun h => (hb.fresh _ h).1 hin, hb.nodup⟩
      · rw [List.flatMap_singleton, innerNames_mk, if_neg htype, List.singleton_append,
          List.forall_mem_cons]
        exact ⟨⟨hnew, hb.used_subset hin⟩,
          fun nm hnm => ⟨fun h => (hb.fresh nm hnm).1 (hsubset h), (hb.fresh nm hnm).2⟩⟩
      · exact hsubset.trans hb.used_subset

/-- The tree that is built: unnamed at the root, and with fresh names below it. -/
theorem buildRoot_ok {s : AccessStructure} (hs : s.Forall Shaped)
    (hd : s.height ≤ accessStructureMaxDepth) (hroot : s.type ≠ .leaf) (leafNames : Finset PName) :
    ∃ t st', s.fold buildInternalAcNode 0 true ⟨insert [] leafNames, 0⟩ =
      .ok (t, st') ∧ Renamed s t ∧
      t.name = [] ∧ t.innerNames.Nodup ∧ ∀ nm ∈ t.innerNames, nm ∉ leafNames ∨ nm = [] := by
  obtain ⟨type, name, th, cs⟩ := s
  obtain ⟨hshape, hsub⟩ := forall_mk.mp hs
  obtain ⟨ds, st', hds, hb⟩ := buildChildren_ok 0 (fun c hc st => build_ok (hsub c hc) (by
    have := height_le_iff.mp (le_refl (mk type name th cs).height) c hc
    omega) st) ⟨insert [] leafNames, 0⟩
  refine ⟨_, st', buildInternalAcNode_inner hroot hshape (by omega) true _ hds,
    .inner name _ th hroot hb.renamed, rfl, ?_, ?_⟩
  · rw [innerNames_mk, if_neg hroot, List.singleton_append, List.nodup_cons]
    exact ⟨fun h => (hb.fresh _ h).1 (Finset.mem_insert_self _ _), hb.nodup⟩
  · rw [innerNames_mk, if_neg hroot, List.singleton_append, List.forall_mem_cons]
    exact ⟨.inr rfl, fun nm hnm => .inl fun h => (hb.fresh nm hnm).1 (Finset.mem_insert_of_mem h)⟩

/-- Leaf names of the right shape are not empty. -/
theorem leaf_name_ne_nil {s : AccessStructure} (hs : s.Forall Shaped) :
    ∀ nm ∈ s.listLeafNames, nm ≠ [] := by
  intro nm hnm
  obtain ⟨u, hu, rfl⟩ := List.mem_map.mp hnm
  obtain ⟨husub, htype⟩ := List.mem_filter.mp hu
  have hshape := hs u husub
  rw [Shaped, of_decide_eq_true htype] at hshape
  exact hshape.1

/-- The names of the built tree are distinct exactly when those of the leaves are. -/
theorem nodup_names_iff {s t : Node} (hs : s.Forall Shaped) (h : Renamed s t)
    (hnd : t.innerNames.Nodup)
    (hfresh : ∀ nm ∈ t.innerNames, nm ∉ s.listLeafNames.toFinset ∨ nm = []) :
    t.names.Nodup ↔ s.listLeafNames.Nodup := by
  rw [(names_perm t).nodup_iff, List.nodup_append, h.listLeafNames_eq]
  refine ⟨fun h => h.1, fun hleaf => ⟨hleaf, hnd, ?_⟩⟩
  rintro nm hnm _ hnm' rfl
  rcases hfresh nm hnm' with h | rfl
  · exact h (List.mem_toFinset.mpr hnm)
  · exact leaf_name_ne_nil hs [] hnm rfl

variable {κ : Type}

/-- Apart from repeated leaf names, the tree is built from exactly the accepted structures. -/
theorem buildTree_ok_iff {s : AccessStructure} {partyNames : List PName} {curve : κ} :
    (∃ t, buildTree s partyNames (some curve) = .ok t) ↔
      s.Forall Shaped ∧ s.height ≤ accessStructureMaxDepth ∧
      s.size ≤ accessStructureMaxNodes ∧ s.type ≠ .leaf ∧
        ∀ nm, nm ∈ s.listLeafNames ↔ nm ∈ partyNames := by
  constructor
  · rintro ⟨t, h⟩
    obtain ⟨-, h⟩ := require_bind_ok_iff.mp h
    obtain ⟨u, hv, h⟩ := bind_ok_iff.mp h
    obtain ⟨hs, hd, hn⟩ := validateAccessStructureNode_ok_iff.mp hv
    obtain ⟨hroot, h⟩ := require_bind_ok_iff.mp h
    rw [collectLeafNames_ok hs hd hn, ok_bind] at h
    obtain ⟨hparties, -⟩ := require_bind_ok_iff.mp h
    refine ⟨hs, hd, hn, by simpa using hroot, fun nm => ?_⟩
    rw [← List.mem_toFinset, of_decide_eq_true hparties, List.mem_toFinset]
  · rintro ⟨hs, hd, hn, hroot, hparties⟩
    obtain ⟨t, st', ht, -⟩ := buildRoot_ok hs hd hroot s.listLeafNames.toFinset
    have hset : s.listLeafNames.toFinset = partyNames.toFinset := by
      ext nm
      rw [List.mem_toFinset, List.mem_toFinset, hparties]
    refine ⟨t, ?_⟩
    rw [buildTree, validateAccessStructureNode_ok_iff.mpr ⟨hs, hd, hn⟩,
      collectLeafNames_ok hs hd hn]
    simp only [Option.isSome_some, require_true, ok_bind, hroot, decide_false, Bool.not_false, hset,
      decide_true]
    rw [← hset, ht]
    rfl

theorem buildTree_spec {s t : Node} {partyNames : List PName} {curve : κ}
    (h : buildTree s partyNames (some curve) = .ok t) :
    Renamed s t ∧ t.name = [] ∧ (t.names.Nodup ↔ s.listLeafNames.Nodup) := by
  obtain ⟨hs, hd, hn, hroot, -⟩ := buildTree_ok_iff.mp ⟨t, h⟩
  obtain ⟨t', st', ht', hren, hname, hnd, hfresh⟩ :=
    buildRoot_ok hs hd hroot s.listLeafNames.toFinset
  obtain ⟨-, h⟩ := require_bind_ok_iff.mp h
  rw [validateAccessStructureNode_ok_iff.mpr ⟨hs, hd, hn⟩, ok_bind] at h
  obtain ⟨-, h⟩ := require_bind_ok_iff.mp h
  rw [collectLeafNames_ok hs hd hn, ok_bind] at h
  obtain ⟨-, h⟩ := require_bind_ok_iff.mp h
  rw [ht', ok_bind] at h
  cases h
  exact ⟨hren, hname, nodup_names_iff hs hren hnd hfresh⟩

theorem accepted_iff {s : AccessStructure} {partyNames : List PName} {curve : κ} :
    AcceptedStructure s partyNames ↔ (∃ t, buildTree s partyNames (some curve) = .ok t) ∧
    s.listLeafNames.Nodup := by
  rw [buildTree_ok_iff]
  constructor
  · intro h
    exact ⟨⟨h.shaped, h.depth, h.nodes, h.root, h.parties⟩, h.nodup⟩
  · rintro ⟨⟨hs, hd, hn, hroot, hparties⟩, hnd⟩
    exact ⟨hs, hd, hn, hroot, hnd, hparties⟩

/-- An accepted structure becomes a valid tree with the same formula; any other leaves none. -/
theorem toInternalAccessStructure_cases (s : AccessStructure) (partyNames : List PName)
    (curve : κ) (out : AcOwned κ) :
    (AcceptedStructure s partyNames ∧
      ∃ t, toInternalAccessStructure s partyNames (some curve) out =
        (.ok (), ⟨some curve, some t⟩) ∧
        t.validateTree = .ok () ∧ Renamed s t ∧ t.name = [] ∧ t.names.Nodup ∧
        ∀ S, t.enoughForQuorum S = s.formula S) ∨
    (¬ AcceptedStructure s partyNames ∧
      (toInternalAccessStructure s partyNames (some curve) out).1 ≠ .ok () ∧
      (toInternalAccessStructure s partyNames (some curve) out).2.root = none) := by
  rw [@accepted_iff κ s partyNames curve]
  unfold toInternalAccessStructure
  cases hb : buildTree s partyNames (some curve) with
  | error e => exact .inr (by simp)
  | ok t =>
    obtain ⟨hren, hname, hnd⟩ := buildTree_spec hb
    obtain ⟨hs, -, -, -, -⟩ := buildTree_ok_iff.mp ⟨t, hb⟩
    have hvalid : t.validateTree = .ok () ↔ s.listLeafNames.Nodup := by
      rw [validateTree_ok_iff, ← hnd]
      exact ⟨fun h => h.2.1, fun h => ⟨hren.wellFormed hs, h, hname⟩⟩
    simp only
    cases hv : t.validateTree with
    | error e =>
      have hleaf : ¬ s.listLeafNames.Nodup := fun h => by simpa [hv] using hvalid.mpr h
      exact .inr (by simp [hleaf])
    | ok u =>
      have hleaf := hvalid.mp hv
      exact .inl ⟨⟨⟨t, rfl⟩, hleaf⟩, t, rfl, hv, hren, hname, hnd.mpr hleaf,
        hren.enoughForQuorum_eq hs⟩

/-- `to_internal_access_structure` accepts exactly the structures of `AcceptedStructure`, and builds
from them a valid tree with the same formula; otherwise it leaves no tree. -/
theorem toInternalAccessStructure_spec (s : AccessStructure) (partyNames : List PName)
    (curve : κ) (out : AcOwned κ) :
    ((toInternalAccessStructure s partyNames (some curve) out).1 = .ok () ↔
      AcceptedStructure s partyNames) ∧
      ((toInternalAccessStructure s partyNames (some curve) out).1 = .ok () →
        ∃ t, (toInternalAccessStructure s partyNames (some curve) out).2 = ⟨some curve, some t⟩ ∧
          t.validateTree = .ok () ∧ Renamed s t ∧ t.name = [] ∧ t.names.Nodup ∧
          ∀ S, t.enoughForQuorum S = s.formula S) ∧
      ((toInternalAccessStructure s partyNames (some curve) out).1 ≠ .ok () →
        (toInternalAccessStructure s partyNames (some curve) out).2.root = none) := by
  rcases toInternalAccessStructure_cases s partyNames curve out with
    ⟨hacc, t, heq, ht⟩ | ⟨hacc, hfail, hroot⟩
  · rw [heq]
    exact ⟨by simp [hacc], fun _ => ⟨t, rfl, ht⟩, fun h => absurd rfl h⟩
  · exact ⟨by simp [hacc, hfail], fun h => absurd h hfail, fun _ => hroot⟩

end CbMpc
