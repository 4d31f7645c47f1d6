import CbMpc.Outcome

/-!
# Access structures

A `node_t` tree names the parties at its leaves and combines them by AND, OR and
THRESHOLD nodes. Every recursive function of the source on such trees is given by
its body at one node, applied by `fold`; the facts about trees that the proofs
use hold at every subtree, and survive a permutation of children.
-/
namespace CbMpc

/-- `pname_t`: a byte string, compared byte by byte. -/
abbrev PName := List (Fin 256)

/-- Decides whether a list has a name, and is named for the same reason as the instances of the
literals. -/
instance lawfulBEqName : LawfulBEq PName := inferInstance

/-- `node_e`. -/
inductive NodeType where
  | none | leaf | or | and | threshold
  deriving DecidableEq, Repr

/-- `node_t`, without the parent pointer: a node has a parent unless it is the root. -/
inductive Node where
  | mk (type : NodeType) (name : PName) (threshold : ℤ) (children : List Node)

namespace Node

def type : Node → NodeType
  | mk type _ _ _ => type

def name : Node → PName
  | mk _ name _ _ => name

def threshold : Node → ℤ
  | mk _ _ threshold _ => threshold

def children : Node → List Node
  | mk _ _ _ children => children

@[simp] theorem type_mk (type : NodeType) (name : PName) (th : ℤ) (cs : List Node) :
    (mk type name th cs).type = type := rfl

@[simp] theorem name_mk (type : NodeType) (name : PName) (th : ℤ) (cs : List Node) :
    (mk type name th cs).name = name := rfl

@[simp] theorem threshold_mk (type : NodeType) (name : PName) (th : ℤ) (cs : List Node) :
    (mk type name th cs).threshold = th := rfl

@[simp] theorem children_mk (type : NodeType) (name : PName) (th : ℤ) (cs : List Node) :
    (mk type name th cs).children = cs := rfl

mutual
/-- Apply the body `f` bottom up; it sees the results of the children in stored order. -/
def fold {α : Type} (f : NodeType → PName → ℤ → List (PName × α) → α) : Node → α
  | mk type name threshold children => f type name threshold (foldList f children)

def foldList {α : Type} (f : NodeType → PName → ℤ → List (PName × α) → α) :
    List Node → List (PName × α)
  | [] => []
  | c :: cs => (c.name, fold f c) :: foldList f cs
end

mutual
/-- The node and all nodes below it, parents first. -/
def subtrees : Node → List Node
  | mk type name threshold children => mk type name threshold children :: subtreesList children

def subtreesList : List Node → List Node
  | [] => []
  | c :: cs => subtrees c ++ subtreesList cs
end

def names (t : Node) : List PName := t.subtrees.map name

/-- `node_t::list_leaf_names`. -/
def listLeafNames (t : Node) : List PName := (t.subtrees.filter (fun s => s.type = .leaf)).map name

/-- `node_t::get_sorted_children`, on children together with their results. -/
def sortByName {α : Type} (children : List (PName × α)) : List (PName × α) :=
  children.insertionSort (fun a b => a.1 ≤ b.1)

def sortedChildren (t : Node) : List Node := t.children.insertionSort (fun a b => a.name ≤ b.name)

/-- The body of `node_t::validate_tree`, on the names met so far. -/
def validateNode (type : NodeType) (name : PName) (threshold : ℤ)
    (children : List (PName × (Bool → List PName → Outcome (List PName))))
    (hasParent : Bool) (names : List PName) : Outcome (List PName) := do
  require (!(name.isEmpty && hasParent)) .badArg
  require (!(!hasParent && !name.isEmpty)) .badArg
  require (!decide (name ∈ names)) .badArg
  let visited := name :: names
  match type with
  | .leaf => do
    require (decide (threshold = 0)) .badArg
    require (decide (children.length = 0)) .badArg
    .ok visited
  | .and | .or => do
    require (decide (threshold = 0)) .badArg
    require (decide (children.length ≠ 0)) .badArg
    children.foldlM (fun seen c => c.2 true seen) visited
  | .threshold => do
    require (decide (1 ≤ threshold)) .badArg
    require (decide (threshold ≤ children.length)) .badArg
    children.foldlM (fun seen c => c.2 true seen) visited
  | .none => fail .badArg

/-- `ac_t::validate_tree`. -/
def validateTree (t : Node) : Outcome Unit := do
  let _ ← t.fold validateNode false []
  .ok ()

/-- The THRESHOLD loop of `enough_for_quorum`, from `count` satisfied children on. -/
def countReaches (threshold : ℤ) : ℤ → List Bool → Bool
  | _, [] => false
  | count, b :: bs =>
    if !b then countReaches threshold count bs
    else if threshold ≤ count + 1 then true
    else countReaches threshold (count + 1) bs

/-- The body of `node_t::enough_for_quorum`. -/
def enoughNode (quorum : Finset PName) (type : NodeType) (name : PName) (threshold : ℤ)
    (children : List (PName × Bool)) : Bool :=
  match type with
  | .leaf => decide (name ∈ quorum)
  | .or => children.any Prod.snd
  | .and => children.all Prod.snd
  | .threshold => countReaches threshold 0 (children.map Prod.snd)
  | .none => false

def enoughForQuorum (quorum : Finset PName) (t : Node) : Bool := t.fold (enoughNode quorum)

theorem foldList_eq_map {α : Type}
    (f : NodeType → PName → ℤ → List (PName × α) → α) (cs : List Node) :
    foldList f cs = cs.map (fun c => (c.name, fold f c)) := by
  induction cs with
  | nil => rfl
  | cons c cs ih => rw [foldList, ih, List.map_cons]

theorem fold_mk {α : Type} (f : NodeType → PName → ℤ → List (PName × α) → α) (type : NodeType)
    (name : PName) (threshold : ℤ) (cs : List Node) :
    fold f (mk type name threshold cs) =
      f type name threshold (cs.map (fun c => (c.name, fold f c))) := by
  rw [fold, foldList_eq_map]

/-- Induction along the tree: the children are available when a node is treated. -/
theorem induction {P : Node → Prop}
    (h : ∀ type name threshold cs, (∀ c ∈ cs, P c) → P (mk type name threshold cs))
    (t : Node) : P t := by
  refine @Node.rec P (fun cs => ∀ c ∈ cs, P c) ?_ ?_ ?_ t
  · intro type name threshold cs ih
    exact h type name threshold cs ih
  · intro c hc
    cases hc
  · intro head tail hhead htail c hc
    rcases List.mem_cons.mp hc with rfl | hc
    · exact hhead
    · exact htail c hc

/-- A property of every node of the tree. -/
def Forall (p : Node → Prop) (t : Node) : Prop := ∀ s ∈ t.subtrees, p s

instance (p : Node → Prop) [DecidablePred p] (t : Node) : Decidable (Forall p t) :=
  inferInstanceAs (Decidable (∀ s ∈ t.subtrees, p s))

theorem mem_subtreesList {s : Node} {cs : List Node} :
    s ∈ subtreesList cs ↔ ∃ c ∈ cs, s ∈ c.subtrees := by
  induction cs with
  | nil => simp [subtreesList]
  | cons c cs ih => simp [subtreesList, ih]

theorem mem_subtrees_mk {s : Node} {type : NodeType} {name : PName}
    {threshold : ℤ} {cs : List Node} :
    s ∈ (mk type name threshold cs).subtrees ↔
      s = mk type name threshold cs ∨ ∃ c ∈ cs, s ∈ c.subtrees := by
  rw [subtrees, List.mem_cons, mem_subtreesList]

theorem self_mem_subtrees (t : Node) : t ∈ t.subtrees := by
  cases t
  simp [subtrees]

theorem name_mem_names (t : Node) : t.name ∈ t.names :=
  List.mem_map_of_mem (self_mem_subtrees t)

theorem forall_mk {p : Node → Prop} {type : NodeType} {name : PName}
    {threshold : ℤ} {cs : List Node} :
    Forall p (mk type name threshold cs) ↔ p (mk type name threshold cs) ∧ ∀ c ∈ cs,
      Forall p c := by
  simp only [Forall, mem_subtrees_mk]
  constructor
  · intro h
    exact ⟨h _ (.inl rfl), fun c hc s hs => h s (.inr ⟨c, hc, hs⟩)⟩
  · rintro ⟨hroot, hcs⟩ s (rfl | ⟨c, hc, hs⟩)
    · exact hroot
    · exact hcs c hc s hs

theorem Forall.self {p : Node → Prop} {t : Node} (h : Forall p t) : p t := h t (self_mem_subtrees t)

theorem names_mk (type : NodeType) (name : PName) (threshold : ℤ) (cs : List Node) :
    (mk type name threshold cs).names = name :: cs.flatMap names := by
  have hlist : ∀ l : List Node, (subtreesList l).map Node.name = l.flatMap names := by
    intro l
    induction l with
    | nil => rfl
    | cons c l ih => simp [subtreesList, ih, names]
  simp [names, subtrees, hlist]

theorem listLeafNames_mk (type : NodeType) (name : PName) (threshold : ℤ) (cs : List Node) :
    (mk type name threshold cs).listLeafNames =
      (if type = .leaf then [name] else []) ++ cs.flatMap listLeafNames := by
  have hlist : ∀ l : List Node, ((subtreesList l).filter (fun s => s.type = .leaf)).map Node.name =
      l.flatMap listLeafNames := by
    intro l
    induction l with
    | nil => rfl
    | cons c l ih => simp [subtreesList, ih, listLeafNames]
  rw [← hlist, listLeafNames, subtrees, List.filter_cons]
  by_cases h : type = .leaf <;> simp [h]

theorem listLeafNames_subset (t : Node) : t.listLeafNames ⊆ t.names := by
  intro nm h
  obtain ⟨s, hs, rfl⟩ := List.mem_map.mp h
  exact List.mem_map_of_mem (List.mem_filter.mp hs).1

theorem names_child_subset {type : NodeType} {name : PName} {threshold : ℤ}
    {cs : List Node} {c : Node} (hc : c ∈ cs) : c.names ⊆ (mk type name threshold cs).names := by
  intro nm h
  rw [names_mk]
  exact List.mem_cons_of_mem _ (List.mem_flatMap.mpr ⟨c, hc, h⟩)

theorem listLeafNames_child_subset {type : NodeType} {name : PName} {threshold : ℤ} {cs : List Node}
    {c : Node} (hc : c ∈ cs) : c.listLeafNames ⊆ (mk type name threshold cs).listLeafNames := by
  intro nm h
  rw [listLeafNames_mk]
  exact List.mem_append_right _ (List.mem_flatMap.mpr ⟨c, hc, h⟩)

/-- What `validate_tree` demands of a node apart from its name. -/
def LocalWf (s : Node) : Prop :=
  match s.type with
  | .leaf => s.threshold = 0 ∧ s.children.length = 0
  | .and | .or => s.threshold = 0 ∧ s.children.length ≠ 0
  | .threshold => 1 ≤ s.threshold ∧ s.threshold ≤ s.children.length
  | .none => False

instance : DecidablePred LocalWf := fun s => by
  unfold LocalWf
  split <;> infer_instance

def WellFormed (t : Node) : Prop := t.Forall LocalWf

instance (t : Node) : Decidable t.WellFormed := inferInstanceAs (Decidable (t.Forall LocalWf))

/-- Induction along a well-formed tree, one case for each kind of node. -/
theorem WellFormed.induction {P : (t : Node) → t.WellFormed → Prop}
    (leaf : ∀ name h, P (mk .leaf name 0 []) h)
    (or : ∀ name cs h, cs ≠ [] → (∀ c ∈ cs, ∃ hc, P c hc) → P (mk .or name 0 cs) h)
    (and : ∀ name cs h, cs ≠ [] → (∀ c ∈ cs, ∃ hc, P c hc) → P (mk .and name 0 cs) h)
    (threshold : ∀ name (k : ℕ) cs h, 1 ≤ k → k ≤ cs.length → (∀ c ∈ cs, ∃ hc, P c hc) →
      P (mk .threshold name k cs) h)
    (t : Node) (ht : t.WellFormed) : P t ht := by
  induction t using Node.induction with
  | h type name th cs ih =>
    obtain ⟨hloc, hcs⟩ := forall_mk.mp ht
    have ih' : ∀ c ∈ cs, ∃ hc, P c hc := fun c hc => ⟨hcs c hc, ih c hc (hcs c hc)⟩
    cases type with
    | none => exact absurd hloc (by simp [LocalWf])
    | leaf =>
      obtain ⟨h0, hlen⟩ : th = 0 ∧ cs.length = 0 := hloc
      have hnil : cs = [] := List.length_eq_zero_iff.mp hlen
      subst h0 hnil
      exact leaf name ht
    | or =>
      obtain ⟨h0, hlen⟩ : th = 0 ∧ cs.length ≠ 0 := hloc
      subst h0
      exact or name cs ht (by simpa using hlen) ih'
    | and =>
      obtain ⟨h0, hlen⟩ : th = 0 ∧ cs.length ≠ 0 := hloc
      subst h0
      exact and name cs ht (by simpa using hlen) ih'
    | threshold =>
      obtain ⟨h1, hn⟩ : 1 ≤ th ∧ th ≤ cs.length := hloc
      obtain ⟨k, rfl⟩ := Int.eq_ofNat_of_zero_le (by omega : 0 ≤ th)
      exact threshold name k cs ht (by omega) (by omega) ih'

/-- What a successful visit of `validate_tree` has established. -/
structure Visited (hasParent : Bool) (before : List PName) (t : Node)
    (after : List PName) : Prop where
  wellFormed : t.WellFormed
  nodup : t.names.Nodup
  fresh : ∀ nm ∈ t.names, nm ∉ before
  after_iff : ∀ nm, nm ∈ after ↔ nm ∈ t.names ∨ nm ∈ before
  root_name : hasParent = false → t.name = []

theorem visited_children {cs : List Node} {before after : List PName}
    (ih : ∀ c ∈ cs, ∀ before after, c.fold validateNode true before = .ok after →
      Visited true before c after)
    (h : (cs.map (fun c => (c.name, c.fold validateNode))).foldlM
      (fun seen c => c.2 true seen) before =
      .ok after) :
    (∀ c ∈ cs, c.WellFormed) ∧ (cs.flatMap names).Nodup ∧ (∀ nm ∈ cs.flatMap names, nm ∉ before) ∧
      ∀ nm, nm ∈ after ↔ nm ∈ cs.flatMap names ∨ nm ∈ before := by
  induction cs generalizing before with
  | nil =>
    cases h
    simp
  | cons c cs ihc =>
    rw [List.map_cons, List.foldlM_cons] at h
    obtain ⟨mid, hc, hrest⟩ := bind_ok_iff.mp h
    have hv := ih c (by simp) before mid hc
    obtain ⟨hwf, hnd, hfresh, hafter⟩ := ihc (fun d hd => ih d (by simp [hd])) hrest
    refine ⟨?_, ?_, ?_, ?_⟩
    · intro d hd
      rcases List.mem_cons.mp hd with rfl | hd
      · exact hv.wellFormed
      · exact hwf d hd
    · rw [List.flatMap_cons, List.nodup_append]
      refine ⟨hv.nodup, hnd, ?_⟩
      rintro a ha _ hb rfl
      exact hfresh a hb ((hv.after_iff a).mpr (.inl ha))
    · intro nm hnm
      rw [List.flatMap_cons, List.mem_append] at hnm
      rcases hnm with hnm | hnm
      · exact hv.fresh nm hnm
      · exact fun hb => hfresh nm hnm ((hv.after_iff nm).mpr (.inr hb))
    · intro nm
      rw [hafter, hv.after_iff, List.flatMap_cons, List.mem_append]
      tauto

theorem visited_of_validateNode (t : Node) (hasParent : Bool) (before after : List PName)
    (h : t.fold validateNode hasParent before = .ok after) : Visited hasParent before t after := by
  induction t using Node.induction generalizing hasParent before after with
  | h type name th cs ih =>
    have ih' : ∀ c ∈ cs, ∀ before after, c.fold validateNode true before = .ok after →
        Visited true before c after := fun c hc b a hr => ih c hc true b a hr
    rw [fold_mk] at h
    simp only [validateNode] at h
    obtain ⟨-, h⟩ := require_bind_ok_iff.mp h
    obtain ⟨hroot, h⟩ := require_bind_ok_iff.mp h
    obtain ⟨hfresh, h⟩ := require_bind_ok_iff.mp h
    have hroot' : hasParent = false → name = [] := by
      intro hp
      simpa [hp] using hroot
    have hname : name ∉ before := by simpa using hfresh
    -- a node passes its own checks, then its children are visited from its name on
    have hnode : LocalWf (mk type name th cs) ∧
        (cs.map (fun c => (c.name, c.fold validateNode))).foldlM (fun seen c => c.2 true seen)
          (name :: before) = .ok after := by
      cases type with
      | none => simp [fail] at h
      | leaf =>
        obtain ⟨hth, h⟩ := require_bind_ok_iff.mp h
        obtain ⟨hlen, h⟩ := require_bind_ok_iff.mp h
        have hcs : cs = [] := by simpa using hlen
        subst hcs
        exact ⟨⟨by simpa using hth, rfl⟩, h⟩
      | or =>
        obtain ⟨hth, h⟩ := require_bind_ok_iff.mp h
        obtain ⟨hlen, h⟩ := require_bind_ok_iff.mp h
        exact ⟨⟨by simpa using hth, by simpa using hlen⟩, h⟩
      | and =>
        obtain ⟨hth, h⟩ := require_bind_ok_iff.mp h
        obtain ⟨hlen, h⟩ := require_bind_ok_iff.mp h
        exact ⟨⟨by simpa using hth, by simpa using hlen⟩, h⟩
      | threshold =>
        obtain ⟨hth, h⟩ := require_bind_ok_iff.mp h
        obtain ⟨hlen, h⟩ := require_bind_ok_iff.mp h
        exact ⟨⟨by simpa using hth, by simpa using hlen⟩, h⟩
    obtain ⟨hloc, hloop⟩ := hnode
    obtain ⟨hwf, hnd, hcfresh, hafter⟩ := visited_children ih' hloop
    refine ⟨forall_mk.mpr ⟨hloc, hwf⟩, ?_, ?_, ?_, hroot'⟩
    · rw [names_mk, List.nodup_cons]
      exact ⟨fun hin => hcfresh name hin (by simp), hnd⟩
    · intro nm hnm
      rw [names_mk, List.mem_cons] at hnm
      rcases hnm with rfl | hnm
      · exact hname
      · exact fun hb => hcfresh nm hnm (by simp [hb])
    · intro nm
      rw [hafter, names_mk, List.mem_cons, List.mem_cons]
      tauto

/-- A tree that `validate_tree` accepts is well formed and names no node twice. -/
theorem validateTree_ok {t : Node} (h : t.validateTree = .ok ()) :
    t.WellFormed ∧ t.names.Nodup ∧ t.name = [] := by
  obtain ⟨after, hv, -⟩ := bind_ok_iff.mp h
  have hvis := visited_of_validateNode t false [] after hv
  exact ⟨hvis.wellFormed, hvis.nodup, hvis.root_name rfl⟩

/-- A loop over children with pairwise different unmet names succeeds when each visit does. -/
theorem visit_children {cs : List Node} {before : List PName}
    (ih : ∀ c ∈ cs, ∀ before, (∀ nm ∈ c.names, nm ∉ before) → ∃ after,
      c.fold validateNode true before = .ok after) (hnd : (cs.flatMap names).Nodup)
    (hfresh : ∀ nm ∈ cs.flatMap names, nm ∉ before) :
    ∃ after, (cs.map (fun c => (c.name, c.fold validateNode))).foldlM
      (fun seen c => c.2 true seen) before =
      .ok after := by
  induction cs generalizing before with
  | nil => exact ⟨before, rfl⟩
  | cons c cs ihc =>
    rw [List.flatMap_cons, List.nodup_append] at hnd
    obtain ⟨-, hnd', hdisj⟩ := hnd
    rw [List.flatMap_cons] at hfresh
    obtain ⟨mid, hmid⟩ := ih c (by simp) before fun nm hnm => hfresh nm (List.mem_append_left _ hnm)
    have hv := visited_of_validateNode c true before mid hmid
    obtain ⟨after, hafter⟩ := @ihc mid (fun d hd => ih d (by simp [hd])) hnd' fun nm hnm hin => by
      rcases (hv.after_iff nm).mp hin with h | h
      · exact hdisj nm h nm hnm rfl
      · exact hfresh nm (List.mem_append_right _ hnm) h
    refine ⟨after, ?_⟩
    rw [List.map_cons, List.foldlM_cons]
    exact bind_ok_iff.mpr ⟨mid, hmid, hafter⟩

theorem validateNode_ok {t : Node} (hwf : t.WellFormed) (hnd : t.names.Nodup) (hasParent : Bool)
    (before : List PName) (hfresh : ∀ nm ∈ t.names, nm ∉ before)
    (hname : t.name.isEmpty = !hasParent) (hcs : ∀ c ∈ t.children, [] ∉ c.names) :
    ∃ after, t.fold validateNode hasParent before = .ok after := by
  induction t using Node.induction generalizing hasParent before with
  | h type name th cs ih =>
    obtain ⟨hloc, hwfcs⟩ := forall_mk.mp hwf
    have hloop : ∃ after, (cs.map (fun c => (c.name, c.fold validateNode))).foldlM
        (fun seen c => c.2 true seen) (name :: before) = .ok after := by
      rw [names_mk, List.nodup_cons] at hnd
      refine visit_children (fun c hc before hb => ?_) hnd.2 fun nm hnm => ?_
      · have hempty : ([] : PName) ∉ c.names := hcs c hc
        refine ih c hc (hwfcs c hc) ((List.nodup_flatMap.mp hnd.2).1 c hc) true
          before hb ?_ fun d hd => ?_
        · simpa using fun h : c.name = [] => hempty (h ▸ name_mem_names c)
        · obtain ⟨_, _, _, ds⟩ := c
          exact fun h => hempty (names_child_subset hd h)
      · rw [List.mem_cons, not_or]
        exact ⟨fun h => hnd.1 (h ▸ hnm),
          hfresh nm (by rw [names_mk]; exact List.mem_cons_of_mem _ hnm)⟩
    have hroot : name ∉ before := hfresh name (by simp [names_mk])
    have hname' : name.isEmpty = !hasParent := hname
    rw [fold_mk]
    simp only [validateNode, hname']
    cases type with
    | none => exact absurd hloc (by simp [LocalWf])
    | leaf =>
      obtain ⟨h0, hlen⟩ : th = 0 ∧ cs.length = 0 := hloc
      exact ⟨name :: before, by cases hasParent <;> simp [hroot, h0, hlen]⟩
    | or =>
      obtain ⟨h0, hlen⟩ : th = 0 ∧ cs.length ≠ 0 := hloc
      obtain ⟨after, hafter⟩ := hloop
      exact ⟨after, by cases hasParent <;> simpa [hroot, h0, hlen] using hafter⟩
    | and =>
      obtain ⟨h0, hlen⟩ : th = 0 ∧ cs.length ≠ 0 := hloc
      obtain ⟨after, hafter⟩ := hloop
      exact ⟨after, by cases hasParent <;> simpa [hroot, h0, hlen] using hafter⟩
    | threshold =>
      obtain ⟨h1, hn⟩ : 1 ≤ th ∧ th ≤ cs.length := hloc
      obtain ⟨after, hafter⟩ := hloop
      exact ⟨after, by cases hasParent <;> simpa [hroot, h1, hn] using hafter⟩

theorem nodup_child {type : NodeType} {name : PName} {threshold : ℤ} {cs : List Node}
    (h : (mk type name threshold cs).names.Nodup) : ∀ c ∈ cs, c.names.Nodup := by
  rw [names_mk, List.nodup_cons] at h
  exact fun c hc => (List.nodup_flatMap.mp h.2).1 c hc

theorem pairwise_disjoint_children {type : NodeType} {name : PName} {threshold : ℤ} {cs : List Node}
    (h : (mk type name threshold cs).names.Nodup) :
    cs.Pairwise (fun c d => List.Disjoint c.names d.names) := by
  rw [names_mk, List.nodup_cons] at h
  exact (List.nodup_flatMap.mp h.2).2

/-- A name lies below at most one child. -/
theorem child_unique {type : NodeType} {name : PName} {threshold : ℤ} {cs : List Node}
    (h : (mk type name threshold cs).names.Nodup) {c d : Node} (hc : c ∈ cs)
    (hd : d ∈ cs) {nm : PName} (hnc : nm ∈ c.names) (hnd : nm ∈ d.names) : c = d := by
  have : Std.Symm (fun c d : Node => List.Disjoint c.names d.names) := ⟨fun _ _ hcd => hcd.symm⟩
  by_contra hne
  exact (pairwise_disjoint_children h).forall hc hd hne hnc hnd

theorem name_not_mem_child {type : NodeType} {name : PName} {threshold : ℤ} {cs : List Node}
    (h : (mk type name threshold cs).names.Nodup) : ∀ c ∈ cs, name ∉ c.names := by
  rw [names_mk, List.nodup_cons] at h
  exact fun c hc hn => h.1 (List.mem_flatMap.mpr ⟨c, hc, hn⟩)

/-- `validate_tree` accepts exactly the well-formed trees with distinct names and an unnamed
root. -/
theorem validateTree_ok_iff {t : Node} :
    t.validateTree = .ok () ↔ t.WellFormed ∧ t.names.Nodup ∧ t.name = [] := by
  refine ⟨validateTree_ok, ?_⟩
  rintro ⟨hwf, hnd, hname⟩
  obtain ⟨after, hafter⟩ := validateNode_ok hwf hnd false [] (by simp)
    (by simp [hname]) (by
      obtain ⟨type, name, th, cs⟩ := t
      cases hname
      exact fun c hc h => name_not_mem_child hnd c hc h)
  rw [validateTree, hafter]
  rfl

theorem child_name_ne {t c : Node} (h : t.names.Nodup) (hc : c ∈ t.children) : c.name ≠ t.name := by
  obtain ⟨type, name, th, cs⟩ := t
  intro he
  have hmem : c.name ∈ c.names := name_mem_names c
  rw [he] at hmem
  exact name_not_mem_child h c hc hmem

/-- The children of a node have pairwise different names. -/
theorem nodup_children_names {type : NodeType} {name : PName} {threshold : ℤ} {cs : List Node}
    (h : (mk type name threshold cs).names.Nodup) : (cs.map Node.name).Nodup := by
  rw [List.Nodup, List.pairwise_map]
  exact (pairwise_disjoint_children h).imp
    (fun {c d} hd he => hd (name_mem_names c) (by rw [he]; exact name_mem_names d))

theorem countReaches_eq (threshold count : ℤ) (bs : List Bool) :
    countReaches threshold count bs =
      decide (0 < bs.count true ∧ threshold ≤ count + (bs.count true : ℕ)) := by
  induction bs generalizing count with
  | nil => simp [countReaches]
  | cons b bs ih =>
    cases b with
    | false => simp [countReaches, ih]
    | true =>
      rw [countReaches]
      simp only [Bool.not_true, Bool.false_eq_true, if_false, List.count_cons_self]
      by_cases h : threshold ≤ count + 1
      · rw [if_pos h, eq_comm, decide_eq_true_iff]
        exact ⟨by omega, by push_cast; omega⟩
      · rw [if_neg h, ih]
        refine decide_eq_decide.mpr ?_
        push_cast
        constructor
        · rintro ⟨-, hle⟩
          exact ⟨by omega, by omega⟩
        · rintro ⟨-, hle⟩
          exact ⟨by omega, by omega⟩

/-- What holds at all nodes of a tree holds at all nodes of its subtrees. -/
theorem Forall.subtree {p : Node → Prop} {t s : Node} (h : t.Forall p)
    (hs : s ∈ t.subtrees) : s.Forall p := by
  induction t using Node.induction with
  | h type name th cs ih =>
    rcases mem_subtrees_mk.mp hs with rfl | ⟨c, hc, hsc⟩
    · exact h
    · exact ih c hc ((forall_mk.mp h).2 c hc) hsc

theorem listLeafNames_subtree_subset {t s : Node} (hs : s ∈ t.subtrees) :
    s.listLeafNames ⊆ t.listLeafNames := by
  induction t using Node.induction with
  | h type name th cs ih =>
    rcases mem_subtrees_mk.mp hs with rfl | ⟨c, hc, hsc⟩
    · exact List.Subset.refl _
    · exact fun nm hnm => listLeafNames_child_subset hc (ih c hc hsc hnm)

theorem names_subtree_subset {t s : Node} (hs : s ∈ t.subtrees) : s.names ⊆ t.names := by
  induction t using Node.induction with
  | h type name th cs ih =>
    rcases mem_subtrees_mk.mp hs with rfl | ⟨c, hc, hsc⟩
    · exact List.Subset.refl _
    · exact fun nm hnm => names_child_subset hc (ih c hc hsc hnm)

theorem nodup_subtree {t s : Node} (h : t.names.Nodup) (hs : s ∈ t.subtrees) : s.names.Nodup := by
  induction t using Node.induction with
  | h type name th cs ih =>
    rcases mem_subtrees_mk.mp hs with rfl | ⟨c, hc, hsc⟩
    · exact h
    · exact ih c hc (nodup_child h c hc) hsc

variable {quorum : Finset PName}

@[simp] theorem enoughForQuorum_leaf (name : PName) (th : ℤ) (cs : List Node) :
    enoughForQuorum quorum (mk .leaf name th cs) = decide (name ∈ quorum) := by
  rw [enoughForQuorum, fold_mk]
  rfl

@[simp] theorem enoughForQuorum_or (name : PName) (th : ℤ) (cs : List Node) :
    enoughForQuorum quorum (mk .or name th cs) = cs.any (enoughForQuorum quorum) := by
  rw [enoughForQuorum, fold_mk, enoughNode, List.any_map]
  rfl

@[simp] theorem enoughForQuorum_and (name : PName) (th : ℤ) (cs : List Node) :
    enoughForQuorum quorum (mk .and name th cs) = cs.all (enoughForQuorum quorum) := by
  rw [enoughForQuorum, fold_mk, enoughNode, List.all_map]
  rfl

theorem enoughForQuorum_threshold (name : PName) {k : ℕ} (hk : 1 ≤ k) (cs : List Node) :
    enoughForQuorum quorum (mk .threshold name k cs) =
      decide (k ≤ cs.countP (enoughForQuorum quorum)) := by
  have hcount : ((cs.map (fun c => (c.name, c.fold (enoughNode quorum)))).map Prod.snd).count true =
      cs.countP (enoughForQuorum quorum) := by
    rw [List.map_map, List.count, List.countP_map]
    refine List.countP_congr fun c _ => ?_
    simp [enoughForQuorum]
  rw [enoughForQuorum, fold_mk, enoughNode]
  simp only [countReaches_eq, hcount]
  refine decide_eq_decide.mpr ?_
  constructor
  · rintro ⟨-, h⟩
    omega
  · intro h
    exact ⟨by omega, by omega⟩

/-- All leaves together are enough. -/
theorem enoughForQuorum_of_leaves {t : Node} (hwf : t.WellFormed)
    (h : ∀ nm ∈ t.listLeafNames, nm ∈ quorum) :
    t.enoughForQuorum quorum = true := by
  induction t, hwf using WellFormed.induction with
  | leaf name _ => simpa using h name (by simp [listLeafNames_mk])
  | or name cs _ hne ih =>
    obtain ⟨c, hc⟩ := List.exists_mem_of_ne_nil cs hne
    rw [enoughForQuorum_or, List.any_eq_true]
    exact ⟨c, hc, (ih c hc).2 fun nm hnm => h nm (listLeafNames_child_subset hc hnm)⟩
  | and name cs _ _ ih =>
    rw [enoughForQuorum_and, List.all_eq_true]
    exact fun c hc => (ih c hc).2 fun nm hnm => h nm (listLeafNames_child_subset hc hnm)
  | threshold name k cs _ hk hkn ih =>
    have hall : cs.countP (enoughForQuorum quorum) = cs.length :=
        List.countP_eq_length.mpr fun c hc =>
      (ih c hc).2 fun nm hnm => h nm (listLeafNames_child_subset hc hnm)
    rw [enoughForQuorum_threshold name hk, hall]
    simpa using hkn

/-- No party at all is not enough. -/
theorem enoughForQuorum_empty {t : Node} (hwf : t.WellFormed) : t.enoughForQuorum ∅ = false := by
  induction t, hwf using WellFormed.induction with
  | leaf name _ => simp
  | or name cs _ _ ih =>
    rw [enoughForQuorum_or, List.any_eq_false]
    exact fun c hc => by simp [(ih c hc).2]
  | and name cs _ hne ih =>
    obtain ⟨c, hc⟩ := List.exists_mem_of_ne_nil cs hne
    rw [enoughForQuorum_and, List.all_eq_false]
    exact ⟨c, hc, by simp [(ih c hc).2]⟩
  | threshold name k cs _ hk _ ih =>
    have hnone : cs.countP (enoughForQuorum ∅) = 0 :=
      List.countP_eq_zero.mpr fun c hc => by simp [(ih c hc).2]
    rw [enoughForQuorum_threshold name hk, hnone]
    exact decide_eq_false (by omega)

/-- Two trees that differ by reordering the children of any of their nodes. -/
inductive Permuted : Node → Node → Prop
  | refl (t : Node) : Permuted t t
  | trans {t u v : Node} : Permuted t u → Permuted u v → Permuted t v
  | children {type : NodeType} {name : PName} {th : ℤ} {cs cs' : List Node} :
      cs.Perm cs' → Permuted (mk type name th cs) (mk type name th cs')
  | descend {type : NodeType} {name : PName} {th : ℤ} {l r : List Node} {c c' : Node} :
      Permuted c c' → Permuted (mk type name th (l ++ c :: r)) (mk type name th (l ++ c' :: r))

theorem Permuted.name_eq {t t' : Node} (h : Permuted t t') : t.name = t'.name := by
  induction h with
  | refl => rfl
  | trans _ _ ih ih' => exact ih.trans ih'
  | children => rfl
  | descend => rfl

/-- A property of nodes that sees the children only through the multiset of their
names carries over to the reordered tree. -/
theorem Permuted.forall {p : Node → Prop}
    (hp : ∀ type name th (cs cs' : List Node), (cs.map Node.name).Perm (cs'.map Node.name) →
      p (mk type name th cs) → p (mk type name th cs'))
    {t t' : Node} (h : Permuted t t') : t.Forall p → t'.Forall p := by
  induction h with
  | refl => exact id
  | trans _ _ ih ih' => exact fun h => ih' (ih h)
  | children hcs =>
    intro h
    obtain ⟨hroot, hch⟩ := forall_mk.mp h
    exact forall_mk.mpr ⟨hp _ _ _ _ _ (hcs.map Node.name) hroot, fun c hc =>
      hch c (hcs.mem_iff.mpr hc)⟩
  | @descend type name th l r c c' hcc ih =>
    intro h
    obtain ⟨hroot, hch⟩ := forall_mk.mp h
    refine forall_mk.mpr ⟨hp _ _ _ _ _ ?_ hroot, fun d hd => ?_⟩
    · simp [hcc.name_eq]
    · rcases List.mem_append.mp hd with hd | hd
      · exact hch d (by simp [hd])
      · rcases List.mem_cons.mp hd with rfl | hd
        · exact ih (hch c (by simp))
        · exact hch d (by simp [hd])

theorem Permuted.wellFormed {t t' : Node} (h : Permuted t t')
    (ht : t.WellFormed) : t'.WellFormed := by
  refine h.forall (fun type name th cs cs' hcs hl => ?_) ht
  have hlen : cs.length = cs'.length := by simpa using hcs.length_eq
  simp only [LocalWf, type_mk, threshold_mk, children_mk] at hl ⊢
  rwa [← hlen]

theorem Permuted.mem_listLeafNames {t t' : Node} (h : Permuted t t') (nm : PName) :
    nm ∈ t.listLeafNames ↔ nm ∈ t'.listLeafNames := by
  induction h with
  | refl => rfl
  | trans _ _ ih ih' => exact ih.trans ih'
  | children hcs => simp [listLeafNames_mk, hcs.mem_iff]
  | descend _ ih => simp [listLeafNames_mk, ih]

theorem enoughNode_perm {type : NodeType} {name : PName} {th : ℤ} {l l' : List (PName × Bool)}
    (h : l.Perm l') : enoughNode quorum type name th l = enoughNode quorum type name th l' := by
  cases type with
  | none => rfl
  | leaf => rfl
  | or => exact h.any_eq
  | and => exact h.all_eq
  | threshold => simp only [enoughNode, countReaches_eq, (h.map Prod.snd).count_eq]

/-- The order of children does not matter to the quorum predicate. -/
theorem Permuted.enoughForQuorum_eq {t t' : Node} (h : Permuted t t') :
    t.enoughForQuorum quorum = t'.enoughForQuorum quorum := by
  induction h with
  | refl => rfl
  | trans _ _ ih ih' => exact ih.trans ih'
  | children hcs =>
    rw [enoughForQuorum, enoughForQuorum, fold_mk, fold_mk]
    exact enoughNode_perm (hcs.map _)
  | descend hcc ih =>
    simp only [enoughForQuorum] at ih
    rw [enoughForQuorum, enoughForQuorum, fold_mk, fold_mk]
    simp [ih, hcc.name_eq]

end Node

end CbMpc
