import CbMpc.Sharing

/-!
# Checking a share against the public values above it

`verify_share_against_ancestors_pub_data` follows the parents of a leaf up to the
root and compares the public value of each node with those of its children. It
accepts whatever is consistent along that one path: siblings enter with their own
value, and what lies below them is not looked at.
-/
namespace CbMpc

open Interpolation Node

namespace Node

mutual
/-- The node called `nm` that `node_t::find` reaches first, followed by its parents. -/
def findPath (nm : PName) : Node → Option (List Node)
  | mk type name threshold children =>
    if name = nm then some [mk type name threshold children]
    else (findPathList nm children).map (fun path => path ++ [mk type name threshold children])

def findPathList (nm : PName) : List Node → Option (List Node)
  | [] => none
  | c :: cs =>
    match findPath nm c with
    | some path => some path
    | none => findPathList nm cs
end

theorem findPathList_some {nm : PName} {cs : List Node} {path : List Node}
    (h : findPathList nm cs = some path) : ∃ c ∈ cs, findPath nm c = some path := by
  induction cs with
  | nil => simp [findPathList] at h
  | cons c cs ih =>
    rw [findPathList] at h
    split at h
    · rename_i p hp
      cases h
      exact ⟨c, by simp, hp⟩
    · obtain ⟨d, hd, hpath⟩ := ih h
      exact ⟨d, by simp [hd], hpath⟩

theorem findPathList_isSome {nm : PName} {cs : List Node} {c : Node} (hc : c ∈ cs)
    (h : (findPath nm c).isSome) : (findPathList nm cs).isSome := by
  induction cs with
  | nil => simp at hc
  | cons d cs ih =>
    rw [findPathList]
    split
    · rfl
    · rename_i hnone
      rcases List.mem_cons.mp hc with rfl | hc
      · simp [hnone] at h
      · exact ih hc

theorem findPath_isSome {nm : PName} {t : Node} (h : nm ∈ t.names) : (findPath nm t).isSome := by
  induction t using Node.induction with
  | h type name th cs ih =>
    rw [findPath]
    split
    · rfl
    · rename_i hne
      rw [names_mk, List.mem_cons, List.mem_flatMap] at h
      obtain ⟨c, hc, hnm⟩ := h.resolve_left fun he => hne he.symm
      simpa using findPathList_isSome hc (ih c hc hnm)

/-- A path starts at a node with the name sought and stays in the tree. -/
theorem findPath_some {nm : PName} {t : Node} {path : List Node} (h : findPath nm t = some path) :
    ∃ s rest, path = s :: rest ∧ s.name = nm ∧ ∀ a ∈ path, a ∈ t.subtrees := by
  induction t using Node.induction generalizing path with
  | h type name th cs ih =>
    rw [findPath] at h
    split at h
    · rename_i hname
      cases h
      exact ⟨_, [], rfl, hname, by simp [self_mem_subtrees]⟩
    · obtain ⟨p, hp, rfl⟩ := Option.map_eq_some_iff.mp h
      obtain ⟨c, hc, hpc⟩ := findPathList_some hp
      obtain ⟨s, rest, rfl, hs, hmem⟩ := ih c hc hpc
      refine ⟨s, rest ++ [mk type name th cs], rfl, hs, fun a ha => ?_⟩
      rcases List.mem_append.mp ha with ha | ha
      · exact mem_subtrees_mk.mpr (.inr ⟨c, hc, hmem a ha⟩)
      · rw [List.mem_singleton.mp ha]
        exact self_mem_subtrees _

theorem eq_of_name_eq {t s s' : Node} (hnd : t.names.Nodup)
    (hs : s ∈ t.subtrees) (hs' : s' ∈ t.subtrees) (h : s.name = s'.name) : s = s' :=
  List.inj_on_of_nodup_map hnd hs hs' h

/-- The path of a leaf of the tree starts at that leaf. -/
theorem findPath_leaf {nm : PName} {t : Node} (hnd : t.names.Nodup) (h : nm ∈ t.listLeafNames) :
    ∃ s rest, findPath nm t = some (s :: rest) ∧ s.type = .leaf ∧ s.name = nm := by
  obtain ⟨path, hpath⟩ := Option.isSome_iff_exists.mp (findPath_isSome (listLeafNames_subset t h))
  obtain ⟨s, rest, rfl, hs, hmem⟩ := findPath_some hpath
  obtain ⟨l, hl, hname⟩ := List.mem_map.mp h
  obtain ⟨hlt, htype⟩ := List.mem_filter.mp hl
  have heq := eq_of_name_eq hnd hlt (hmem s (by simp)) (hname.trans hs.symm)
  exact ⟨s, rest, hpath, by simpa [heq] using htype, hs⟩

end Node

section Check

variable {q : ℕ} {E : Type} [AddCommGroup E] [Module (ZMod q) E] [DecidableEq E]

/-- `pub_data.find(name)`, with `E_BADARG` for a missing key. -/
def lookupPub (pub : OrderedMap PName E) (name : PName) : Outcome E :=
  match pub.find name with
  | none => fail .badArg
  | some P => .ok P

/-- One turn of the loop: the public value of the node, checked. -/
def checkAncestor (q : ℕ) [Module (ZMod q) E] (pid : PName → ℕ)
    (pub : OrderedMap PName E) (expected : E) (node : Node) : Outcome E := do
  let mine ← lookupPub pub node.name
  match node.type with
  | .leaf | .or => require (decide (mine = expected)) .crypto
  | .and => do
    let sum ← node.sortedChildren.foldlM (fun sum c => do
      let P ← lookupPub pub c.name
      .ok (sum + P)) 0
    require (decide (sum = mine)) .crypto
  | .threshold => do
    let first := node.sortedChildren.take node.threshold.toNat
    let quorum ← first.mapM (fun c => lookupPub pub c.name)
    let quorumPids := first.map (fun c => (pid c.name : ℤ))
    let atZero ← lagrangeInterpolateExponent q 0 quorum quorumPids
    require (decide (mine = atZero)) .crypto
    forEach (fun c => do
      let P ← lookupPub pub c.name
      let R ← lagrangeInterpolateExponent q (pid c.name : ℤ) quorum quorumPids
      require (decide (P = R)) .crypto) (node.sortedChildren.drop node.threshold.toNat)
  | .none => fail .badArg
  .ok mine

/-- `ac_t::verify_share_against_ancestors_pub_data`. -/
def verifyShareAgainstAncestorsPubData (curve : Curve q E) (pid : PName → ℕ)
    (t : Node) (Q : E) (si : ℤ) (pub : OrderedMap PName E) (leaf : PName) : Outcome Unit :=
  match findPath leaf t with
  | none | some [] => fail .notFound
  | some (node :: parents) => do
    require (decide (node.type = .leaf)) .notFound
    let expected ← curve.mulToGenerator si
    let top ← (node :: parents).foldlM (checkAncestor q pid pub) expected
    require (decide (Q = top)) .crypto

/-- The point at a name, for a name that is there. -/
def pointAt {E : Type} [Zero E] (m : OrderedMap PName E) (name : PName) : E := (m.find name).getD 0

variable [hq : Fact q.Prime] {pid : PName → ℕ} {pub : OrderedMap PName E} {τ : PName → E}

omit [AddCommGroup E] [Module (ZMod q) E] [DecidableEq E] hq in
theorem lookupPub_eq {nm : PName} {P : E} (h : pub.find nm = some P) :
    lookupPub pub nm = .ok P := by
  rw [lookupPub, h]

omit [DecidableEq E] in
/-- Interpolation through the first `k` children is defined, whatever their points are. -/
theorem interpolateExponent_children {name : PName} {k : ℕ} {cs : List Node}
    (hk : 1 ≤ k) (hkn : k ≤ cs.length)
    (hpos : LocalPositions (pidPos q pid) (mk .threshold name k cs)) (f : Node → E) (x : ℤ) :
    lagrangeInterpolateExponent q x ((cs.take k).map f)
      ((cs.take k).map (fun c : Node => (pid c.name : ℤ))) =
      .ok ((cs.take k).map (fun c =>
        weight ((cs.take k).map (fun c => pidPos q pid c.name)) (pidPos q pid c.name)
        (x : ZMod q) • f c)).sum := by
  obtain ⟨hnd, hne⟩ := hpos rfl
  have hsub : (cs.take k).Sublist cs := List.take_sublist k cs
  have hnodes : ((cs.take k).map (fun c : Node => pidPos q pid c.name)).Nodup := by
    have hs := hnd.sublist ((hsub.map Node.name).map (pidPos q pid))
    simpa [Function.comp_def] using hs
  obtain ⟨hpp, hinj⟩ := pids_positive_injective (q := q)
    ((cs.take k).map (fun c : Node => pid c.name))
    (fun p hp => by
      obtain ⟨c, hc, rfl⟩ := List.mem_map.mp hp
      exact pid_ne_zero (hne c.name (List.mem_map_of_mem (hsub.subset hc))))
    (by simpa [pidPos, Function.comp_def] using hnodes)
  rw [List.map_map] at hpp hinj
  have h := lagrangePartialInterpolateExponent_eq (q := q) x
    ((cs.take k).map (fun c : Node => (pid c.name : ℤ)))
    hpp hinj ((cs.take k).map (fun c => ((pid c.name : ℤ), f c)))
    (fun p hp => by
      obtain ⟨c, hc, rfl⟩ := List.mem_map.mp hp
      exact List.mem_map_of_mem hc) (by simp)
        (by simp only [List.length_map, List.length_take]; omega)
  simp only [List.map_map, Function.comp_def] at h
  have hnodes' : nodesOf q ((cs.take k).map (fun c : Node => (pid c.name : ℤ))) =
      (cs.take k).map (fun c => pidPos q pid c.name) := by
    simp [nodesOf, pidPos, Function.comp_def]
  rw [lagrangeInterpolateExponent]
  simp only [List.length_map, decide_true, cbAssert_true, ok_bind, h, hnodes', pidPos,
    Int.cast_natCast]

omit [DecidableEq E] in
/-- Interpolation through the first `k` children yields the values of the node's polynomial. -/
theorem interpolate_eq_horner {name : PName} {k : ℕ} {cs : List Node}
    (hk : 1 ≤ k) (hkn : k ≤ cs.length)
    (hpos : LocalPositions (pidPos q pid) (mk .threshold name k cs)) {b : List E}
    (hb : b.length = k) (hbc : ∀ c ∈ cs, τ c.name = horner b (pidPos q pid c.name)) (x : ℤ) :
    lagrangeInterpolateExponent q x ((cs.take k).map (fun c => τ c.name))
      ((cs.take k).map (fun c : Node => (pid c.name : ℤ))) = .ok (horner b (x : ZMod q)) := by
  have hsub : (cs.take k).Sublist cs := List.take_sublist k cs
  have hlen : (cs.take k).length = k := by
    rw [List.length_take]
    omega
  have hnodes : ((cs.take k).map (fun c : Node => pidPos q pid c.name)).Nodup := by
    have hs := (hpos rfl).1.sublist ((hsub.map Node.name).map (pidPos q pid))
    simpa [Function.comp_def] using hs
  have hsum := sum_weight_smul_horner hnodes (x : ZMod q) (b := b)
    (by rw [List.length_map, hlen, hb])
  rw [List.map_map] at hsum
  rw [interpolateExponent_children hk hkn hpos, ← hsum]
  refine congrArg (fun l : List E => Except.ok l.sum) (List.map_congr_left fun c hc => ?_)
  rw [hbc c (hsub.subset hc)]
  rfl

omit [Module (ZMod q) E] [DecidableEq E] hq in
theorem lookupPub_bind {α : Type} (nm : PName) (f : E → Outcome α) : (lookupPub pub nm >>= f) =
    (require (pub.find nm).isSome .badArg >>= fun _ => f (pointAt pub nm)) := by
  cases h : pub.find nm <;> simp [lookupPub, pointAt, h, fail]

/-- All of the nodes have an entry. -/
def allPresent (pub : OrderedMap PName E) (l : List Node) : Outcome Unit :=
  forEach (fun c => require (pub.find c.name).isSome .badArg) l

omit [Module (ZMod q) E] [DecidableEq E] hq in
theorem mapM_lookupPub (l : List Node) : l.mapM (fun c => lookupPub pub c.name) =
    (allPresent pub l >>= fun _ => .ok (l.map (fun c => pointAt pub c.name))) := by
  induction l with
  | nil => rfl
  | cons c l ih =>
    have hcons : allPresent pub (c :: l) =
        (require (pub.find c.name).isSome .badArg >>= fun _ => allPresent pub l) := rfl
    rw [List.mapM_cons, ih, lookupPub_bind, hcons]
    cases hc : require (pub.find c.name).isSome .badArg with
    | error e => rfl
    | ok u =>
      cases hl : allPresent pub l with
      | error e => rfl
      | ok u => rfl

omit [Module (ZMod q) E] [DecidableEq E] hq in
theorem sum_lookupPub (l : List Node) : l.foldlM (fun sum c => do
      let P ← lookupPub pub c.name
      .ok (sum + P)) (0 : E) = (allPresent pub l >>= fun _ =>
          .ok (l.map (fun c => pointAt pub c.name)).sum) := by
  have h := foldlM_guarded (I := fun _ : E => True) (f := fun sum (c : Node) => do
      let P ← lookupPub pub c.name
      .ok (sum + P)) (t := fun c => require (pub.find c.name).isSome .badArg)
    (g := fun sum c => sum + pointAt pub c.name) (fun sum c _ =>
      ⟨lookupPub_bind _ _, trivial⟩) l (b := 0) trivial
  have hsum : ∀ (l : List Node) (acc : E), l.foldl (fun sum c => sum + pointAt pub c.name) acc =
      acc + (l.map (fun c => pointAt pub c.name)).sum := by
    intro l
    induction l with
    | nil => simp
    | cons c l ih =>
      intro acc
      rw [List.foldl_cons, ih, List.map_cons, List.sum_cons, add_assoc]
  rw [h, hsum, zero_add]
  rfl

section

omit [Module (ZMod q) E] [DecidableEq E] [AddCommGroup E] hq

theorem allPresent_ok {l : List Node} (h : ∀ c ∈ l, (pub.find c.name).isSome = true) :
    allPresent pub l = .ok () :=
  forEach_ok_iff.mpr fun c hc => by rw [h c hc, require_true]

theorem returns_allPresent (l : List Node) : Returns (allPresent pub l) :=
  returns_forEach fun _ _ => returns_require _ _

theorem length_sortedChildren (s : Node) : s.sortedChildren.length = s.children.length :=
  (List.perm_insertionSort (fun a b : Node => a.name ≤ b.name) s.children).length_eq

end

omit [AddCommGroup E] [Module (ZMod q) E] [DecidableEq E] in
theorem localPositions_sortedChildren {name : PName} {th : ℤ} {cs : List Node}
    (hpos : LocalPositions (pidPos q pid) (mk .threshold name th cs)) :
    LocalPositions (pidPos q pid)
      (mk .threshold name th (sortedChildren (mk .threshold name th cs))) := by
  intro _
  obtain ⟨hnd, hne⟩ := hpos rfl
  have hp := (List.perm_insertionSort (fun a b : Node => a.name ≤ b.name) cs).map Node.name
  exact ⟨((hp.map (pidPos q pid)).nodup_iff).mpr hnd, fun nm hnm => hne nm (hp.mem_iff.mp hnm)⟩

/-- The check of a node passes on the values of a sharing. -/
theorem checkAncestor_eq {s : Node} (hwf : LocalWf s) (hpos : LocalPositions (pidPos q pid) s)
    (hτ : LocalConsistent (pidPos q pid) τ s) (hname : pub.find s.name = some (τ s.name))
    (hch : ∀ c ∈ s.children, pub.find c.name = some (τ c.name)) {expected : E}
    (hexp : s.type = .leaf ∨ s.type = .or → expected = τ s.name) :
    checkAncestor q pid pub expected s = .ok (τ s.name) := by
  obtain ⟨type, name, th, cs⟩ := s
  have hperm := List.perm_insertionSort (fun a b : Node => a.name ≤ b.name) cs
  have hperm' : Permuted (mk type name th cs)
      (mk type name th (sortedChildren (mk type name th cs))) :=
    .children hperm.symm
  have hsorted : ∀ c ∈ sortedChildren (mk type name th cs),
      pub.find c.name = some (τ c.name) := fun c hc =>
    hch c (hperm.mem_iff.mp hc)
  have hpresent : allPresent pub (sortedChildren (mk type name th cs)) = .ok () :=
    allPresent_ok fun c hc => by simp [hsorted c hc]
  have hpoints : (sortedChildren (mk type name th cs)).map (fun c => pointAt pub c.name) =
      (sortedChildren (mk type name th cs)).map (fun c => τ c.name) :=
    List.map_congr_left fun c hc => by simp [pointAt, hsorted c hc]
  simp only [checkAncestor, lookupPub_eq hname, ok_bind]
  cases type with
  | none => exact absurd hwf (by simp [LocalWf])
  | leaf => simp [hexp (.inl rfl)]
  | or => simp [hexp (.inr rfl)]
  | and =>
    have hsum : ((sortedChildren (mk .and name th cs)).map (fun c => τ c.name)).sum = τ name := by
      have h : ((cs.map Node.name).map τ).sum = τ name := hτ
      rw [List.map_map] at h
      exact ((hperm.map (fun c : Node => τ c.name)).sum_eq).trans h
    simp only [type_mk, sum_lookupPub, hpresent, hpoints, hsum, ok_bind, name_mk, decide_true,
      require_true]
  | threshold =>
    obtain ⟨h1, hn⟩ : 1 ≤ th ∧ th ≤ cs.length := hwf
    obtain ⟨k, rfl⟩ := Int.eq_ofNat_of_zero_le (by omega : 0 ≤ th)
    obtain ⟨b, hb, hb0, hbc⟩ := hτ
    have hlen : (sortedChildren (mk .threshold name k cs)).length = cs.length := hperm.length_eq
    have hpos' := localPositions_sortedChildren hpos
    have hbc' : ∀ c ∈ sortedChildren (mk .threshold name k cs),
        τ c.name = horner b (pidPos q pid c.name) :=
      fun c hc => hbc c.name (List.mem_map_of_mem (hperm.mem_iff.mp hc))
    have hint := fun x => interpolate_eq_horner (by omega) (by omega) hpos'
      (by simpa using hb) hbc' x
    have hrest : forEach (fun c => do
          let P ← lookupPub pub c.name
          let R ← lagrangeInterpolateExponent q (pid c.name : ℤ)
            (((sortedChildren (mk .threshold name k cs)).take k).map (fun c => τ c.name))
            (((sortedChildren (mk .threshold name k cs)).take k).map (fun c => (pid c.name : ℤ)))
          require (decide (P = R)) .crypto) ((sortedChildren (mk .threshold name k cs)).drop k) =
              .ok () := by
      refine forEach_ok_iff.mpr fun c hc => ?_
      have hc := List.mem_of_mem_drop hc
      simp only [lookupPub_eq (hsorted c hc), ok_bind, hint, hbc' c hc, pidPos, Int.cast_natCast,
        decide_true, require_true]
    have hfirst : allPresent pub ((sortedChildren (mk .threshold name k cs)).take k) = .ok () :=
      allPresent_ok fun c hc => by simp [hsorted c (List.mem_of_mem_take hc)]
    have hmap : ((sortedChildren (mk .threshold name k cs)).take k).mapM
        (fun c => lookupPub pub c.name) =
        .ok (((sortedChildren (mk .threshold name k cs)).take k).map (fun c => τ c.name)) := by
      rw [mapM_lookupPub, hfirst, ok_bind, List.map_take, hpoints, ← List.map_take]
    have hzero : horner b (((0 : ℤ) : ZMod q)) = τ name := by
      rw [Int.cast_zero]
      exact hb0
    simp only [type_mk, threshold_mk, Int.toNat_natCast, hmap, ok_bind, hint 0, hzero, name_mk,
      decide_true, require_true, hrest]

/-- No points make the check of a node throw. -/
theorem returns_checkAncestor {s : Node} (hwf : LocalWf s)
    (hpos : LocalPositions (pidPos q pid) s) (expected : E) :
    Returns (checkAncestor q pid pub expected s) := by
  obtain ⟨type, name, th, cs⟩ := s
  rw [checkAncestor, lookupPub_bind, returns_bind_iff]
  refine ⟨returns_require _ _, fun _ _ => ?_⟩
  cases type with
  | none => exact absurd hwf (by simp [LocalWf])
  | leaf => exact returns_bind_iff.mpr ⟨returns_require _ _, fun _ _ => returns_ok _⟩
  | or => exact returns_bind_iff.mpr ⟨returns_require _ _, fun _ _ => returns_ok _⟩
  | and =>
    simp only [type_mk, sum_lookupPub, bind_assoc, ok_bind, returns_bind_iff]
    exact ⟨returns_allPresent _, fun _ _ => ⟨returns_require _ _, fun _ _ => returns_ok _⟩⟩
  | threshold =>
    obtain ⟨h1, hn⟩ : 1 ≤ th ∧ th ≤ cs.length := hwf
    obtain ⟨k, rfl⟩ := Int.eq_ofNat_of_zero_le (by omega : 0 ≤ th)
    have hint := fun x => interpolateExponent_children (by omega)
      (by rw [length_sortedChildren, children_mk]; omega) (localPositions_sortedChildren hpos)
      (fun c => pointAt pub c.name) x
    simp only [type_mk, threshold_mk, Int.toNat_natCast, mapM_lookupPub, bind_assoc, ok_bind, hint,
      lookupPub_bind, returns_bind_iff]
    refine ⟨returns_allPresent _, fun _ _ =>
      ⟨returns_require _ _, fun _ _ => ⟨?_, fun _ _ => returns_ok _⟩⟩⟩
    refine returns_forEach fun c _ => ?_
    exact returns_bind_iff.mpr ⟨returns_require _ _, fun _ _ => returns_require _ _⟩

/-- The walk from a node to the root passes on the values of a sharing. -/
theorem walk_eq {t : Node} (hwf : t.WellFormed) (hpos : Positions (pidPos q pid) t)
    (hτ : Consistent (pidPos q pid) τ t)
    (hpub : ∀ nm ∈ t.names, pub.find nm = some (τ nm)) {nm : PName} {path : List Node}
    (hpath : findPath nm t = some path) :
    path.foldlM (checkAncestor q pid pub) (τ nm) = .ok (τ t.name) := by
  induction t using Node.induction generalizing path with
  | h type name th cs ih =>
    obtain ⟨hlwf, hcwf⟩ := forall_mk.mp hwf
    obtain ⟨hlpos, hcpos⟩ := forall_mk.mp hpos
    obtain ⟨hlτ, hcτ⟩ := forall_mk.mp hτ
    have hname : pub.find name = some (τ name) := hpub name (by simp [names_mk])
    have hch : ∀ c ∈ cs, pub.find c.name = some (τ c.name) := fun c hc =>
      hpub c.name (names_child_subset hc (name_mem_names c))
    rw [findPath] at hpath
    split at hpath
    · rename_i he
      cases hpath
      have h : checkAncestor q pid pub (τ name) (mk type name th cs) = .ok (τ name) :=
        checkAncestor_eq hlwf hlpos hlτ hname hch (fun _ => rfl)
      rw [List.foldlM_cons, ← he, h]
      rfl
    · obtain ⟨p, hp, rfl⟩ := Option.map_eq_some_iff.mp hpath
      obtain ⟨c, hc, hpc⟩ := findPathList_some hp
      rw [List.foldlM_append, ih c hc (hcwf c hc) (hcpos c hc) (hcτ c hc)
        (fun nm hnm => hpub nm (names_child_subset hc hnm)) hpc, ok_bind, List.foldlM_cons,
        checkAncestor_eq hlwf hlpos hlτ hname hch]
      · rfl
      · rintro (ht | ht)
        · simp only [type_mk] at ht
          subst ht
          have hnil : cs = [] := List.length_eq_zero_iff.mp hlwf.2
          simp [hnil] at hc
        · simp only [type_mk] at ht
          subst ht
          exact hlτ c.name (List.mem_map_of_mem hc)

/-- The share of a party in a sharing passes against the sharing's public values. -/
theorem verifyShare_eq (curve : Curve q E) {t : Node} (hwf : t.WellFormed) (hnd : t.names.Nodup)
    (hpos : Positions (pidPos q pid) t) (hτ : Consistent (pidPos q pid) τ t)
    (hpub : ∀ nm ∈ t.names, pub.find nm = some (τ nm)) {leaf : PName}
    (hleaf : leaf ∈ t.listLeafNames) {si : ℤ} (hsi : curve.mulToGenerator si = .ok (τ leaf)) :
    verifyShareAgainstAncestorsPubData curve pid t (τ t.name) si pub leaf = .ok () := by
  obtain ⟨node, parents, hpath, htype, hname⟩ := findPath_leaf hnd hleaf
  have hwalk := walk_eq hwf hpos hτ hpub hpath
  rw [verifyShareAgainstAncestorsPubData, hpath]
  simp only [htype, decide_true, require_true, ok_bind, hsi, hwalk]

/-- The check throws when the multiplication of the share does, and on nothing else. -/
theorem returns_verifyShare_iff (curve : Curve q E) {t : Node}
    (hwf : t.WellFormed) (hnd : t.names.Nodup) (hpos : Positions (pidPos q pid) t) {leaf : PName}
    (hleaf : leaf ∈ t.listLeafNames) (Q : E) (si : ℤ) :
    Returns (verifyShareAgainstAncestorsPubData curve pid t Q si pub leaf) ↔
    Returns (curve.mulToGenerator si) := by
  obtain ⟨node, parents, hpath, htype, -⟩ := findPath_leaf hnd hleaf
  obtain ⟨-, -, -, -, hmem⟩ := findPath_some hpath
  rw [verifyShareAgainstAncestorsPubData, hpath]
  simp only [htype, decide_true, require_true, ok_bind]
  rw [returns_bind_iff]
  refine and_iff_left fun X _ => returns_bind_iff.mpr ⟨?_, fun _ _ => returns_require _ _⟩
  exact returns_foldlM (fun P s hs =>
    returns_checkAncestor (hwf s (hmem s hs)) (hpos s (hmem s hs)) P) X

/-- What the check of a node establishes about the map. -/
theorem checkAncestor_sound {s : Node} (hwf : LocalWf s)
    (hpos : LocalPositions (pidPos q pid) s) {expected P : E}
    (h : checkAncestor q pid pub expected s = .ok P) :
    P = pointAt pub s.name ∧ (s.type = .leaf ∨ s.type = .or → expected = P) ∧
      (s.type ≠ .or → LocalConsistent (pidPos q pid) (pointAt pub) s) := by
  obtain ⟨type, name, th, cs⟩ := s
  have hperm := List.perm_insertionSort (fun a b : Node => a.name ≤ b.name) cs
  rw [checkAncestor, lookupPub_bind] at h
  obtain ⟨-, h⟩ := require_bind_ok_iff.mp h
  cases type with
  | none => exact absurd hwf (by simp [LocalWf])
  | leaf =>
    obtain ⟨hexp, hP⟩ := require_bind_ok_iff.mp h
    cases hP
    exact ⟨rfl, fun _ => (of_decide_eq_true hexp).symm, fun _ => trivial⟩
  | or =>
    obtain ⟨hexp, hP⟩ := require_bind_ok_iff.mp h
    cases hP
    exact ⟨rfl, fun _ => (of_decide_eq_true hexp).symm, fun hne => absurd rfl hne⟩
  | and =>
    simp only [type_mk, sum_lookupPub, bind_assoc, ok_bind] at h
    obtain ⟨-, -, h⟩ := bind_ok_iff.mp h
    obtain ⟨hsum, hP⟩ := require_bind_ok_iff.mp h
    cases hP
    refine ⟨rfl, by simp, fun _ => ?_⟩
    have hsum' : ((sortedChildren (mk .and name th cs)).map (fun c => pointAt pub c.name)).sum =
        pointAt pub name :=
      of_decide_eq_true hsum
    have hlist : ((cs.map Node.name).map (pointAt pub)).sum = pointAt pub name := by
      rw [List.map_map, ← hsum']
      exact ((hperm.map (fun c : Node => pointAt pub c.name)).sum_eq).symm
    exact hlist
  | threshold =>
    obtain ⟨h1, hn⟩ : 1 ≤ th ∧ th ≤ cs.length := hwf
    obtain ⟨k, rfl⟩ := Int.eq_ofNat_of_zero_le (by omega : 0 ≤ th)
    have hlen : (sortedChildren (mk .threshold name k cs)).length = cs.length := hperm.length_eq
    have hpos' := localPositions_sortedChildren hpos
    have hsub := List.take_sublist k (sortedChildren (mk .threshold name k cs))
    have hnodes : (((sortedChildren (mk .threshold name k cs)).take k).map
        (fun c : Node => pidPos q pid c.name)).Nodup := by
      have hs := (hpos' rfl).1.sublist ((hsub.map Node.name).map (pidPos q pid))
      simpa [Function.comp_def] using hs
    -- the polynomial through the first children
    obtain ⟨b, hb, hbfirst, hbx⟩ := exists_horner_through hnodes (fun c => pointAt pub c.name)
    have hint := fun x => interpolateExponent_children (by omega) (by omega) hpos'
      (fun c => pointAt pub c.name) x
    simp only [type_mk, threshold_mk, Int.toNat_natCast, mapM_lookupPub, bind_assoc, ok_bind,
      hint, ← hbx, lookupPub_bind] at h
    obtain ⟨-, -, h⟩ := bind_ok_iff.mp h
    obtain ⟨hzero, h⟩ := require_bind_ok_iff.mp h
    obtain ⟨u, hrest, hP⟩ := bind_ok_iff.mp h
    cases hP
    have hrest' : ∀ c ∈ (sortedChildren (mk .threshold name k cs)).drop k,
        pointAt pub c.name = horner b (pidPos q pid c.name) := by
      intro c hc
      have hcheck := forEach_ok_iff.mp hrest c hc
      obtain ⟨-, hval⟩ := require_bind_ok_iff.mp hcheck
      have hval := of_decide_eq_true ((require_ok_iff _ _).mp hval)
      rw [hval, pidPos, Int.cast_natCast]
    refine ⟨rfl, by simp, fun _ => ⟨b, ?_, ?_, fun nm hnm => ?_⟩⟩
    · rw [hb, List.length_take, threshold_mk, Int.toNat_natCast]
      omega
    · have hz := of_decide_eq_true hzero
      rw [Int.cast_zero] at hz
      exact hz.symm
    · obtain ⟨c, hc, rfl⟩ := List.mem_map.mp hnm
      have hmem : c ∈ sortedChildren (mk .threshold name k cs) := hperm.mem_iff.mpr hc
      rw [← List.take_append_drop k (sortedChildren (mk .threshold name k cs)),
        List.mem_append] at hmem
      rcases hmem with hmem | hmem
      · exact (hbfirst c hmem).symm
      · exact hrest' c hmem

/-- What the walk from a leaf establishes at the nodes above it. -/
theorem walk_sound {t : Node} (hwf : t.WellFormed) (hnd : t.names.Nodup)
    (hpos : Positions (pidPos q pid) t) {nm : PName} {path : List Node}
    (hpath : findPath nm t = some path) {expected top : E}
    (h : path.foldlM (checkAncestor q pid pub) expected = .ok top) :
    top = pointAt pub t.name ∧
      ∀ s ∈ t.subtrees, nm ∈ s.names → PathConsistent (pidPos q pid) (pointAt pub) nm s := by
  induction t using Node.induction generalizing path top with
  | h type name th cs ih =>
    obtain ⟨hlwf, hcwf⟩ := forall_mk.mp hwf
    obtain ⟨hlpos, hcpos⟩ := forall_mk.mp hpos
    rw [findPath] at hpath
    split at hpath
    · rename_i he
      cases hpath
      rw [List.foldlM_cons] at h
      obtain ⟨P, hcheck, hP⟩ := bind_ok_iff.mp h
      cases hP
      obtain ⟨hval, -, hcons⟩ := checkAncestor_sound hlwf hlpos hcheck
      refine ⟨hval, fun s hs hnm => ?_⟩
      rcases mem_subtrees_mk.mp hs with rfl | ⟨c, hc, hsc⟩
      · rw [PathConsistent]
        split
        · intro c hc hnmc
          exact absurd (he ▸ hnmc) (name_not_mem_child hnd c hc)
        · rename_i hne
          exact hcons hne
      · exact absurd (he ▸ names_subtree_subset hsc hnm) (name_not_mem_child hnd c hc)
    · obtain ⟨p, hp, rfl⟩ := Option.map_eq_some_iff.mp hpath
      obtain ⟨c, hc, hpc⟩ := findPathList_some hp
      have hnmc : nm ∈ c.names := by
        obtain ⟨s, rest, rfl, hs, hmem⟩ := findPath_some hpc
        exact hs ▸ name_mem_of_mem_subtrees (hmem s (by simp))
      have huniq : ∀ d ∈ cs, nm ∈ d.names → d = c := fun d hd hnmd =>
        child_unique hnd hd hc hnmd hnmc
      rw [List.foldlM_append] at h
      obtain ⟨topc, hwalk, h⟩ := bind_ok_iff.mp h
      obtain ⟨hvalc, hrules⟩ := ih c hc (hcwf c hc) (nodup_child hnd c hc) (hcpos c hc) hpc hwalk
      rw [List.foldlM_cons] at h
      obtain ⟨P, hcheck, hP⟩ := bind_ok_iff.mp h
      cases hP
      obtain ⟨hval, hexp, hcons⟩ := checkAncestor_sound hlwf hlpos hcheck
      refine ⟨hval, fun s hs hnm => ?_⟩
      rcases mem_subtrees_mk.mp hs with rfl | ⟨d, hd, hsd⟩
      · rw [PathConsistent]
        split
        · rename_i hor
          intro d hd hnmd
          rw [huniq d hd hnmd, ← hvalc, hexp (.inr hor), hval]
        · rename_i hne
          exact hcons hne
      · have hdc := huniq d hd (names_subtree_subset hsd hnm)
        subst hdc
        exact hrules s hsd hnm

/-- A share that passes is the map's value at the leaf, and the map is consistent above it. -/
theorem verifyShare_sound {curve : Curve q E} {t : Node} (hwf : t.WellFormed) (hnd : t.names.Nodup)
    (hpos : Positions (pidPos q pid) t) {leaf : PName}
    (hleaf : leaf ∈ t.listLeafNames) {Q : E} {si : ℤ}
    (h : verifyShareAgainstAncestorsPubData curve pid t Q si pub leaf = .ok ()) :
    (si : ZMod q) • curve.generator = pointAt pub leaf ∧ Q = pointAt pub t.name ∧
      ∀ s ∈ t.subtrees, leaf ∈ s.names → PathConsistent (pidPos q pid) (pointAt pub) leaf s := by
  obtain ⟨node, parents, hpath, htype, hname⟩ := findPath_leaf hnd hleaf
  obtain ⟨-, -, he, -, hmem⟩ := findPath_some hpath
  rw [verifyShareAgainstAncestorsPubData, hpath] at h
  simp only [htype, decide_true, require_true, ok_bind] at h
  obtain ⟨X, hX, h⟩ := bind_ok_iff.mp h
  obtain ⟨top, hwalk, h⟩ := bind_ok_iff.mp h
  obtain ⟨htop, hrules⟩ := walk_sound hwf hnd hpos hpath hwalk
  refine ⟨?_, (of_decide_eq_true ((require_ok_iff _ _).mp h)).trans htop, hrules⟩
  rw [List.foldlM_cons] at hwalk
  obtain ⟨P, hcheck, -⟩ := bind_ok_iff.mp hwalk
  obtain ⟨hP, hexp, -⟩ := checkAncestor_sound (hwf node (hmem node (by simp)))
    (hpos node (hmem node (by simp))) hcheck
  rw [← mulToGenerator_ok curve hX, hexp (.inl htype), hP, hname]

end Check

end CbMpc
