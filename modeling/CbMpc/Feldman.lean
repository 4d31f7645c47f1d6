import CbMpc.AdditiveShare
import CbMpc.AncestorCheck

/-!
# Reconstruction and verification in the exponent

Reconstruction chooses its children by which shares are there and not by their values, so
the scalars and the points of one map are combined with the same weights, whether they are
a sharing or not. Shares that pass against one map of public values are a sharing.
-/
namespace CbMpc

open Interpolation Node

section Combine

variable {q : ℕ} {M α : Type} [AddCommGroup M] [Module (ZMod q) M] [hq : Fact q.Prime]

theorem firstSuccess_find (l : List Node) (p : Node → Bool) (f : Node → α) :
    firstSuccess (l.map (fun c => quorumResult (p c) (f c))) =
      match l.find? p with
      | none => fail .insufficient
      | some c => .ok (f c) := by
  induction l with
  | nil => rfl
  | cons c l ih =>
    by_cases hc : p c
    · simp [firstSuccess, quorumResult, hc]
    · simp only [List.map_cons, List.find?_cons, hc, quorumResult, Bool.false_eq_true, if_false,
        fail, firstSuccess, if_true]
      exact ih

/-- Interpolation at `0` through any values of the chosen children. -/
theorem interpolate_values {ops : ValueOps α} {embed : M → α}
    (hops : ops.Sound (q := q) embed) (pid : PName → ℕ) {name : PName} {k : ℕ}
    {cs l : List Node} (hk : 1 ≤ k) (hpos : LocalPositions (pidPos q pid) (mk .threshold name k cs))
    (hsub : l.Sublist cs) (hlen : l.length = k) (f : Node → M) :
    ops.interpolate (l.map (fun c => embed (f c))) (l.map (fun c => (pid c.name : ℤ))) =
      .ok (embed (l.map (fun c =>
        weight (l.map (fun c => (pid c.name : ZMod q))) (pid c.name : ZMod q) 0 • f c)).sum) := by
  obtain ⟨hnd, hne⟩ := hpos rfl
  have hnodes : (l.map (fun c => (pid c.name : ZMod q))).Nodup := by
    have hsub' := (hsub.map Node.name).map (pidPos q pid)
    simpa [pidPos, Function.comp_def] using hnd.sublist hsub'
  have h := hops.interpolate_eq (l.map (fun c => (pid c.name, f c))) (by simp; omega)
    (fun p hp => by
      obtain ⟨c, hc, rfl⟩ := List.mem_map.mp hp
      exact pid_ne_zero (hne c.name (List.mem_map_of_mem (hsub.subset hc))))
    (by simpa [Function.comp_def] using hnodes)
  simpa only [List.map_map, Function.comp_def] using h

/-- The values at the leaves of a set are combined to one value at the root, however they
are represented. -/
theorem exists_combined (pid : PName → ℕ) (S : Finset PName) (σ : PName → M)
    {t : Node} (hwf : t.WellFormed) (hpos : Positions (pidPos q pid) t) :
    ∃ v : M, ∀ {α : Type} {ops : ValueOps α} {embed : M → α},
      ops.Sound (q := q) embed → ∀ shares : OrderedMap PName α,
      (∀ nm ∈ t.listLeafNames, shares.find nm = if nm ∈ S then some (embed (σ nm)) else none) →
      t.fold (reconstructNode ops pid shares) = quorumResult (t.enoughForQuorum S) (embed v) := by
  induction t, hwf using WellFormed.induction with
  | leaf name h =>
    refine ⟨σ name, fun _ shares hshares => ?_⟩
    rw [fold_mk, reconstructNode, hshares name (by simp [listLeafNames_mk])]
    by_cases h : name ∈ S <;> simp [h, quorumResult]
  | or name cs h hne ih =>
    choose! f hf using fun c hc => (ih c hc).2 ((forall_mk.mp hpos).2 c hc)
    refine ⟨((cs.find? (enoughForQuorum S)).map f).getD 0,
      fun {α ops embed} hops shares hshares => ?_⟩
    have hc := fun c hc => hf c hc hops shares fun nm hnm =>
      hshares nm (listLeafNames_child_subset hc hnm)
    rw [fold_mk, reconstructNode, List.map_map, enoughForQuorum_or]
    refine (congrArg firstSuccess (List.map_congr_left hc)).trans
      ((firstSuccess_find _ _ _).trans ?_)
    cases hfind : cs.find? (enoughForQuorum S) with
    | none =>
      have hany : cs.any (enoughForQuorum S) = false := by simpa using List.find?_eq_none.mp hfind
      simp [quorumResult, hany]
    | some c =>
      have hany : cs.any (enoughForQuorum S) = true :=
        List.any_eq_true.mpr ⟨c, List.mem_of_find?_eq_some hfind, List.find?_some hfind⟩
      simp [quorumResult, hany]
  | and name cs h hne ih =>
    choose! f hf using fun c hc => (ih c hc).2 ((forall_mk.mp hpos).2 c hc)
    refine ⟨(cs.map f).sum, fun {α ops embed} hops shares hshares => ?_⟩
    have hc := fun c hc => hf c hc hops shares fun nm hnm =>
      hshares nm (listLeafNames_child_subset hc hnm)
    rw [fold_mk, reconstructNode, hops.zero_eq, foldlM_children hops hc,
      enoughForQuorum_and, zero_add]
  | threshold name k cs h hk hkn ih =>
    choose! f hf using fun c hc => (ih c hc).2 ((forall_mk.mp hpos).2 c hc)
    generalize hl : (cs.filter (enoughForQuorum S)).take k = l
    refine ⟨(l.map (fun c => weight (l.map (fun c => (pid c.name : ZMod q)))
      (pid c.name : ZMod q) 0 • f c)).sum,
      fun {α ops embed} hops shares hshares => ?_⟩
    have hc := fun c hc => hf c hc hops shares fun nm hnm =>
      hshares nm (listLeafNames_child_subset hc hnm)
    have hmap : cs.map (fun c => (c.name, c.fold (reconstructNode ops pid shares))) =
        cs.map (fun c => (c.name, quorumResult (c.enoughForQuorum S) (embed (f c)))) :=
      List.map_congr_left fun c h => by rw [hc c h]
    have hlen : l.length = min k (cs.countP (enoughForQuorum S)) := by
      rw [← hl, List.length_take, List.countP_eq_length_filter]
    rw [fold_mk, reconstructNode, hmap,
      collect_eq k cs _ (fun c => embed (f c)) [] (by simp; omega), ok_bind,
      enoughForQuorum_threshold name hk]
    simp only [List.length_nil, Nat.sub_zero, List.nil_append, List.length_map, hl, hlen]
    by_cases hen : k ≤ cs.countP (enoughForQuorum S)
    · have hsub : l.Sublist cs := hl ▸ (List.take_sublist _ _).trans List.filter_sublist
      have hint := interpolate_values hops pid hk (forall_mk.mp hpos).1 hsub (by omega) f
      rw [if_neg (by omega), List.map_map, List.map_map]
      simpa [quorumResult, hen, Function.comp_def] using hint
    · rw [if_pos (by omega)]
      simp [quorumResult, hen]

end Combine

section Image

variable {q : ℕ} [hq : Fact q.Prime] {E : Type} [AddCommGroup E] [Module (ZMod q) E]

/-- Points compute as the scalars that they are multiples by. -/
theorem pointOps_sound_smul (P : E) : (pointOps q).Sound (q := q) (fun z : ZMod q => z • P) where
  zero_eq := (zero_smul _ _).symm
  add_eq a b := by rw [add_smul]; rfl
  interpolate_eq pts hlen hne hnd := by
    have h := (pointOps_sound (q := q) (M := E)).interpolate_eq
      (pts.map (fun p => (p.1, p.2 • P))) (by simpa using hlen)
      (fun p hp => by
        obtain ⟨a, ha, rfl⟩ := List.mem_map.mp hp
        exact hne a ha) (by simpa [Function.comp_def] using hnd)
    simp only [List.map_map, Function.comp_def, id] at h
    rw [h, List.sum_smul, List.map_map]
    simp [Function.comp_def, smul_smul]

/-- `reconstruct_exponent` with the check of its shares, which lets infinity pass. -/
def reconstructExponentChecked [DecidableEq E] (q : ℕ) [Module (ZMod q) E]
    (pid : PName → ℕ) (t : Node) (shares : OrderedMap PName (WirePoint E)) : Outcome E := do
  forEach (fun share => curveCheck true share >>= fun _ => .ok ()) shares.values
  reconstructExponent q pid t (shares.mapValues WirePoint.point)

/-- The checked reconstruction is the plain one, once it succeeds. -/
theorem reconstructExponentChecked_ok [DecidableEq E] {q : ℕ} [Module (ZMod q) E] {pid : PName → ℕ}
    {ac : Node} {shares : OrderedMap PName (WirePoint E)} {P : E}
    (h : reconstructExponentChecked q pid ac shares = .ok P) :
    reconstructExponent q pid ac (shares.mapValues WirePoint.point) = .ok P := by
  obtain ⟨u, -, h⟩ := bind_ok_iff.mp h
  exact h

theorem reconstructExponentChecked_of_on [DecidableEq E] {q : ℕ} [Module (ZMod q) E]
    {pid : PName → ℕ} {ac : Node} {shares : OrderedMap PName (WirePoint E)}
    (h : ∀ nm P, shares.find nm = some P → ∃ R, P = .on R) :
    reconstructExponentChecked q pid ac shares =
      reconstructExponent q pid ac (shares.mapValues WirePoint.point) := by
  have hcheck : forEach (fun share => curveCheck true share >>= fun _ => .ok ()) shares.values =
      .ok () := by
    refine forEach_ok_iff.mpr fun P hP => ?_
    obtain ⟨nm, hnm⟩ := (OrderedMap.mem_values_iff _ _).mp hP
    obtain ⟨R, rfl⟩ := h nm P hnm
    simp [curveCheck]
  rw [reconstructExponentChecked, hcheck, ok_bind]

/-- Both reconstructions of one map of scalars succeed on the same sets of names, and with
the same result. -/
theorem reconstructExponent_image [DecidableEq E] (curve : Curve q E) (pid : PName → ℕ) {t : Node}
    (hvalid : t.validateTree = .ok ()) (hpos : Positions (pidPos q pid) t)
    (s : OrderedMap PName (ZMod q)) :
    ∃ x : ZMod q, reconstruct q pid t (s.mapValues residue) =
        quorumResult (t.enoughForQuorum s.keys.toFinset) (residue x) ∧
      reconstructExponentChecked q pid t (s.mapValues fun z => .on (z • curve.generator)) =
        quorumResult (t.enoughForQuorum s.keys.toFinset) (x • curve.generator) := by
  obtain ⟨hwf, -⟩ := validateTree_ok hvalid
  obtain ⟨x, hx⟩ := exists_combined pid s.keys.toFinset (fun nm => (s.find nm).getD 0) hwf hpos
  have hfind : ∀ {α : Type} (f : ZMod q → α) (nm : PName), (s.mapValues f).find nm =
      if nm ∈ s.keys.toFinset then some (f ((s.find nm).getD 0)) else none := by
    intro α f nm
    simp only [OrderedMap.find_mapValues, List.mem_toFinset, OrderedMap.mem_keys_iff]
    cases s.find nm <;> simp
  refine ⟨x, hx scalarOps_sound _ fun nm _ => hfind residue nm, ?_⟩
  have hon : ∀ nm P, (s.mapValues fun z => (.on (z • curve.generator) : WirePoint E)).find nm =
      some P → ∃ R, P = .on R := by
    intro nm P h
    rw [OrderedMap.find_mapValues] at h
    obtain ⟨z, -, rfl⟩ := Option.map_eq_some_iff.mp h
    exact ⟨_, rfl⟩
  have hpoints : (s.mapValues fun z =>
      (.on (z • curve.generator) : WirePoint E)).mapValues WirePoint.point =
      s.mapValues fun z => z • curve.generator := by
    refine OrderedMap.ext_find fun nm => ?_
    simp only [OrderedMap.find_mapValues, Option.map_map]
    rfl
  rw [reconstructExponentChecked_of_on hon, hpoints]
  exact hx (pointOps_sound_smul curve.generator) _ fun nm _ => hfind _ nm

/-- Shares that are no sharing: the first two satisfied children of the root decide. -/
theorem reconstructExponent_image_sample : ∃ x : ZMod 1009,
    reconstruct 1009 samplePid sampleTree
      ((OrderedMap.ofKeys (fun nm => (samplePid nm : ZMod 1009)) [[97], [102], [103]]).mapValues
        residue) =
        .ok (residue x) ∧
    reconstructExponentChecked 1009 samplePid sampleTree
      ((OrderedMap.ofKeys (fun nm => (samplePid nm : ZMod 1009)) [[97], [102], [103]]).mapValues
        fun z => .on (z • sampleCurve.generator)) = .ok (x • sampleCurve.generator) := by
  obtain ⟨x, hx, hX⟩ := reconstructExponent_image sampleCurve samplePid
    (t := sampleTree) (by decide)
    (by decide) (OrderedMap.ofKeys (fun nm => (samplePid nm : ZMod 1009)) [[97], [102], [103]])
  have henough : sampleTree.enoughForQuorum
      (OrderedMap.ofKeys (fun nm => (samplePid nm : ZMod 1009))
        [[97], [102], [103]]).keys.toFinset = true := by decide
  rw [henough] at hx hX
  exact ⟨x, hx, hX⟩

end Image

section Verified

variable {q : ℕ} [hq : Fact q.Prime] {E : Type} [AddCommGroup E] [Module (ZMod q) E] [DecidableEq E]
  {pid : PName → ℕ} {pub : OrderedMap PName E}

theorem exists_leaf {t : Node} (hwf : t.WellFormed) : ∃ nm, nm ∈ t.listLeafNames := by
  by_contra hnone
  have hall : t.enoughForQuorum ∅ = true :=
    enoughForQuorum_of_leaves hwf fun nm hnm => absurd ⟨nm, hnm⟩ hnone
  rw [enoughForQuorum_empty hwf] at hall
  exact absurd hall (by decide)

/-- When the checks of all leaves pass, the map is a sharing of the key. -/
theorem consistent_of_verified {curve : Curve q E} {t : Node}
    (hwf : t.WellFormed) (hnd : t.names.Nodup)
    (hpos : Positions (pidPos q pid) t) {Q : E} {s : PName → ℤ}
    (h : ∀ leaf ∈ t.listLeafNames,
      verifyShareAgainstAncestorsPubData curve pid t Q (s leaf) pub leaf = .ok ()) :
    Consistent (pidPos q pid) (pointAt pub) t ∧ Q = pointAt pub t.name ∧
      ∀ leaf ∈ t.listLeafNames, (s leaf : ZMod q) • curve.generator = pointAt pub leaf := by
  have hsound := fun leaf hleaf => verifyShare_sound hwf hnd hpos hleaf (h leaf hleaf)
  obtain ⟨leaf, hleaf⟩ := exists_leaf hwf
  refine ⟨fun u hu => ?_, (hsound leaf hleaf).2.1, fun leaf hleaf => (hsound leaf hleaf).1⟩
  have hpath : ∀ c ∈ u.subtrees, ∃ leaf ∈ c.listLeafNames,
      PathConsistent (pidPos q pid) (pointAt pub) leaf u := by
    intro c hc
    obtain ⟨leaf, hleaf⟩ := exists_leaf ((hwf.subtree hu).subtree hc)
    have hleaf' := listLeafNames_subtree_subset hc hleaf
    exact ⟨leaf, hleaf, (hsound leaf (listLeafNames_subtree_subset hu hleaf')).2.2 u hu
      (listLeafNames_subset u hleaf')⟩
  by_cases hor : u.type = .or
  · -- below an OR node every child has a leaf of its own, whose path goes through the child
    obtain ⟨type, name, th, cs⟩ := u
    simp only [type_mk] at hor
    subst hor
    intro nm hnm
    obtain ⟨c, hc, rfl⟩ := List.mem_map.mp hnm
    obtain ⟨leaf, hleaf, hrule⟩ := hpath c (mem_subtrees_mk.mpr (.inr ⟨c, hc, self_mem_subtrees c⟩))
    exact hrule.of_or rfl c hc (listLeafNames_subset c hleaf)
  · obtain ⟨leaf, -, hrule⟩ := hpath u (self_mem_subtrees u)
    exact hrule.of_ne_or hor

/-- Shares below the order that pass at every leaf reconstruct the discrete logarithm of the key
from every quorum, and what `share_with_internals` hands out passes. -/
theorem feldman (curve : Curve q E) {t : Node} (hvalid : t.validateTree = .ok ())
    (hpos : Positions (pidPos q pid) t) (hrange : PidsInRange q pid t) :
    (∀ (Q : E) (pub : OrderedMap PName E) (s : PName → ℤ),
      (∀ leaf ∈ t.listLeafNames, isInRange q (s leaf) = true ∧
        verifyShareAgainstAncestorsPubData curve pid t Q (s leaf) pub leaf = .ok ()) →
      ∀ S : Finset PName, t.enoughForQuorum S = true → ∀ shares : OrderedMap PName ℤ,
        (∀ nm ∈ t.listLeafNames, shares.find nm = if nm ∈ S then some (s nm) else none) →
        ∃ x, reconstruct q pid t shares = .ok x ∧ curve.mulToGenerator x = .ok Q) ∧
    ∀ (x : ℤ) (rand : Rand q), isInRange q x = true →
      ∃ st Q, shareWithInternals pid curve t x rand = .ok st ∧ curve.mulToGenerator x = .ok Q ∧
        ∀ leaf ∈ t.listLeafNames, ∃ si, st.acShares.find leaf = some si ∧
          verifyShareAgainstAncestorsPubData curve pid t Q si st.acInternalPubShares leaf =
            .ok () := by
  obtain ⟨hwf, hnd, -⟩ := validateTree_ok hvalid
  constructor
  · intro Q pub s hs S hS shares hshares
    obtain ⟨hcons, hQ, hleaf⟩ := consistent_of_verified hwf hnd hpos fun leaf hl => (hs leaf hl).2
    obtain ⟨x, hx⟩ := exists_combined (q := q) pid S (fun nm => (s nm : ZMod q)) hwf hpos
    have hscalar := hx scalarOps_sound shares fun nm hnm => by
      rw [hshares nm hnm, ← eq_residue_of_isInRange (hs nm hnm).1]
    have hfind : ∀ (f : PName → E), ∀ nm ∈ t.listLeafNames,
        (OrderedMap.ofKeys f (t.listLeafNames.filter (· ∈ S))).find nm = if nm ∈ S then
          some (f nm) else none := by
      intro f nm hnm
      simp [hnm]
    have hpoint := hx (pointOps_sound_smul curve.generator) _ (hfind _)
    have hroot := reconstructNode_eq pointOps_sound pid S
      (OrderedMap.ofKeys (fun nm => (s nm : ZMod q) • curve.generator)
        (t.listLeafNames.filter (· ∈ S))) (pointAt pub)
      hwf hpos hcons fun nm hnm => by rw [hfind _ nm hnm, hleaf nm hnm]; rfl
    rw [hpoint, hS] at hroot
    refine ⟨residue x, by rw [reconstruct, hscalar, hS]; rfl, ?_⟩
    rw [mulToGenerator_residue, hQ]
    exact hroot
  · intro x rand hx
    obtain ⟨draws, rest, τ, hrand, hdealt, hroot, hcons⟩ :=
      exists_dealt pid (some curve) hwf hnd hpos hrange (x : ZMod q) rand
    have hst := hdealt.shareWithInternals_eq rest
    rw [← hrand, ← eq_residue_of_isInRange hx] at hst
    refine ⟨_, _, hst, mulToGenerator_of_isInRange curve hx, fun leaf hleaf =>
      ⟨residue (τ leaf), ?_, ?_⟩⟩
    · simp [internalsOf, hleaf]
    · have hpub : ∀ nm ∈ t.names, (internalsOf curve τ t rest).acInternalPubShares.find nm =
          some (LinearMap.toSpanSingleton (ZMod q) E curve.generator (τ nm)) :=
            fun nm hnm => by simp [internalsOf, hnm]
      have hverify := verifyShare_eq curve hwf hnd hpos
        (hcons.map (LinearMap.toSpanSingleton (ZMod q) E curve.generator))
        hpub hleaf (mulToGenerator_residue curve (τ leaf))
      simpa [hroot] using hverify

/-- A sharing of 5 along the sample tree, and the quorum of its leaves `a` and `f`. -/
theorem feldman_sample :
    (∃ x, reconstruct 1009 samplePid sampleTree
        (OrderedMap.ofKeys (fun nm => residue (sampleLabel nm)) [[97], [102]]) = .ok x ∧
      sampleCurve.mulToGenerator x = .ok 5) ∧
    ∃ st Q, shareWithInternals samplePid sampleCurve sampleTree 5 (Stream'.const 3) = .ok st ∧
      sampleCurve.mulToGenerator 5 = .ok Q ∧ ∀ leaf ∈ sampleTree.listLeafNames, ∃ si,
        st.acShares.find leaf = some si ∧
        verifyShareAgainstAncestorsPubData sampleCurve samplePid sampleTree Q si
          st.acInternalPubShares leaf = .ok () := by
  obtain ⟨hsound, hcomplete⟩ :=
    @feldman 1009 _ (ZMod 1009) _ _ _ samplePid sampleCurve sampleTree
      (by decide) (by decide) (by decide)
  refine ⟨hsound 5 (OrderedMap.ofKeys sampleLabel sampleTree.names) (fun nm =>
    residue (sampleLabel nm)) (by decide +kernel)
    {[97], [102]} (by decide) _ (by decide), hcomplete 5 (Stream'.const 3) (by decide)⟩

/-- Both leaves of an AND. -/
def pairTree : Node := mk .and [] 0 [mk .leaf [97] 0 [], mk .leaf [98] 0 []]

/-- A share that is not reduced passes, since only its multiple of the generator is looked at;
reconstruction then stops at the assertion on its operands. -/
theorem feldman_unreduced : pairTree.validateTree = .ok () ∧
    verifyShareAgainstAncestorsPubData sampleCurve samplePid pairTree 12 1014
      (OrderedMap.ofKeys (fun nm => if nm = [97] then 5 else if nm = [98] then 7 else 12)
        pairTree.names) [97] = .ok () ∧
    verifyShareAgainstAncestorsPubData sampleCurve samplePid pairTree 12 7
      (OrderedMap.ofKeys (fun nm => if nm = [97] then 5 else if nm = [98] then 7 else 12)
        pairTree.names) [98] = .ok () ∧
    pairTree.enoughForQuorum {[97], [98]} = true ∧
    reconstruct 1009 samplePid pairTree
      (OrderedMap.ofKeys (fun nm => if nm = [97] then 1014 else 7) [[97], [98]]) =
      throwing .assertionFailed := by
  decide

end Verified

end CbMpc
