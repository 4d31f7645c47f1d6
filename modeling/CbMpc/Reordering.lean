import CbMpc.AccessStructure
import CbMpc.AdditiveShare

/-!
# Public structures with their children in another order

The inner nodes of the built tree are named in the order in which the caller
lists them, and the evaluation point of a child of a THRESHOLD node is the pid of
its name. A reordered structure therefore describes the same quorums, but fits a
key shared along the first one only as far as these points stay where they were.
-/
namespace CbMpc

open Interpolation Node

namespace Node

/-- Below a reordered tree lie reorderings of what lies below the first. -/
theorem Permuted.exists_subtree {t t' : Node} (h : Permuted t t') {u' : Node}
    (hu : u' ∈ t'.subtrees) :
    ∃ u ∈ t.subtrees, Permuted u u' := by
  induction h generalizing u' with
  | refl t => exact ⟨u', hu, .refl u'⟩
  | trans _ _ ih ih' =>
    obtain ⟨v, hv, hvu⟩ := ih' hu
    obtain ⟨u, hu', huv⟩ := ih hv
    exact ⟨u, hu', huv.trans hvu⟩
  | @children type name th cs cs' hcs =>
    rcases mem_subtrees_mk.mp hu with rfl | ⟨c, hc, hu⟩
    · exact ⟨_, self_mem_subtrees _, .children hcs⟩
    · exact ⟨u', mem_subtrees_mk.mpr (.inr ⟨c, hcs.mem_iff.mpr hc, hu⟩), .refl u'⟩
  | @descend type name th l r c c' hcc ih =>
    rcases mem_subtrees_mk.mp hu with rfl | ⟨d, hd, hu⟩
    · exact ⟨_, self_mem_subtrees _, .descend hcc⟩
    · rcases List.mem_append.mp hd with hd | hd
      · exact ⟨u', mem_subtrees_mk.mpr (.inr ⟨d, by simp [hd], hu⟩), .refl u'⟩
      · rcases List.mem_cons.mp hd with rfl | hd
        · obtain ⟨u, hsub, huu⟩ := ih (by assumption)
          exact ⟨u, mem_subtrees_mk.mpr (.inr ⟨c, by simp, hsub⟩), huu⟩
        · exact ⟨u', mem_subtrees_mk.mpr (.inr ⟨d, by simp [hd], hu⟩), .refl u'⟩

theorem Permuted.exists_child {t t' : Node} (h : Permuted t t') :
    t.type = t'.type ∧ t.threshold = t'.threshold ∧ ∀ c' ∈ t'.children, ∃ c ∈ t.children,
      Permuted c c' := by
  induction h with
  | refl t => exact ⟨rfl, rfl, fun c hc => ⟨c, hc, .refl c⟩⟩
  | trans _ _ ih ih' =>
    refine ⟨ih.1.trans ih'.1, ih.2.1.trans ih'.2.1, fun c'' hc'' => ?_⟩
    obtain ⟨c', hc', hcc'⟩ := ih'.2.2 c'' hc''
    obtain ⟨c, hc, hcc⟩ := ih.2.2 c' hc'
    exact ⟨c, hc, hcc.trans hcc'⟩
  | children hcs => exact ⟨rfl, rfl, fun c hc => ⟨c, hcs.mem_iff.mpr hc, .refl c⟩⟩
  | @descend type name th l r c c' hcc _ =>
    refine ⟨rfl, rfl, fun d hd => ?_⟩
    rcases List.mem_append.mp hd with hd | hd
    · exact ⟨d, by simp [hd], .refl d⟩
    · rcases List.mem_cons.mp hd with rfl | hd
      · exact ⟨c, by simp, hcc⟩
      · exact ⟨d, by simp [hd], .refl d⟩

theorem forall₂_insert {R : Node → Node → Prop} {l r ds : List Node} {c : Node}
    (h : List.Forall₂ R (l ++ c :: r) ds) :
    ∃ dl d dr, ds = dl ++ d :: dr ∧ List.Forall₂ R l dl ∧ R c d ∧ List.Forall₂ R r dr := by
  induction l generalizing ds with
  | nil =>
    obtain ⟨d, dr, hcd, hr, rfl⟩ := List.forall₂_cons_left_iff.mp h
    exact ⟨[], d, dr, rfl, .nil, hcd, hr⟩
  | cons a l ih =>
    obtain ⟨b, ds, hab, hds, rfl⟩ := List.forall₂_cons_left_iff.mp h
    obtain ⟨dl, d, dr, rfl, hl, hcd, hr⟩ := ih hds
    exact ⟨b :: dl, d, dr, rfl, .cons hab hl, hcd, hr⟩

/-- What is built from a structure can be reordered along with it. -/
theorem Permuted.exists_renamed {s s' t : Node} (h : Permuted s s') (hr : Renamed s t) :
    ∃ t', Permuted t t' ∧ Renamed s' t' := by
  induction h generalizing t with
  | refl s => exact ⟨t, .refl t, hr⟩
  | trans _ _ ih ih' =>
    obtain ⟨u, htu, hu⟩ := ih hr
    obtain ⟨t', hut, ht'⟩ := ih' hu
    exact ⟨t', htu.trans hut, ht'⟩
  | @children type name th cs cs' hcs =>
    cases hr with
    | leaf =>
      obtain rfl : cs' = [] := hcs.nil_eq.symm
      exact ⟨_, .refl _, .leaf name⟩
    | @inner _ _ name' _ _ ds htype hds =>
      obtain ⟨ds', hds', hperm⟩ := List.perm_comp_forall₂ hcs.symm hds
      exact ⟨_, .children hperm.symm, .inner name name' th htype hds'⟩
  | @descend type name th l r c c' _ ih =>
    generalize hcs : l ++ c :: r = cs at hr
    cases hr with
    | leaf => simp at hcs
    | @inner _ _ name' _ _ ds htype hds =>
      subst hcs
      obtain ⟨dl, d, dr, rfl, hl, hcd, hrr⟩ := forall₂_insert hds
      obtain ⟨d', hdd', hcd'⟩ := ih hcd
      exact ⟨_, .descend hdd', .inner name name' th htype (List.rel_append hl (.cons hcd' hrr))⟩

section Points

variable {F M : Type} [Field F] [AddCommGroup M] [Module F M]

/-- The children whose evaluation points matter: a polynomial of a 1-out-of-n node is constant. -/
def thresholdChildren (t : Node) : List Node :=
  (t.subtrees.filter (fun u => u.type = .threshold ∧ 2 ≤ u.threshold)).flatMap children

/-- Children of THRESHOLD nodes above the same leaves have the same evaluation point in both
trees. -/
def SamePoints (pos : PName → F) (t t' : Node) : Prop :=
  ∀ c ∈ t.thresholdChildren, ∀ c' ∈ t'.thresholdChildren,
    c.listLeafNames.toFinset = c'.listLeafNames.toFinset → pos c.name = pos c'.name

instance [DecidableEq F] (pos : PName → F) (t t' : Node) : Decidable (SamePoints pos t t') :=
  inferInstanceAs (Decidable (∀ c ∈ t.thresholdChildren, ∀ c' ∈ t'.thresholdChildren, _ → _))

theorem mem_thresholdChildren {t c : Node} : c ∈ t.thresholdChildren ↔
    ∃ u ∈ t.subtrees, (u.type = .threshold ∧ 2 ≤ u.threshold) ∧ c ∈ u.children := by
  simp [thresholdChildren, and_assoc]

omit [Field F] in
theorem SamePoints.permuted {pos : PName → F} {t t'' t' : Node} (h : SamePoints pos t t')
    (hperm : Permuted t t'') : SamePoints pos t'' t' := by
  intro c hc c' hc' hleaves
  obtain ⟨u, hu, ⟨htype, hth⟩, hcu⟩ := mem_thresholdChildren.mp hc
  obtain ⟨v, hv, hvu⟩ := hperm.exists_subtree hu
  obtain ⟨htv, hthv, hchild⟩ := hvu.exists_child
  obtain ⟨d, hd, hdc⟩ := hchild c hcu
  rw [← hdc.name_eq]
  refine h d (mem_thresholdChildren.mpr ⟨v, hv, ⟨htv.trans htype, hthv ▸ hth⟩, hd⟩) c' hc' ?_
  rw [← hleaves]
  ext nm
  simpa using hdc.mem_listLeafNames nm

/-- Two trees of one shape, with the same leaves and the same points below THRESHOLD nodes. -/
inductive Aligned (pos : PName → F) : Node → Node → Prop
  | leaf (name : PName) : Aligned pos (mk .leaf name 0 []) (mk .leaf name 0 [])
  | inner {type : NodeType} (name name' : PName) (th : ℤ) {cs ds : List Node} :
      type ≠ .leaf → List.Forall₂ (Aligned pos) cs ds →
      (type = .threshold → 2 ≤ th → List.Forall₂ (fun c d => pos c.name = pos d.name) cs ds) →
      Aligned pos (mk type name th cs) (mk type name' th ds)

theorem forall₂_of_common {R : Node → Node → Prop} {cs ds es : List Node}
    (hd : List.Forall₂ Renamed cs ds) (he : List.Forall₂ Renamed cs es)
    (h : ∀ c ∈ cs, ∀ d ∈ ds, ∀ e ∈ es, Renamed c d → Renamed c e → R d e) :
    List.Forall₂ R ds es := by
  induction hd generalizing es with
  | nil =>
    cases he
    exact .nil
  | @cons c d cs ds hcd _ ih =>
    obtain ⟨e, es, hce, hes, rfl⟩ := List.forall₂_cons_left_iff.mp he
    refine .cons (h c (by simp) d (by simp) e (by simp) hcd hce) (ih hes fun c hc d hd e he => ?_)
    exact h c (List.mem_cons_of_mem _ hc) d (List.mem_cons_of_mem _ hd) e
      (List.mem_cons_of_mem _ he)

omit [Field F] in
theorem aligned_of_renamed {pos : PName → F} {T T' : Node} (h : SamePoints pos T T') {s t t' : Node}
    (ht : t ∈ T.subtrees) (ht' : t' ∈ T'.subtrees) (hr : Renamed s t)
    (hr' : Renamed s t') : Aligned pos t t' := by
  induction s using Node.induction generalizing t t' with
  | h type name th cs ih =>
    cases hr with
    | leaf =>
      cases hr' with
      | leaf => exact .leaf name
      | inner _ _ _ htype => exact absurd rfl htype
    | @inner _ _ name₁ _ _ ds htype hds =>
      cases hr' with
      | leaf => exact absurd rfl htype
      | @inner _ _ name₂ _ _ es _ hes =>
        refine .inner name₁ name₂ th htype ?_ fun hthr hth => ?_
        · exact forall₂_of_common hds hes fun c hc d hd e he =>
            ih c hc (child_mem_subtrees ht hd) (child_mem_subtrees ht' he)
        · refine forall₂_of_common hds hes fun c hc d hd e he hcd hce => ?_
          refine h d (mem_thresholdChildren.mpr ⟨_, ht, ⟨hthr, hth⟩, hd⟩)
            e (mem_thresholdChildren.mpr ⟨_, ht', ⟨hthr, hth⟩, he⟩) ?_
          rw [hcd.listLeafNames_eq, hce.listLeafNames_eq]

theorem exists_map_eq {ds : List Node} (hnd : ds.Nodup) {l : List M} (hlen : ds.length = l.length) :
    ∃ f : Node → M, ds.map f = l := by
  classical
  induction ds generalizing l with
  | nil => exact ⟨fun _ => 0, (List.length_eq_zero_iff.mp hlen.symm).symm⟩
  | cons d ds ih =>
    cases l with
    | nil => simp at hlen
    | cons v l =>
      obtain ⟨hd, hnd⟩ := List.nodup_cons.mp hnd
      obtain ⟨f, hf⟩ := ih hnd (by simpa using hlen)
      refine ⟨Function.update f d v, ?_⟩
      rw [List.map_cons, Function.update_self, ← hf]
      refine congrArg _ (List.map_congr_left fun e he => Function.update_of_ne ?_ v f)
      rintro rfl
      exact hd he

theorem horner_of_length_le_one {b : List M} (hb : b.length ≤ 1) (x y : F) :
    horner b x = horner b y := by
  match b, hb with
  | [], _ => rfl
  | [v], _ => simp [horner]

/-- The rule at a node, carried over to the node with the same points. -/
theorem localConsistent_aligned {pos : PName → F} {τ τ' : PName → M}
    {type : NodeType} {name name' : PName} {th : ℤ} {cs ds : List Node} (htype : type ≠ .leaf)
    (hmap : ds.map (fun d => τ' d.name) = cs.map (fun c => τ c.name)) (hroot : τ' name' = τ name)
    (hpos : type = .threshold → 2 ≤ th → List.Forall₂ (fun c d => pos c.name = pos d.name) cs ds)
    (h : LocalConsistent pos τ (mk type name th cs)) :
    LocalConsistent pos τ' (mk type name' th ds) := by
  cases type with
  | none => trivial
  | leaf => exact absurd rfl htype
  | and =>
    have hsum : ((cs.map Node.name).map τ).sum = τ name := h
    have hgoal : ((ds.map Node.name).map τ').sum = τ' name' := by
      rw [hroot, ← hsum, List.map_map, List.map_map]
      exact congrArg List.sum hmap
    exact hgoal
  | or =>
    have hall : ∀ nm ∈ cs.map Node.name, τ nm = τ name := h
    have hgoal : ∀ nm ∈ ds.map Node.name, τ' nm = τ' name' := by
      intro nm hnm
      obtain ⟨d, hd, rfl⟩ := List.mem_map.mp hnm
      have hmem : τ' d.name ∈ cs.map (fun c => τ c.name) := hmap ▸ List.mem_map_of_mem hd
      obtain ⟨c, hc, hcd⟩ := List.mem_map.mp hmem
      rw [← hcd, hall c.name (List.mem_map_of_mem hc), hroot]
    exact hgoal
  | threshold =>
    obtain ⟨b, hlen, h0, hb⟩ := h
    refine ⟨b, hlen, h0.trans hroot.symm, fun nm hnm => ?_⟩
    obtain ⟨d, hd, rfl⟩ := List.mem_map.mp hnm
    by_cases hth : 2 ≤ th
    · have hpos' := hpos rfl hth
      clear hpos h0 hroot hlen htype hnm
      induction hpos' with
      | nil => cases hd
      | @cons c e cs ds hce _ ih =>
        simp only [List.map_cons, List.cons.injEq] at hmap
        rcases List.mem_cons.mp hd with rfl | hd
        · rw [hmap.1, ← hce]
          exact hb c.name (by simp)
        · exact ih hmap.2 (fun nm hnm => hb nm (List.mem_cons_of_mem _ hnm)) hd
    · have hmem : τ' d.name ∈ cs.map (fun c => τ c.name) := hmap ▸ List.mem_map_of_mem hd
      obtain ⟨c, hc, hcd⟩ := List.mem_map.mp hmem
      rw [← hcd, hb c.name (List.mem_map_of_mem hc)]
      exact horner_of_length_le_one (by rw [hlen]; simp only [threshold_mk]; omega) _ _

omit [AddCommGroup M] in
theorem pairs_of_map_eq {R : Node → Node → Prop} {cs ds : List Node} {f g : Node → M}
    (h : List.Forall₂ R cs ds) (hmap : ds.map g = cs.map f) :
    ∀ d ∈ ds, ∃ c ∈ cs, R c d ∧ g d = f c := by
  induction h with
  | nil => simp
  | @cons c d cs ds hcd _ ih =>
    rw [List.map_cons, List.map_cons, List.cons.injEq] at hmap
    intro e he
    rcases List.mem_cons.mp he with rfl | he
    · exact ⟨c, by simp, hcd, hmap.1⟩
    · obtain ⟨c', hc', hR, heq⟩ := ih hmap.2 e he
      exact ⟨c', List.mem_cons_of_mem c hc', hR, heq⟩

/-- A sharing along one tree is one along the other, under the other's names. -/
theorem Aligned.exists_consistent {pos : PName → F} {τ : PName → M}
    {t t' : Node} (h : Aligned pos t t') (hnd : t'.names.Nodup) (hτ : Consistent pos τ t) :
    ∃ τ' : PName → M, Consistent pos τ' t' ∧ τ' t'.name = τ t.name ∧ ∀ nm ∈ t'.listLeafNames,
      τ' nm = τ nm := by
  induction t using Node.induction generalizing t' with
  | h type name th cs ih =>
    obtain ⟨hroot, hsub⟩ := forall_mk.mp hτ
    cases h with
    | leaf => exact ⟨τ, hτ, rfl, fun _ _ => rfl⟩
    | @inner _ _ name' _ _ ds htype hds hpos =>
      obtain ⟨f, hf⟩ := exists_map_eq (nodup_children_names hnd).of_map
        (by simpa using hds.length_eq.symm : ds.length = (cs.map (fun c => τ c.name)).length)
      obtain ⟨τ', hτ', hname, hlive⟩ := exists_consistent_node pos hnd (τ name) f (fun _ => True) τ
        (fun σ hσ hσc => localConsistent_aligned htype ((List.map_congr_left hσc).trans hf) hσ
          hpos hroot) fun d hd => by
          obtain ⟨c, hc, hcd, hfd⟩ := pairs_of_map_eq hds hf d hd
          obtain ⟨σ, hσ, hσname, hσleaf⟩ := ih c hc hcd (nodup_child hnd d hd) (hsub c hc)
          exact ⟨σ, hσ, hσname.trans hfd.symm, fun nm hnm _ => hσleaf nm hnm⟩
      refine ⟨τ', hτ', hname, fun nm hnm => ?_⟩
      rw [listLeafNames_mk, if_neg htype, List.nil_append] at hnm
      obtain ⟨d, hd, hnm⟩ := List.mem_flatMap.mp hnm
      exact hlive d hd nm hnm trivial

end Points

end Node

variable {q : ℕ} {E : Type} [AddCommGroup E] [Module (ZMod q) E] [DecidableEq E] [hq : Fact q.Prime]
variable {pid : PName → ℕ} {s s' t t' : Node} {τ : PName → ZMod q}

omit [Module (ZMod q) E] [DecidableEq E] hq in
/-- A tree that the conversion has left in its output. -/
theorem toInternalAccessStructure_root {names : List PName} {curve : Curve q E}
    {out : AcOwned (Curve q E)}
    (ht : (toInternalAccessStructure s names (some curve) out).2.root = some t) :
    AcceptedStructure s names ∧ t.validateTree = .ok () ∧ Renamed s t := by
  rcases toInternalAccessStructure_cases s names curve out with
    ⟨hacc, t', hout, hvalid, hren, -⟩ | ⟨-, -, hnone⟩
  · rw [hout] at ht
    cases ht
    exact ⟨hacc, hvalid, hren⟩
  · rw [hnone] at ht
    cases ht

/-- A key shared along the tree of one structure is shared along that of a reordered one, if the
points below THRESHOLD nodes agree; so its quorums convert it to additive shares all the same. -/
theorem toAdditiveShare_reordered (hperm : Permuted s s') {names : List PName} {curve : Curve q E}
    {out out' : AcOwned (Curve q E)}
    (ht : (toInternalAccessStructure s names (some curve) out).2.root = some t)
    (ht' : (toInternalAccessStructure s' names (some curve) out').2.root = some t')
    (hsame : SamePoints (pidPos q pid) t t') (hpos : Positions (pidPos q pid) t')
    (hτ : Consistent (pidPos q pid) τ t) :
    (∀ S, t'.enoughForQuorum S = t.enoughForQuorum S) ∧
      (∃ τ', Consistent (pidPos q pid) τ' t' ∧ τ' t'.name = τ t.name ∧
        ∀ p ∈ names, ∀ key, HoldsShare curve t τ p key → HoldsShare curve t' τ' p key) ∧
      ∀ (S : Finset PName) (keys : PName → KeyShareMp q E), (∀ p ∈ S, p ∈ names) →
      t.enoughForQuorum S = true →
        (∀ p ∈ S, HoldsShare curve t τ p (keys p)) →
        ∃ add : PName → KeyShareMp q E, (∀ p ∈ S, toAdditiveShare pid t' S (keys p) = .ok (add p)) ∧
          ∑ p ∈ S, ((add p).xShare : ZMod q) = τ t.name ∧
          (∀ p ∈ S, ∀ r ∈ S, (add r).Qis.find p =
            some (((add p).xShare : ZMod q) • curve.generator)) ∧
          ∀ r ∈ S, (add r).Q = τ t.name • curve.generator ∧ (add r).Qis.values.sum = (add r).Q := by
  obtain ⟨hacc, hvalid, hren⟩ := toInternalAccessStructure_root ht
  obtain ⟨hacc', hvalid', hren'⟩ := toInternalAccessStructure_root ht'
  obtain ⟨-, hnd', -⟩ := validateTree_ok hvalid'
  obtain ⟨t'', hperm', hren''⟩ := hperm.exists_renamed hren
  have hquorum : ∀ S, t'.enoughForQuorum S = t.enoughForQuorum S := fun S => by
    rw [hperm'.enoughForQuorum_eq, hren'.enoughForQuorum_eq hacc'.shaped,
      hren''.enoughForQuorum_eq hacc'.shaped]
  have halign := aligned_of_renamed (hsame.permuted hperm') (self_mem_subtrees t'')
    (self_mem_subtrees t') hren'' hren'
  obtain ⟨τ', hτ', hname, hleaf⟩ := halign.exists_consistent hnd' (hτ.permuted hperm')
  have hroot : τ' t'.name = τ t.name := hname.trans (by rw [hperm'.name_eq])
  have hmem : ∀ nm, nm ∈ t'.listLeafNames ↔ nm ∈ t.listLeafNames := fun nm => by
    rw [hren'.listLeafNames_eq, hren.listLeafNames_eq, hacc'.parties, hacc.parties]
  have hmem' : ∀ nm, nm ∈ t'.listLeafNames ↔ nm ∈ names := fun nm => by
    rw [hren'.listLeafNames_eq, hacc'.parties]
  have hholds : ∀ p ∈ names, ∀ key, HoldsShare curve t τ p key → HoldsShare curve t' τ' p key := by
    intro p hp key hkey
    have hp' : τ' p = τ p := hleaf p ((hmem' p).mpr hp)
    refine ⟨hkey.curve_eq, hkey.name_eq, by rw [hp', hkey.share_eq], by rw [hroot, hkey.Q_eq],
      fun nm hnm => ?_⟩
    rw [hleaf nm hnm]
    exact hkey.Qis_eq nm ((hmem nm).mp hnm)
  refine ⟨hquorum, ⟨τ', hτ', hroot, hholds⟩, fun S keys hS hq hkeys => ?_⟩
  obtain ⟨hwf', -⟩ := validateTree_ok hvalid'
  have hq' : t'.enoughForQuorum S = true := (hquorum S).trans hq
  have hkeys' : ∀ p ∈ S, HoldsShare curve t' τ' p (keys p) := fun p hp =>
    hholds p (hS p hp) (keys p) (hkeys p hp)
  refine ⟨fun p => additiveKey pid S curve t' τ' p (keys p), fun p hp =>
    toAdditiveShare_eq hwf' hnd' hpos hq' (hkeys' p hp), ?_, fun p hp r _ =>
    additiveKey_Qis_find hp (keys r), fun r hr => ?_⟩
  · rw [additiveKey_sum hwf' hpos hτ' hq', hroot]
  · have hQ : (keys r).Q = τ' t'.name • curve.generator := (hkeys' r hr).Q_eq
    exact ⟨by rw [← hroot]; exact hQ, additiveKey_Qis_sum hwf' hpos hτ' hq' hQ⟩

section Examples

/-- Both parties of `{a, b}` and both of `{c, d}`, as two halves of a 2-out-of-2 root. -/
def twoPairs : AccessStructure :=
  mk .threshold [] 2 [mk .and [] 0 [mk .leaf [97] 0 [], mk .leaf [98] 0 []],
    mk .and [] 0 [mk .leaf [99] 0 [], mk .leaf [100] 0 []]]

/-- The same with the halves exchanged. -/
def twoPairsReordered : AccessStructure :=
  mk .threshold [] 2 [mk .and [] 0 [mk .leaf [99] 0 [], mk .leaf [100] 0 []],
    mk .and [] 0 [mk .leaf [97] 0 [], mk .leaf [98] 0 []]]

def fourParties : List PName := [[97], [98], [99], [100]]

/-- The tree of either structure, from the names of its halves. -/
def pairsTree (ab cd : PName) (reordered : Bool) : Node :=
  let halves := [mk .and ab 0 [mk .leaf [97] 0 [], mk .leaf [98] 0 []],
    mk .and cd 0 [mk .leaf [99] 0 [], mk .leaf [100] 0 []]]
  mk .threshold [] 2 (if reordered then halves.reverse else halves)

/-- The last byte of a name as its pid. -/
def lastPid (nm : PName) : ℕ := (nm.getLastD 0).val

/-- A labelling of either tree, from its values at the root and at the two inner names. -/
def pairsLabel (root one two : ZMod 1009) (nm : PName) : ZMod 1009 :=
  if nm = [] then root
  else if nm = internalNodeName 1 then one
  else if nm = internalNodeName 2 then two
  else if nm = [97] then 100
  else if nm = [98] then 52
  else if nm = [99] then 100
  else 55

def pairsKey (root : ZMod 1009) (p : PName) : KeyShareMp 1009 (ZMod 1009) where
  xShare := residue (pairsLabel 0 0 0 p)
  Q := root
  Qis := .ofKeys (pairsLabel 0 0 0) fourParties
  curve := sampleCurve
  partyName := p

/-- The values at the leaves share 5 along the one tree, by `5 + 3 x`, and 302 along the other, by
`302 - 3 x`. -/
theorem pairsLabel_consistent :
    Consistent (pidPos 1009 lastPid) (pairsLabel 5 152 155)
      (pairsTree (internalNodeName 1) (internalNodeName 2) false) ∧
      Consistent (pidPos 1009 lastPid) (pairsLabel 302 155 152)
        (pairsTree (internalNodeName 2) (internalNodeName 1) true) := by
  have hleaves : ∀ (τ : PName → ZMod 1009) (nm a b : PName), τ a + (τ b + 0) = τ nm →
      Consistent (pidPos 1009 lastPid) τ (mk .and nm 0 [mk .leaf a 0 [], mk .leaf b 0 []]) := by
    intro τ nm a b h
    refine forall_mk.mpr ⟨h, ?_⟩
    simp [forall_mk, LocalConsistent]
  constructor
  · refine forall_mk.mpr ⟨⟨[5, 3], rfl, by decide, by decide⟩, fun c hc => ?_⟩
    simp only [Bool.false_eq_true, if_false, List.mem_cons, List.not_mem_nil, or_false] at hc
    rcases hc with rfl | rfl
    · exact hleaves _ _ _ _ (by decide)
    · exact hleaves _ _ _ _ (by decide)
  · refine forall_mk.mpr ⟨⟨[302, -3], rfl, by decide, by decide⟩, fun c hc => ?_⟩
    simp only [if_true, List.reverse_cons, List.reverse_nil, List.nil_append, List.cons_append,
      List.mem_cons, List.not_mem_nil, or_false] at hc
    rcases hc with rfl | rfl
    · exact hleaves _ _ _ _ (by decide)
    · exact hleaves _ _ _ _ (by decide)

theorem pairsKey_holdsShare (root one two : ZMod 1009) (ab cd : PName) (reordered : Bool) :
    ∀ p ∈ fourParties, HoldsShare sampleCurve (pairsTree ab cd reordered) (pairsLabel root one two)
      p (pairsKey root p) := by
  have hleaf : ∀ nm ∈ fourParties, pairsLabel 0 0 0 nm = pairsLabel root one two nm := by
    intro nm hnm
    have hne : nm ≠ [] ∧ nm ≠ internalNodeName 1 ∧ nm ≠ internalNodeName 2 := by
      revert nm
      decide
    simp [pairsLabel, hne]
  refine fun p hp => ⟨rfl, rfl, congrArg residue (hleaf p hp), ?_, fun nm hnm => ?_⟩
  · exact (mul_one root).symm
  · have hmem : nm ∈ fourParties := by
      cases reordered
      · exact hnm
      · revert hnm
        simp [pairsTree, listLeafNames, subtrees, subtreesList, fourParties]
        tauto
    rw [pairsKey, OrderedMap.find_ofKeys, if_pos hmem, hleaf nm hmem]
    exact congrArg some (mul_one _).symm

/-- Exchanging the halves exchanges their names, and all parties together convert a key of 5 to
additive shares of 302. -/
theorem twoPairs_reordered_differs :
    Permuted twoPairs twoPairsReordered ∧
      ∃ t t' : Node,
        (toInternalAccessStructure twoPairs fourParties (some sampleCurve) ⟨none, none⟩).2.root =
        some t ∧
        (toInternalAccessStructure twoPairsReordered fourParties (some sampleCurve)
          ⟨none, none⟩).2.root = some t' ∧
        Positions (pidPos 1009 lastPid) t ∧ Positions (pidPos 1009 lastPid) t' ∧
        Consistent (pidPos 1009 lastPid) (pairsLabel 5 152 155) t ∧
        (∀ p ∈ fourParties, HoldsShare sampleCurve t (pairsLabel 5 152 155) p (pairsKey 5 p)) ∧
        t.enoughForQuorum fourParties.toFinset = true ∧ pairsLabel 5 152 155 t.name = 5 ∧
        ∀ add : PName → KeyShareMp 1009 (ZMod 1009),
          (∀ p ∈ fourParties, toAdditiveShare lastPid t' fourParties.toFinset (pairsKey 5 p) =
            .ok (add p)) →
          ∑ p ∈ fourParties.toFinset, ((add p).xShare : ZMod 1009) = 302 := by
  refine ⟨.children (List.Perm.swap _ _ _),
    pairsTree (internalNodeName 1) (internalNodeName 2) false,
    pairsTree (internalNodeName 2) (internalNodeName 1) true, rfl, rfl, by decide, by decide,
    pairsLabel_consistent.1, pairsKey_holdsShare _ _ _ _ _
      _, by decide, by decide, fun add hadd => ?_⟩
  have hvalid : (pairsTree (internalNodeName 2) (internalNodeName 1) true).validateTree =
    .ok () := by decide
  obtain ⟨hwf, hnd, -⟩ := validateTree_ok hvalid
  have hS : (pairsTree (internalNodeName 2) (internalNodeName 1) true).enoughForQuorum
      fourParties.toFinset = true := by
    decide
  have hpos : Positions (pidPos 1009 lastPid)
    (pairsTree (internalNodeName 2) (internalNodeName 1) true) := by decide
  -- the scalar part of the conversion sees the key of 302
  have hshare : ∀ p ∈ fourParties.toFinset, ((add p).xShare : ZMod 1009) =
      quorumWeight lastPid fourParties.toFinset
        (pairsTree (internalNodeName 2) (internalNodeName 1) true) p *
        pairsLabel 302 155 152 p := by
    intro p hp
    obtain ⟨-, h⟩ := require_bind_ok_iff.mp (hadd p (List.mem_toFinset.mp hp))
    obtain ⟨x, hx, h⟩ := bind_ok_iff.mp h
    obtain ⟨m, -, h⟩ := bind_ok_iff.mp h
    have hkey := reconstructAdditiveShare_eq hwf hnd hpos hS
      (pairsKey_holdsShare 302 155 152 (internalNodeName 2) (internalNodeName 1) true p
        (List.mem_toFinset.mp hp))
    have hsame : reconstructAdditiveShare lastPid (pairsKey 302 p) =
        reconstructAdditiveShare lastPid (pairsKey 5 p) :=
      rfl
    have hxeq := Except.ok.inj (hx.symm.trans (hsame ▸ hkey))
    rw [← Except.ok.inj h, hxeq]
    simp
  rw [Finset.sum_congr rfl hshare]
  have hsum : _ = (302 : ZMod 1009) := sum_quorumWeight hwf hpos pairsLabel_consistent.2 hS
  simpa using hsum

/-- With the halves under an AND node their names are exchanged too, but no evaluation point is. -/
def pairedLeaves : AccessStructure :=
  mk .and [] 0 [mk .threshold [] 2 [mk .leaf [97] 0 [], mk .leaf [98] 0 []],
    mk .or [] 0 [mk .leaf [99] 0 [], mk .leaf [100] 0 []]]

def pairedLeavesReordered : AccessStructure :=
  mk .and [] 0 [mk .or [] 0 [mk .leaf [99] 0 [], mk .leaf [100] 0 []],
    mk .threshold [] 2 [mk .leaf [98] 0 [], mk .leaf [97] 0 []]]

def pairedTree : Node :=
  mk .and [] 0 [mk .threshold (internalNodeName 1) 2 [mk .leaf [97] 0 [], mk .leaf [98] 0 []],
    mk .or (internalNodeName 2) 0 [mk .leaf [99] 0 [], mk .leaf [100] 0 []]]

def pairedTreeReordered : Node :=
  mk .and [] 0 [mk .or (internalNodeName 1) 0 [mk .leaf [99] 0 [], mk .leaf [100] 0 []],
    mk .threshold (internalNodeName 2) 2 [mk .leaf [98] 0 [], mk .leaf [97] 0 []]]

/-- The sharing of 5 as `2 + 3`, where `2` is shared by the polynomial `2 + x`. -/
def pairedLabel (nm : PName) : ZMod 1009 :=
  if nm = [] then 5
  else if nm = internalNodeName 1 then 2
  else if nm = [97] then 99
  else if nm = [98] then 100
  else 3

def pairedKey (p : PName) : KeyShareMp 1009 (ZMod 1009) where
  xShare := residue (pairedLabel p)
  Q := 5
  Qis := .ofKeys pairedLabel pairedTree.listLeafNames
  curve := sampleCurve
  partyName := p

theorem pairedLabel_consistent : Consistent (pidPos 1009 lastPid) pairedLabel pairedTree := by
  refine forall_mk.mpr
    ⟨(by decide : pairedLabel (internalNodeName 1) + (pairedLabel (internalNodeName 2) + 0) =
    pairedLabel []), fun c hc => ?_⟩
  simp only [List.mem_cons, List.not_mem_nil, or_false] at hc
  rcases hc with rfl | rfl
  · refine forall_mk.mpr ⟨⟨[2, 1], rfl, by decide, by decide⟩, ?_⟩
    simp [forall_mk, LocalConsistent]
  · refine forall_mk.mpr ⟨(by decide : ∀ nm ∈ ([[99], [100]] : List PName),
      pairedLabel nm = pairedLabel (internalNodeName 2)), ?_⟩
    simp [forall_mk, LocalConsistent]

theorem pairedKey_holdsShare (p : PName) :
    HoldsShare sampleCurve pairedTree pairedLabel p (pairedKey p) where
  curve_eq := rfl
  name_eq := rfl
  share_eq := rfl
  Q_eq := (by decide : (5 : ZMod 1009) = pairedLabel [] • sampleCurve.generator)
  Qis_eq nm hnm := by simp [pairedKey, sampleCurve, hnm]

theorem pairedLeaves_permuted : Permuted pairedLeaves pairedLeavesReordered := by
  refine .trans (.children (List.Perm.swap _ _ _)) (@Permuted.descend _ _ _ [_] [] _ _ ?_)
  exact .children (List.Perm.swap _ _ _)

/-- The quorum `{a, b, c}` of a key shared along `pairedLeaves`, under the reordered structure. -/
theorem toAdditiveShare_reordered_sample :
    ∃ add : PName → KeyShareMp 1009 (ZMod 1009),
      (∀ p ∈ ({[97], [98], [99]} : Finset PName),
        toAdditiveShare lastPid pairedTreeReordered {[97], [98], [99]} (pairedKey p) =
          .ok (add p)) ∧
      ∑ p ∈ ({[97], [98], [99]} : Finset PName), ((add p).xShare : ZMod 1009) = 5 := by
  obtain ⟨-, -, hadd⟩ := @toAdditiveShare_reordered 1009 (ZMod 1009) _ _ _ _ lastPid pairedLeaves
    pairedLeavesReordered pairedTree pairedTreeReordered pairedLabel
      pairedLeaves_permuted fourParties sampleCurve
    ⟨none, none⟩ ⟨none, none⟩ rfl rfl (by decide) (by decide) pairedLabel_consistent
  obtain ⟨add, hok, hsum, -⟩ := hadd {[97], [98], [99]} pairedKey (by decide) (by decide)
    fun p _ => pairedKey_holdsShare p
  exact ⟨add, hok, hsum⟩

end Examples

end CbMpc
