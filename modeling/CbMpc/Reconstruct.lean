import CbMpc.Sharing

/-!
# Reconstruction from the leaves of a set

`reconstruct_recursive` on scalars and `reconstruct_exponent_recursive` on points
have the same body up to the arithmetic of the values, so both are instances of
one function. On the leaves of a sharing that lie in a set `S`, it returns the
value at the root when `enough_for_quorum(S)` holds and `E_INSUFFICIENT` when not.
-/
namespace CbMpc

open Interpolation Node

/-- The arithmetic of reconstruction; `interpolate` is taken at `0`. -/
structure ValueOps (α : Type) where
  zero : α
  add : α → α → Outcome α
  interpolate : List α → List ℤ → Outcome α

def scalarOps (q : ℕ) : ValueOps ℤ where
  zero := 0
  add := modAdd false q
  interpolate := lagrangeInterpolate q 0

def pointOps (q : ℕ) {E : Type} [AddCommGroup E] [Module (ZMod q) E] : ValueOps E where
  zero := 0
  add P R := .ok (P + R)
  interpolate := lagrangeInterpolateExponent q 0

/-- The OR loop: the first child that succeeds. -/
def firstSuccess {α : Type} : List (Outcome α) → Outcome α
  | [] => fail .insufficient
  | .ok x :: _ => .ok x
  | .error e :: rest => if e = .code .insufficient then firstSuccess rest else .error e

/-- The THRESHOLD loop: the children that succeed, up to the threshold. -/
def collect {α : Type} (threshold : ℤ) :
    List (PName × Outcome α) → List (PName × α) → Outcome (List (PName × α))
  | [], found => .ok found
  | (name, .ok x) :: rest, found =>
    if ((found.length + 1 : ℕ) : ℤ) = threshold then .ok (found ++ [(name, x)])
    else collect threshold rest (found ++ [(name, x)])
  | (_, .error e) :: rest, found =>
    if e = .code .insufficient then collect threshold rest found else .error e

/-- The body of `reconstruct_recursive` and of `reconstruct_exponent_recursive`. -/
def reconstructNode {α : Type} (ops : ValueOps α) (pid : PName → ℕ) (shares : OrderedMap PName α)
    (type : NodeType) (name : PName) (threshold : ℤ) (children : List (PName × Outcome α)) :
    Outcome α :=
  match type with
  | .leaf =>
    match shares.find name with
    | none => fail .insufficient
    | some share => .ok share
  | .or => firstSuccess (children.map Prod.snd)
  | .and => children.foldlM (fun x c => do
      let share ← c.2
      ops.add x share) ops.zero
  | .threshold => do
    let found ← collect threshold children []
    if (found.length : ℤ) < threshold then fail .insufficient
    else ops.interpolate (found.map Prod.snd) (found.map (fun c => (pid c.1 : ℤ)))
  | .none => fail .crypto

/-- `ac_t::reconstruct`. -/
def reconstruct (q : ℕ) (pid : PName → ℕ) (t : Node) (shares : OrderedMap PName ℤ) : Outcome ℤ :=
  t.fold (reconstructNode (scalarOps q) pid shares)

/-- `ac_t::reconstruct_exponent` on shares that have passed `curve.check`. -/
def reconstructExponent (q : ℕ) {E : Type} [AddCommGroup E] [Module (ZMod q) E]
    (pid : PName → ℕ) (t : Node) (shares : OrderedMap PName E) : Outcome E :=
  t.fold (reconstructNode (pointOps q) pid shares)

theorem nodesOf_pids {q : ℕ} {β : Type} (pts : List (ℕ × β)) :
    nodesOf q (pts.map (fun p => (p.1 : ℤ))) = pts.map (fun p => (p.1 : ZMod q)) := by
  simp [nodesOf, Function.comp_def]

variable {q : ℕ} {M α : Type} [AddCommGroup M] [Module (ZMod q) M] [hq : Fact q.Prime]

/-- The operations compute in the vector space `M`, through its representation `embed`. -/
structure ValueOps.Sound (ops : ValueOps α) (embed : M → α) : Prop where
  zero_eq : ops.zero = embed 0
  add_eq : ∀ a b, ops.add (embed a) (embed b) = .ok (embed (a + b))
  interpolate_eq : ∀ pts : List (ℕ × M), 0 < pts.length → (∀ p ∈ pts, p.1 ≠ 0) →
    (pts.map (fun p => (p.1 : ZMod q))).Nodup →
    ops.interpolate (pts.map (fun p => embed p.2)) (pts.map (fun p => (p.1 : ℤ))) =
      .ok (embed (pts.map (fun p =>
        weight (pts.map (fun p => (p.1 : ZMod q))) (p.1 : ZMod q) 0 • p.2)).sum)

theorem scalarOps_sound : (scalarOps q).Sound (q := q) (residue : ZMod q → ℤ) where
  zero_eq := residue_zero.symm
  add_eq := modAdd_residue false
  interpolate_eq pts _ hne hnd := by
    obtain ⟨hpos, hinj⟩ := pids_positive_injective (q := q) (pts.map Prod.fst)
      (fun p hp => by
        obtain ⟨a, ha, rfl⟩ := List.mem_map.mp hp
        exact hne a ha) (by simpa [Function.comp_def] using hnd)
    rw [List.map_map] at hpos hinj
    have h := lagrangePartialInterpolate_eq (q := q) 0 (pts.map (fun p => (p.1 : ℤ))) hpos
      hinj (pts.map (fun p => ((p.1 : ℤ), p.2)))
      (fun p hp => by
        obtain ⟨a, ha, rfl⟩ := List.mem_map.mp hp
        exact List.mem_map_of_mem ha) (by simp)
    simp only [List.map_map, Function.comp_def, nodesOf_pids, Int.cast_zero, Int.cast_natCast] at h
    simp [scalarOps, lagrangeInterpolate, h]

theorem pointOps_sound : (pointOps q).Sound (q := q) (id : M → M) where
  zero_eq := rfl
  add_eq _ _ := rfl
  interpolate_eq pts hlen hne hnd := by
    obtain ⟨hpos, hinj⟩ := pids_positive_injective (q := q) (pts.map Prod.fst)
      (fun p hp => by
        obtain ⟨a, ha, rfl⟩ := List.mem_map.mp hp
        exact hne a ha) (by simpa [Function.comp_def] using hnd)
    rw [List.map_map] at hpos hinj
    have h := lagrangePartialInterpolateExponent_eq (q := q) 0 (pts.map (fun p => (p.1 : ℤ))) hpos
      hinj (pts.map (fun p => ((p.1 : ℤ), p.2)))
      (fun p hp => by
        obtain ⟨a, ha, rfl⟩ := List.mem_map.mp hp
        exact List.mem_map_of_mem ha) (by simp) (by simpa using hlen)
    simp only [List.map_map, Function.comp_def, nodesOf_pids, Int.cast_zero, Int.cast_natCast] at h
    simp [pointOps, lagrangeInterpolateExponent, h]

/-- What a node yields when its subtree is satisfied or not. -/
def quorumResult (enough : Bool) (x : α) : Outcome α := if enough then .ok x else fail .insufficient

theorem firstSuccess_eq (l : List Node) (p : Node → Bool) (f : Node → α) (x : α)
    (hx : ∀ c ∈ l, f c = x) :
    firstSuccess (l.map (fun c => quorumResult (p c) (f c))) = quorumResult (l.any p) x := by
  induction l with
  | nil => rfl
  | cons c l ih =>
    have ih' := ih (fun d hd => hx d (by simp [hd]))
    by_cases hc : p c
    · simp [firstSuccess, quorumResult, hc, hx c (by simp)]
    · simp only [List.map_cons, List.any_cons, hc, Bool.false_or]
      exact ih'

theorem collect_eq (k : ℕ) (l : List Node) (p : Node → Bool) (f : Node → α)
    (found : List (PName × α)) (hk : found.length < k) :
    collect k (l.map (fun c => (c.name, quorumResult (p c) (f c)))) found =
      .ok (found ++ ((l.filter p).take (k - found.length)).map (fun c => (c.name, f c))) := by
  induction l generalizing found with
  | nil => simp [collect]
  | cons c l ih =>
    by_cases hc : p c
    · have hsucc : k - found.length = (k - (found.length + 1)) + 1 := by omega
      simp only [List.map_cons, quorumResult, hc, if_true, collect, List.filter_cons_of_pos, hsucc,
        List.take_succ_cons]
      by_cases hlast : ((found.length + 1 : ℕ) : ℤ) = k
      · have hz : k - (found.length + 1) = 0 := by omega
        simp [hlast, hz]
      · have hlt : (found ++ [(c.name, f c)]).length < k := by
          simp only [List.length_append, List.length_singleton]
          omega
        rw [if_neg hlast]
        exact (ih _ hlt).trans (by simp)
    · simp only [List.map_cons, quorumResult, hc, collect, fail, Bool.false_eq_true, if_false,
        if_true, List.filter_cons_of_neg, not_false_eq_true]
      exact ih found hk

/-- The AND loop: the sum, when all children succeed. -/
theorem foldlM_children {ops : ValueOps α} {embed : M → α}
    (hops : ops.Sound (q := q) embed) {l : List Node} {r : Node → Outcome α}
    {p : Node → Bool} {f : Node → M}
    (hr : ∀ c ∈ l, r c = quorumResult (p c) (embed (f c))) (acc : M) :
    (l.map (fun c => (c.name, r c))).foldlM (fun x c => do
      let share ← c.2
      ops.add x share) (embed acc) = quorumResult (l.all p) (embed (acc + (l.map f).sum)) := by
  induction l generalizing acc with
  | nil =>
    simp [quorumResult]
    rfl
  | cons c l ih =>
    rw [List.map_cons, List.foldlM_cons, hr c (by simp), List.all_cons]
    by_cases hc : p c
    · simp only [quorumResult, hc, if_true, ok_bind, hops.add_eq, Bool.true_and]
      rw [ih (fun d hd => hr d (by simp [hd])), List.map_cons, List.sum_cons, add_assoc]
      rfl
    · simp [quorumResult, hc, fail]

/-- Interpolation at `0` through the first `k` satisfied children gives the node's value. -/
theorem interpolate_children {ops : ValueOps α} {embed : M → α} (hops : ops.Sound (q := q) embed)
    (pid : PName → ℕ) {name : PName} {k : ℕ} {cs : List Node} {τ : PName → M} (hk : 1 ≤ k)
    (hpos : LocalPositions (pidPos q pid) (mk .threshold name k cs))
    (hτ : LocalConsistent (pidPos q pid) τ (mk .threshold name k cs)) (l : List Node)
    (hsub : l.Sublist cs) (hlen : l.length = k) :
    ops.interpolate (l.map (fun c => embed (τ c.name))) (l.map (fun c => (pid c.name : ℤ))) =
      .ok (embed (τ name)) := by
  obtain ⟨hnd, hne⟩ := hpos rfl
  have hnodes : (l.map (fun c => (pid c.name : ZMod q))).Nodup := by
    have hsub' := (hsub.map Node.name).map (pidPos q pid)
    simpa [pidPos, Function.comp_def] using hnd.sublist hsub'
  have h := hops.interpolate_eq (l.map (fun c => (pid c.name, τ c.name))) (by simp; omega)
    (fun p hp => by
      obtain ⟨c, hc, rfl⟩ := List.mem_map.mp hp
      exact pid_ne_zero (hne c.name (List.mem_map_of_mem (hsub.subset hc))))
    (by simpa [Function.comp_def] using hnodes)
  simp only [List.map_map, Function.comp_def] at h
  rw [h]
  exact congrArg (fun x => Except.ok (embed x)) (hτ.sum_weight hpos hsub hlen)

/-- Reconstruction agrees with the quorum predicate on every sharing. -/
theorem reconstructNode_eq {ops : ValueOps α} {embed : M → α} (hops : ops.Sound (q := q) embed)
    (pid : PName → ℕ) (S : Finset PName) (shares : OrderedMap PName α) (τ : PName → M) {t : Node}
    (hwf : t.WellFormed) (hpos : Positions (pidPos q pid) t) (hτ : Consistent (pidPos q pid) τ t)
    (hshares : ∀ nm ∈ t.listLeafNames, shares.find nm = if nm ∈ S then
      some (embed (τ nm)) else none) :
    t.fold (reconstructNode ops pid shares) =
      quorumResult (t.enoughForQuorum S) (embed (τ t.name)) := by
  induction t, hwf using WellFormed.induction with
  | leaf name h =>
    rw [fold_mk, reconstructNode, hshares name (by simp [listLeafNames_mk])]
    by_cases h : name ∈ S <;> simp [h, quorumResult]
  | or name cs h hne ih =>
    obtain ⟨hl, hτc⟩ := forall_mk.mp hτ
    have hc := fun c hc => (ih c hc).2 ((forall_mk.mp hpos).2 c hc) (hτc c hc)
      (fun nm hnm => hshares nm (listLeafNames_child_subset hc hnm))
    rw [fold_mk, reconstructNode, List.map_map, enoughForQuorum_or]
    refine (congrArg firstSuccess (List.map_congr_left hc)).trans ?_
    exact firstSuccess_eq cs _ (fun c => embed (τ c.name)) _
      fun c hc => congrArg embed (hl c.name (List.mem_map_of_mem hc))
  | and name cs h hne ih =>
    obtain ⟨hl, hτc⟩ := forall_mk.mp hτ
    have hc := fun c hc => (ih c hc).2 ((forall_mk.mp hpos).2 c hc) (hτc c hc)
      (fun nm hnm => hshares nm (listLeafNames_child_subset hc hnm))
    rw [fold_mk, reconstructNode, hops.zero_eq, foldlM_children hops hc,
      enoughForQuorum_and, zero_add]
    have hsum : (cs.map (fun c => τ c.name)).sum = τ name := by
      have h : ((cs.map Node.name).map τ).sum = τ name := hl
      rw [List.map_map] at h
      exact h
    rw [hsum]
    rfl
  | threshold name k cs h hk hkn ih =>
    obtain ⟨hl, hτc⟩ := forall_mk.mp hτ
    have hc := fun c hc => (ih c hc).2 ((forall_mk.mp hpos).2 c hc) (hτc c hc)
      (fun nm hnm => hshares nm (listLeafNames_child_subset hc hnm))
    have hmap : cs.map (fun c => (c.name, c.fold (reconstructNode ops pid shares))) =
        cs.map (fun c => (c.name, quorumResult (c.enoughForQuorum S) (embed (τ c.name)))) :=
      List.map_congr_left fun c h => by rw [hc c h]
    rw [fold_mk, reconstructNode, hmap,
      collect_eq k cs _ (fun c => embed (τ c.name)) [] (by simp; omega),
      ok_bind, enoughForQuorum_threshold name hk]
    simp only [List.length_nil, Nat.sub_zero, List.nil_append, List.length_map, List.length_take,
      ← List.countP_eq_length_filter]
    by_cases hen : k ≤ cs.countP (enoughForQuorum S)
    · have hsub : ((cs.filter (enoughForQuorum S)).take k).Sublist cs :=
        (List.take_sublist _ _).trans List.filter_sublist
      have hlen : ((cs.filter (enoughForQuorum S)).take k).length = k := by
        rw [List.length_take, ← List.countP_eq_length_filter]
        omega
      have hint := interpolate_children hops pid hk (forall_mk.mp hpos).1 hl _ hsub hlen
      rw [if_neg (by omega), List.map_map, List.map_map]
      simpa [quorumResult, hen, Function.comp_def] using hint
    · rw [if_pos (by omega)]
      simp [quorumResult, hen]

/-- From the points of all leaves something is reconstructed, also when they are no sharing. -/
theorem reconstructExponent_defined (pid : PName → ℕ) {t : Node} (hwf : t.WellFormed)
    (hpos : Positions (pidPos q pid) t) {shares : OrderedMap PName M}
    (hshares : ∀ nm ∈ t.listLeafNames, (shares.find nm).isSome = true) :
    ∃ P, reconstructExponent q pid t shares = .ok P := by
  induction t, hwf using WellFormed.induction with
  | leaf name h =>
    obtain ⟨P, hP⟩ := Option.isSome_iff_exists.mp (hshares name (by simp [listLeafNames_mk]))
    exact ⟨P, by rw [reconstructExponent, fold_mk, reconstructNode, hP]⟩
  | or name cs h hne ih =>
    cases cs with
    | nil => exact absurd rfl hne
    | cons c cs =>
      obtain ⟨P, hP⟩ := (ih c (by simp)).2 ((forall_mk.mp hpos).2 c (by simp))
        (fun nm hnm => hshares nm (listLeafNames_child_subset (by simp) hnm))
      refine ⟨P, ?_⟩
      rw [reconstructExponent] at hP
      rw [reconstructExponent, fold_mk, reconstructNode, List.map_map, List.map_cons,
        Function.comp_apply, hP]
      rfl
  | and name cs h hne ih =>
    have hloop : ∀ (l : List Node) (acc : M), (∀ c ∈ l, c ∈ cs) → ∃ P,
        (l.map (fun c => (c.name, c.fold (reconstructNode (pointOps q) pid shares)))).foldlM
          (fun x c => do
          let share ← c.2
          (pointOps q).add x share) acc = .ok P := by
      intro l
      induction l with
      | nil => exact fun acc _ => ⟨acc, rfl⟩
      | cons c l ihl =>
        intro acc hsub
        have hc : c ∈ cs := hsub c (by simp)
        obtain ⟨P, hP⟩ := (ih c hc).2 ((forall_mk.mp hpos).2 c hc)
          (fun nm hnm => hshares nm (listLeafNames_child_subset hc hnm))
        rw [reconstructExponent] at hP
        rw [List.map_cons, List.foldlM_cons, hP]
        exact ihl (acc + P) fun d hd => hsub d (by simp [hd])
    obtain ⟨P, hP⟩ := hloop cs 0 fun _ hc => hc
    exact ⟨P, by rw [reconstructExponent, fold_mk]; exact hP⟩
  | threshold name k cs h hk hkn ih =>
    have hc : ∀ c, ∃ P, c ∈ cs → c.fold (reconstructNode (pointOps q) pid shares) = .ok P := by
      intro c
      by_cases hmem : c ∈ cs
      · obtain ⟨P, hP⟩ := (ih c hmem).2 ((forall_mk.mp hpos).2 c hmem)
          (fun nm hnm => hshares nm (listLeafNames_child_subset hmem hnm))
        exact ⟨P, fun _ => hP⟩
      · exact ⟨0, fun hc => absurd hc hmem⟩
    choose f hf using hc
    have hmap : cs.map (fun c => (c.name, c.fold (reconstructNode (pointOps q) pid shares))) =
        cs.map (fun c => (c.name, quorumResult true (f c))) :=
      List.map_congr_left fun c hmem => by rw [hf c hmem]; rfl
    have hlen : ((cs.filter (fun _ => true)).take k).length = k := by simp [hkn]
    have hsub : ((cs.filter (fun _ => true)).take k).Sublist cs :=
      (List.take_sublist _ _).trans List.filter_sublist
    obtain ⟨hnd, hne⟩ := (forall_mk.mp hpos).1 rfl
    have hsound := (pointOps_sound (q := q) (M := M)).interpolate_eq
      (((cs.filter (fun _ => true)).take k).map (fun c => (pid c.name, f c)))
        (by rw [List.length_map, hlen]; omega)
      (fun p hp => by
        obtain ⟨c, hmem, rfl⟩ := List.mem_map.mp hp
        exact pid_ne_zero (hne c.name (List.mem_map_of_mem (hsub.subset hmem))))
      (by
        have hs := hnd.sublist ((hsub.map Node.name).map (pidPos q pid))
        simpa [pidPos, Function.comp_def] using hs)
    have hcollect := collect_eq k cs (fun _ => true) f [] (by simp; omega)
    simp only [List.map_map, Function.comp_def, id] at hsound
    obtain ⟨P, hP⟩ : ∃ P, (pointOps q).interpolate (((cs.filter (fun _ => true)).take k).map f)
        (((cs.filter (fun _ => true)).take k).map (fun c => (pid c.name : ℤ))) = .ok P :=
          ⟨_, hsound⟩
    refine ⟨P, ?_⟩
    rw [reconstructExponent, fold_mk, reconstructNode, hmap, hcollect, ok_bind]
    simp only [List.length_nil, Nat.sub_zero, List.nil_append, List.length_map, hlen,
      lt_irrefl, if_false, List.map_map, Function.comp_def]
    exact hP

/-- Sharing along `t` and reconstructing along any reordering `t'` of it, from the
shares of a set `S`: the secret comes back exactly when `S` is a quorum. -/
theorem reconstruct_share (pid : PName → ℕ) {t t' : Node} (hperm : Permuted t t')
    (hvalid : t.validateTree = .ok ()) (hpos : Positions (pidPos q pid) t)
    (hrange : PidsInRange q pid t) {x : ℤ} (hx : 0 ≤ x ∧ x < q) (rand : Rand q) (S : Finset PName) :
    ∃ shares, share q pid t x rand = .ok shares ∧
      (t.enoughForQuorum S = true → reconstruct q pid t' (shares.filterKeys (· ∈ S)) = .ok x) ∧
      (t.enoughForQuorum S = false →
        reconstruct q pid t' (shares.filterKeys (· ∈ S)) = fail .insufficient) := by
  obtain ⟨hwf, hnd, -⟩ := validateTree_ok hvalid
  have hxr : x = residue (x : ZMod q) := eq_residue_of_isInRange ((isInRange_iff x).mpr hx)
  obtain ⟨τ, hroot, hcons, hshare⟩ := share_eq pid hwf hnd hpos hrange (x : ZMod q) rand
  rw [← hxr] at hshare
  have hrec : reconstruct q pid t'
      ((OrderedMap.ofKeys (fun nm => residue (τ nm)) t.listLeafNames).filterKeys
      (· ∈ S)) = quorumResult (t.enoughForQuorum S) x := by
    have hname : residue (τ t'.name) = x := by rw [← hperm.name_eq, hroot, ← hxr]
    rw [hperm.enoughForQuorum_eq, ← hname]
    refine reconstructNode_eq scalarOps_sound pid S _ τ (hperm.wellFormed hwf) (hpos.permuted hperm)
      (hcons.permuted hperm) fun nm hnm => ?_
    have hleaf : nm ∈ t.listLeafNames := (hperm.mem_listLeafNames nm).mpr hnm
    by_cases h : nm ∈ S <;> simp [h, hleaf]
  refine ⟨_, hshare, fun h => ?_, fun h => ?_⟩
  · rw [hrec, h]
    rfl
  · rw [hrec, h]
    rfl

section Examples

/-- A 2-of-3 root over a leaf, an AND and an OR of leaves. -/
def sampleTree : Node :=
  mk .threshold [] 2 [mk .leaf [97] 0 [], mk .and [98] 0 [mk .leaf [99] 0 [], mk .leaf [100] 0 []],
    mk .or [101] 0 [mk .leaf [102] 0 [], mk .leaf [103] 0 []]]

/-- `sampleTree` with the children of the root reversed and those of the OR exchanged. -/
def sampleTreeReordered : Node :=
  mk .threshold [] 2 [mk .or [101] 0 [mk .leaf [103] 0 [], mk .leaf [102] 0 []],
    mk .and [98] 0 [mk .leaf [99] 0 [], mk .leaf [100] 0 []], mk .leaf [97] 0 []]

def samplePid (nm : PName) : ℕ := (nm.headD 0).val

theorem sampleTree_permuted : Permuted sampleTree sampleTreeReordered := by
  refine .trans (.children (List.reverse_perm _).symm) ?_
  exact .descend (l := []) (.children (List.Perm.swap _ _ _))

instance factPrime1009 : Fact (Nat.Prime 1009) := ⟨by norm_num⟩

instance factPrime7 : Fact (Nat.Prime 7) := ⟨by norm_num⟩

/-- The quorum `{a, f}` of the sample tree recovers 5 and the set `{c, f}` does not. -/
theorem reconstruct_share_sample :
    sampleTree.enoughForQuorum {[97], [102]} = true ∧
    sampleTree.enoughForQuorum {[99], [102]} = false ∧
    ∃ shares shares', share 1009 samplePid sampleTree 5 (Stream'.const 3) = .ok shares ∧
      reconstruct 1009 samplePid sampleTreeReordered
        (shares.filterKeys (· ∈ ({[97], [102]} : Finset PName))) =
        .ok 5 ∧
      share 1009 samplePid sampleTree 5 (Stream'.const 3) = .ok shares' ∧
      reconstruct 1009 samplePid sampleTreeReordered
        (shares'.filterKeys (· ∈ ({[99], [102]} : Finset PName))) =
        fail .insufficient := by
  have hyes : sampleTree.enoughForQuorum {[97], [102]} = true := by decide
  have hno : sampleTree.enoughForQuorum {[99], [102]} = false := by decide
  obtain ⟨s, hs, hrec, -⟩ := reconstruct_share (q := 1009) samplePid sampleTree_permuted (by decide)
    (by decide) (by decide) (x := 5) (by decide) (Stream'.const 3) {[97], [102]}
  obtain ⟨s', hs', -, hrec'⟩ :=
    reconstruct_share (q := 1009) samplePid sampleTree_permuted (by decide)
    (by decide) (by decide) (x := 5) (by decide) (Stream'.const 3) {[99], [102]}
  exact ⟨hyes, hno, s, s', hs, hrec hyes, hs', hrec' hno⟩

/-- A 2-of-2 root whose leaves' pids 8 and 9 are distinct and nonzero mod 7 but not
below 7. -/
def wideTree : Node := mk .threshold [] 2 [mk .leaf [97] 0 [], mk .leaf [98] 0 []]

def widePid (nm : PName) : ℕ := if nm = [97] then 8 else 9

/-- Sharing asserts on pids that are not reduced, so nothing is there to reconstruct. -/
theorem share_wideTree_throws :
    wideTree.validateTree = .ok () ∧ Positions (pidPos 7 widePid) wideTree ∧ Nat.Prime 7 ∧
    (0 ≤ (3 : ℤ) ∧ (3 : ℤ) < 7) ∧
    share 7 widePid wideTree 3 (Stream'.const 1) = throwing .assertionFailed ∧
    ¬ ∃ shares, share 7 widePid wideTree 3 (Stream'.const 1) = .ok shares := by
  have hthrow : share 7 widePid wideTree 3 (Stream'.const 1) =
    throwing .assertionFailed := by decide
  refine ⟨by decide, by decide, by norm_num, by decide, hthrow, ?_⟩
  rintro ⟨shares, h⟩
  rw [hthrow] at h
  simp [throwing] at h

end Examples

end CbMpc
