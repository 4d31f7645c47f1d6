import CbMpc.Reconstruct

/-!
# From access-structure shares to additive shares

`reconstruct_additive_share` and `reconstruct_pub_additive_shares` descend the
tree for one target party and multiply its share by the interpolation weights of
the quorum. They find the target's subtree by a nonzero value and the selected
children by flags, and are instances of one function. Its result on a satisfied
tree is `quorumWeight` times the value of the target's leaf, in both cases.
-/
namespace CbMpc

open Interpolation Node

/-- The arithmetic of the descent. `interpolateOne` is `lagrange_partial_interpolate`
at `0` with a single share. -/
structure AdditiveOps (α : Type) where
  zero : α
  isZero : α → Bool
  interpolateOne : α → ℤ → List ℤ → Outcome α

def additiveScalarOps (q : ℕ) : AdditiveOps ℤ where
  zero := 0
  isZero x := decide (x = 0)
  interpolateOne share pid pids := lagrangePartialInterpolate q 0 [share] [pid] pids

def additivePointOps (q : ℕ) {E : Type} [AddCommGroup E] [Module (ZMod q) E] [DecidableEq E] :
    AdditiveOps E where
  zero := 0
  isZero P := decide (P = 0)
  interpolateOne share pid pids := lagrangePartialInterpolateExponent q 0 [share] [pid] pids

/-- The return value and additive share of a call, and its `is_satisfied` output. -/
abbrev AdditiveResult (α : Type) := Outcome α × Bool

/-- The OR loop: the child whose share is taken, and `is_satisfied` over the children visited. -/
def orSelect {α : Type} :
    List (PName × AdditiveResult α) → Bool → Outcome (Option (PName × α)) × Bool
  | [], satisfied => (.ok none, satisfied)
  | (_, .error e, childSatisfied) :: rest, satisfied =>
    if e = .code .insufficient then orSelect rest (satisfied || childSatisfied)
    else (.error e, satisfied || childSatisfied)
  | (name, .ok share, childSatisfied) :: rest, satisfied =>
    if childSatisfied then (.ok (some (name, share)), satisfied || childSatisfied)
    else orSelect rest (satisfied || childSatisfied)

/-- The AND loop, on `additive_share` and `is_satisfied`. -/
def andLoop {α : Type} (ops : AdditiveOps α) :
    List (PName × AdditiveResult α) → α → Bool → AdditiveResult α
  | [], share, satisfied => (.ok share, satisfied)
  | (_, .error e, childSatisfied) :: _, _, satisfied => (.error e, satisfied && childSatisfied)
  | (_, .ok fromChild, childSatisfied) :: rest, share, satisfied =>
    andLoop ops rest (if ops.isZero fromChild then share else fromChild)
      (satisfied && childSatisfied)

/-- The THRESHOLD loop: the selected children with their shares, and `satisfied_count`. -/
def thresholdSelect {α : Type} (threshold : ℤ) :
    List (PName × AdditiveResult α) → List (PName × α) → ℕ → Outcome (List (PName × α) × ℕ)
  | [], selected, count => .ok (selected, count)
  | (_, .error e, _) :: rest, selected, count =>
    if e = .code .insufficient then thresholdSelect threshold rest selected count else .error e
  | (name, .ok share, childSatisfied) :: rest, selected, count =>
    if !childSatisfied then thresholdSelect threshold rest selected count
    else if (selected.length : ℤ) < threshold then
      thresholdSelect threshold rest (selected ++ [(name, share)]) (count + 1)
    else thresholdSelect threshold rest selected (count + 1)

/-- The last nonzero share among the selected children, with its pid; pid `0` when
there is none. -/
def targetShare {α : Type} (ops : AdditiveOps α) (pid : PName → ℕ)
    (selected : List (PName × α)) : ℤ × α :=
  selected.foldl (fun acc c => if ops.isZero c.2 then acc else ((pid c.1 : ℤ), c.2)) (0, ops.zero)

/-- The body of `reconstruct_additive_share` and `reconstruct_pub_additive_shares`;
`leafShare` is the value read at the target's leaf. -/
def additiveNode {α : Type} (ops : AdditiveOps α) (pid : PName → ℕ)
    (quorum : Finset PName) (target : PName) (leafShare : Outcome α) (type : NodeType)
    (name : PName) (threshold : ℤ) (children : List (PName × AdditiveResult α)) :
    AdditiveResult α :=
  match type with
  | .leaf => (if name = target then leafShare else .ok ops.zero, decide (name ∈ quorum))
  | .or =>
    let selected := orSelect children false
    (do
      let child ← selected.1
      .ok ((child.map Prod.snd).getD ops.zero), selected.2)
  | .and => andLoop ops children ops.zero true
  | .threshold =>
    match thresholdSelect threshold children [] 0 with
    | .error e => (.error e, false)
    | .ok (selected, count) =>
      if (count : ℤ) < threshold then (fail .insufficient, false)
      else
        let share := targetShare ops pid selected
        if share.1 = 0 then (.ok ops.zero, true)
        else (do
          cbAssert (decide ((selected.length : ℤ) = threshold))
          ops.interpolateOne share.2 share.1 (selected.map (fun c => (pid c.1 : ℤ))), true)
  | .none => (fail .crypto, false)

variable {q : ℕ} {E : Type} [AddCommGroup E] [Module (ZMod q) E] [DecidableEq E]

/-- `key_share_mp_t::reconstruct_additive_share`. -/
def reconstructAdditiveShare (pid : PName → ℕ) (key : KeyShareMp q E) (quorum : Finset PName) :
    Node → AdditiveResult ℤ :=
  Node.fold (additiveNode (additiveScalarOps q) pid quorum key.partyName (.ok key.xShare))

/-- `Qis.at(name)`. -/
def leafPoint (key : KeyShareMp q E) (name : PName) : Outcome E :=
  match key.Qis.find name with
  | none => throwing .outOfRange
  | some P => .ok P

/-- `key_share_mp_t::reconstruct_pub_additive_shares`. -/
def reconstructPubAdditiveShares (pid : PName → ℕ) (key : KeyShareMp q E) (quorum : Finset PName)
    (target : PName) : Node → AdditiveResult E :=
  Node.fold (additiveNode (additivePointOps q) pid quorum target (leafPoint key target))

/-- `key_share_mp_t::to_additive_share`. -/
def toAdditiveShare (pid : PName → ℕ) (ac : Node) (quorum : Finset PName) (key : KeyShareMp q E) :
    Outcome (KeyShareMp q E) := do
  require (ac.enoughForQuorum quorum) .insufficient
  let newXShare ← (reconstructAdditiveShare pid key quorum ac).1
  let newQis ← (quorum.sort (· ≤ ·)).foldlM (fun (newQis : OrderedMap PName E) name => do
    let newQi ← (reconstructPubAdditiveShares pid key quorum name ac).1
    .ok (newQis.insert name newQi)) .empty
  .ok { xShare := newXShare, Q := key.Q, Qis := newQis, curve := key.curve,
        partyName := key.partyName }

/-- The children a node takes its share from: at most one for OR, and as many as the
threshold for THRESHOLD. -/
def selectedChildren {α : Type} (f : Node → AdditiveResult α) (s : Node) : List PName :=
  match s.type with
  | .or =>
    match (orSelect (s.children.map (fun c => (c.name, f c))) false).1 with
    | .ok (some c) => [c.1]
    | _ => []
  | .threshold =>
    match thresholdSelect s.threshold (s.children.map (fun c => (c.name, f c))) [] 0 with
    | .ok (selected, _) => selected.map Prod.fst
    | .error _ => []
  | .leaf | .and | .none => []

variable [hq : Fact q.Prime]

/-- The weight that a node gives to each leaf, next to whether the node is satisfied. -/
def weightNode (pid : PName → ℕ) (quorum : Finset PName) (type : NodeType) (name : PName)
    (threshold : ℤ) (children : List (PName × (Bool × (PName → ZMod q)))) :
    Bool × (PName → ZMod q) :=
  (enoughNode quorum type name threshold (children.map (fun c => (c.1, c.2.1))),
    match type with
    | .leaf => fun target => if name = target then 1 else 0
    | .or => fun target => ((children.find? (fun c => c.2.1)).map (fun c => c.2.2 target)).getD 0
    | .and => fun target => (children.map (fun c => c.2.2 target)).sum
    | .threshold => fun target =>
      let selected := (children.filter (fun c => c.2.1)).take threshold.toNat
      (selected.map (fun c =>
        weight (selected.map (fun c => pidPos q pid c.1)) (pidPos q pid c.1) 0 *
        c.2.2 target)).sum
    | .none => fun _ => 0)

/-- The factor by which the quorum multiplies the share of a leaf. -/
def quorumWeight (pid : PName → ℕ) (quorum : Finset PName) (t : Node) (target : PName) : ZMod q :=
  (t.fold (weightNode pid quorum)).2 target

variable {pid : PName → ℕ} {S : Finset PName} {target : PName}

theorem weightNode_fst (t : Node) :
    (t.fold (weightNode (q := q) pid S)).1 = t.enoughForQuorum S := by
  induction t using Node.induction with
  | h type name th cs ih =>
    rw [fold_mk, enoughForQuorum, fold_mk]
    refine congrArg (enoughNode S type name th) ?_
    rw [List.map_map]
    exact List.map_congr_left fun c hc => Prod.ext rfl (ih c hc)

theorem quorumWeight_leaf (name : PName) :
    quorumWeight (q := q) pid S (mk .leaf name 0 []) target = if name = target then 1 else 0 := by
  rw [quorumWeight, fold_mk]
  rfl

theorem quorumWeight_or (name : PName) (cs : List Node) :
    quorumWeight (q := q) pid S (mk .or name 0 cs) target =
      ((cs.find? (enoughForQuorum S)).map (fun c => quorumWeight pid S c target)).getD 0 := by
  have hf : (fun c : Node => (c.fold (weightNode (q := q) pid S)).1) = enoughForQuorum S :=
    funext fun c => weightNode_fst c
  rw [quorumWeight, fold_mk, weightNode]
  simp only [List.find?_map, Function.comp_def, hf, Option.map_map]
  rfl

theorem quorumWeight_and (name : PName) (cs : List Node) :
    quorumWeight (q := q) pid S (mk .and name 0 cs) target =
      (cs.map (fun c => quorumWeight pid S c target)).sum := by
  rw [quorumWeight, fold_mk, weightNode]
  simp only [List.map_map]
  rfl

/-- The children selected at a THRESHOLD node. -/
def selectedAt (S : Finset PName) (k : ℕ) (cs : List Node) : List Node :=
  (cs.filter (enoughForQuorum S)).take k

theorem quorumWeight_threshold (name : PName) (k : ℕ) (cs : List Node) :
    quorumWeight (q := q) pid S (mk .threshold name k cs) target =
      ((selectedAt S k cs).map (fun c =>
        weight ((selectedAt S k cs).map (fun c => pidPos q pid c.name))
        (pidPos q pid c.name) 0 * quorumWeight pid S c target)).sum := by
  have hf : (fun c : Node => (c.fold (weightNode (q := q) pid S)).1) = enoughForQuorum S :=
    funext fun c => weightNode_fst c
  rw [quorumWeight, fold_mk, weightNode]
  simp only [List.filter_map, Function.comp_def, hf, Int.toNat_natCast, ← List.map_take,
    List.map_map]
  rfl

theorem quorumWeight_eq_zero {t : Node} (hwf : t.WellFormed) (h : target ∉ t.listLeafNames) :
    quorumWeight (q := q) pid S t target = 0 := by
  induction t, hwf using WellFormed.induction with
  | leaf name _ =>
    rw [listLeafNames_mk] at h
    rw [quorumWeight_leaf, if_neg]
    rintro rfl
    simp at h
  | or name cs _ _ ih =>
    rw [quorumWeight_or]
    cases hfind : cs.find? (enoughForQuorum S) with
    | none => rfl
    | some c =>
      have hc := List.mem_of_find?_eq_some hfind
      exact (ih c hc).2 fun hmem => h (listLeafNames_child_subset hc hmem)
  | and name cs _ _ ih =>
    rw [quorumWeight_and]
    refine List.sum_eq_zero fun x hx => ?_
    obtain ⟨c, hc, rfl⟩ := List.mem_map.mp hx
    exact (ih c hc).2 fun hmem => h (listLeafNames_child_subset hc hmem)
  | threshold name k cs _ _ _ ih =>
    rw [quorumWeight_threshold]
    refine List.sum_eq_zero fun x hx => ?_
    obtain ⟨c, hc, rfl⟩ := List.mem_map.mp hx
    have hmem : c ∈ cs := List.mem_of_mem_filter (List.mem_of_mem_take hc)
    rw [(ih c hmem).2 fun hn => h (listLeafNames_child_subset hmem hn), mul_zero]

theorem sum_list_comm {M ι : Type} [AddCommMonoid M] (s : Finset PName)
    (l : List ι) (f : ι → PName → M) :
    ∑ p ∈ s, (l.map (fun i => f i p)).sum = (l.map (fun i => ∑ p ∈ s, f i p)).sum := by
  induction l with
  | nil => simp
  | cons i l ih => simp [Finset.sum_add_distrib, ih]

theorem list_sum_smul {M ι : Type} [AddCommGroup M] [Module (ZMod q) M]
    (l : List ι) (f : ι → ZMod q) (v : M) : (l.map f).sum • v = (l.map (fun i => f i • v)).sum := by
  induction l with
  | nil => simp
  | cons i l ih => simp [add_smul, ih]

/-- The weighted shares of a quorum add up to the value at the root. -/
theorem sum_quorumWeight {M : Type} [AddCommGroup M] [Module (ZMod q) M] {τ : PName → M} {t : Node}
    (hwf : t.WellFormed) (hpos : Positions (pidPos q pid) t) (hτ : Consistent (pidPos q pid) τ t)
    (hS : t.enoughForQuorum S = true) :
    ∑ p ∈ S, quorumWeight (q := q) pid S t p • τ p = τ t.name := by
  induction t, hwf using WellFormed.induction with
  | leaf name _ =>
    have hmem : name ∈ S := by simpa using hS
    simp only [quorumWeight_leaf]
    simp [hmem]
  | or name cs _ _ ih =>
    obtain ⟨hl, hτc⟩ := forall_mk.mp hτ
    rw [enoughForQuorum_or, List.any_eq_true] at hS
    obtain ⟨c, hfind⟩ := Option.isSome_iff_exists.mp (List.find?_isSome.mpr hS)
    have hc := List.mem_of_find?_eq_some hfind
    have hsum := (ih c hc).2 ((forall_mk.mp hpos).2 c hc) (hτc c hc) (List.find?_some hfind)
    simp only [quorumWeight_or, hfind, Option.map_some, Option.getD_some, hsum]
    exact hl c.name (List.mem_map_of_mem hc)
  | and name cs _ _ ih =>
    obtain ⟨hl, hτc⟩ := forall_mk.mp hτ
    rw [enoughForQuorum_and, List.all_eq_true] at hS
    have hchild : ∀ c ∈ cs, ∑ p ∈ S, quorumWeight (q := q) pid S c p • τ p = τ c.name := fun c hc =>
      (ih c hc).2 ((forall_mk.mp hpos).2 c hc) (hτc c hc) (hS c hc)
    have hl' : ((cs.map Node.name).map τ).sum = τ name := hl
    simp only [quorumWeight_and, list_sum_smul, sum_list_comm]
    rw [List.map_congr_left hchild, name_mk, ← hl', List.map_map]
    rfl
  | threshold name k cs _ hk hkn ih =>
    obtain ⟨hl, hτc⟩ := forall_mk.mp hτ
    rw [enoughForQuorum_threshold name hk, decide_eq_true_iff] at hS
    have hsub : (selectedAt S k cs).Sublist cs := (List.take_sublist _ _).trans List.filter_sublist
    have hlen : (selectedAt S k cs).length = k := by
      rw [selectedAt, List.length_take, ← List.countP_eq_length_filter]
      omega
    have hchild : ∀ c ∈ selectedAt S k cs, ∑ p ∈ S,
        quorumWeight (q := q) pid S c p • τ p = τ c.name := by
      intro c hc
      have hf := List.mem_filter.mp (List.mem_of_mem_take hc)
      exact (ih c hf.1).2 ((forall_mk.mp hpos).2 c hf.1) (hτc c hf.1) hf.2
    simp only [quorumWeight_threshold, list_sum_smul, sum_list_comm, mul_smul, ← Finset.smul_sum]
    rw [name_mk, ← hl.sum_weight (forall_mk.mp hpos).1 hsub hlen]
    exact congrArg List.sum (List.map_congr_left fun c hc => by rw [hchild c hc])

section Descent

variable {M α : Type} [AddCommGroup M] [Module (ZMod q) M]

/-- The operations compute in the vector space `M`, through its representation `embed`. -/
structure AdditiveOps.Sound (ops : AdditiveOps α) (embed : M → α) : Prop where
  zero_eq : ops.zero = embed 0
  isZero_iff : ∀ a, ops.isZero (embed a) = true ↔ a = 0
  interpolateOne_eq : ∀ (nodes : List ℕ) (p : ℕ) (a : M), p ∈ nodes → (∀ r ∈ nodes, r ≠ 0) →
    (nodes.map (fun r : ℕ => (r : ZMod q))).Nodup →
    ops.interpolateOne (embed a) (p : ℤ) (nodes.map (fun r : ℕ => (r : ℤ))) =
      .ok (embed (weight (nodes.map (fun r : ℕ => (r : ZMod q))) (p : ZMod q) 0 • a))

theorem additiveScalarOps_sound : (additiveScalarOps q).Sound (q := q) (residue : ZMod q → ℤ) where
  zero_eq := residue_zero.symm
  isZero_iff a := by simp [additiveScalarOps]
  interpolateOne_eq nodes p a hp hne hnd := by
    obtain ⟨hpos, hinj⟩ := pids_positive_injective nodes hne hnd
    have h := lagrangePartialInterpolate_eq (q := q) 0 (nodes.map (fun r : ℕ => (r : ℤ))) hpos hinj
      [((p : ℤ), a)] (by simpa using hp) (List.length_pos_of_mem (List.mem_map_of_mem hp))
    simpa [additiveScalarOps, nodesOf, Function.comp_def] using h

theorem additivePointOps_sound [DecidableEq M] :
    (additivePointOps q).Sound (q := q) (id : M → M) where
  zero_eq := rfl
  isZero_iff a := by simp [additivePointOps]
  interpolateOne_eq nodes p a hp hne hnd := by
    obtain ⟨hpos, hinj⟩ := pids_positive_injective nodes hne hnd
    have h := lagrangePartialInterpolateExponent_eq (q := q) 0
      (nodes.map (fun r : ℕ => (r : ℤ))) hpos hinj
      [((p : ℤ), a)] (by simpa using hp) (List.length_pos_of_mem (List.mem_map_of_mem hp)) (by simp)
    simpa [additivePointOps, nodesOf, Function.comp_def] using h

/-- What a call may return: the value `u` of a satisfied subtree, or something its
parent will not use. -/
def AdditiveSpec (embed : M → α) (enough : Bool) (u : M) (r : AdditiveResult α) : Prop :=
  r.2 = enough ∧
    if enough then r.1 = .ok (embed u) else (∃ u', r.1 = .ok (embed u')) ∨ r.1 = fail .insufficient

variable {embed : M → α} {r : Node → AdditiveResult α} {u : Node → M}

omit [AddCommGroup M] in
theorem orSelect_eq (l : List Node) (satisfied : Bool)
    (h : ∀ c ∈ l, AdditiveSpec embed (c.enoughForQuorum S) (u c) (r c)) :
    orSelect (l.map (fun c => (c.name, r c))) satisfied =
      (.ok ((l.find? (enoughForQuorum S)).map (fun c => (c.name, embed (u c)))),
        satisfied || l.any (enoughForQuorum S)) := by
  induction l generalizing satisfied with
  | nil => simp [orSelect]
  | cons c l ih =>
    have ih' := fun b => ih b (fun d hd => h d (by simp [hd]))
    obtain ⟨hflag, hval⟩ := h c (by simp)
    obtain ⟨rv, flag⟩ : AdditiveResult α := r c
    generalize hr : r c = res at hflag hval
    obtain ⟨rv, flag⟩ := res
    simp only at hflag hval
    by_cases hen : c.enoughForQuorum S
    · simp only [hen, if_true] at hval hflag
      simp [hr, hval, hflag, orSelect, hen]
    · simp only [hen, Bool.false_eq_true, if_false] at hval hflag
      rcases hval with ⟨u', hu'⟩ | hins
      · simp [hr, hu', hflag, orSelect, hen, ih']
      · simp [hr, hins, hflag, orSelect, hen, ih', fail]

omit [AddCommGroup M] in
theorem thresholdSelect_eq (k : ℕ) (l : List Node) (selected : List (PName × α)) (count : ℕ)
    (hlen : selected.length ≤ k)
    (h : ∀ c ∈ l, AdditiveSpec embed (c.enoughForQuorum S) (u c) (r c)) :
    thresholdSelect k (l.map (fun c => (c.name, r c))) selected count =
      .ok (selected ++ (selectedAt S (k - selected.length) l).map (fun c => (c.name, embed (u c))),
        count + l.countP (enoughForQuorum S)) := by
  induction l generalizing selected count with
  | nil => simp [thresholdSelect, selectedAt]
  | cons c l ih =>
    have hl := fun d hd => h d (List.mem_cons_of_mem c hd)
    obtain ⟨hflag, hval⟩ := h c (by simp)
    generalize hr : r c = res at hflag hval
    obtain ⟨rv, flag⟩ := res
    simp only at hflag hval
    by_cases hen : c.enoughForQuorum S
    · simp only [hen, if_true] at hval hflag
      rw [List.map_cons, hr, hval, hflag]
      by_cases hlt : selected.length < k
      · have hsel : selectedAt S (k - selected.length) (c :: l) =
            c :: selectedAt S (k - (selected ++ [(c.name, embed (u c))]).length) l := by
          have hs : k - selected.length = (k - (selected.length + 1)) + 1 := by omega
          simp [selectedAt, hen, hs]
        have hlt' : (selected.length : ℤ) < k := by omega
        simp only [thresholdSelect, Bool.not_true, Bool.false_eq_true, if_false, hlt', if_true]
        rw [ih _ _ (by simp; omega) hl, hsel]
        simp [hen]
        omega
      · have hz : k - selected.length = 0 := by omega
        have hlt' : ¬(selected.length : ℤ) < k := by omega
        simp only [thresholdSelect, Bool.not_true, Bool.false_eq_true, if_false, hlt']
        rw [ih _ _ hlen hl]
        simp [hen, selectedAt, hz]
        omega
    · simp only [hen, Bool.false_eq_true, if_false] at hval hflag
      rw [List.map_cons, hr, hflag]
      rcases hval with ⟨u', hu'⟩ | hins
      · simp [hu', thresholdSelect, hen, ih _ _ hlen hl, selectedAt]
      · simp [hins, fail, thresholdSelect, hen, ih _ _ hlen hl, selectedAt]

/-- The flag and the error behaviour of the AND loop. -/
theorem andLoop_spec (ops : AdditiveOps α) (l : List Node) (acc : M) (satisfied : Bool)
    (h : ∀ c ∈ l, AdditiveSpec embed (c.enoughForQuorum S) (u c) (r c)) :
    (andLoop ops (l.map (fun c => (c.name, r c))) (embed acc) satisfied).2 =
        (satisfied && l.all (enoughForQuorum S)) ∧
      ((∃ u', (andLoop ops (l.map (fun c => (c.name, r c))) (embed acc) satisfied).1 =
        .ok (embed u')) ∨
        (andLoop ops (l.map (fun c => (c.name, r c))) (embed acc) satisfied).1 =
          fail .insufficient) := by
  induction l generalizing acc satisfied with
  | nil => exact ⟨by simp [andLoop], .inl ⟨acc, rfl⟩⟩
  | cons c l ih =>
    have ih' := fun a b => ih a b (fun d hd => h d (by simp [hd]))
    obtain ⟨hflag, hval⟩ := h c (by simp)
    generalize hr : r c = res at hflag hval
    obtain ⟨rv, flag⟩ := res
    simp only at hflag hval
    have hok : (∃ u', rv = .ok (embed u')) ∨
        (c.enoughForQuorum S = false ∧ rv = fail .insufficient) := by
      cases hen : c.enoughForQuorum S with
      | true =>
        rw [hen] at hval
        exact .inl ⟨u c, hval⟩
      | false =>
        rw [hen] at hval
        exact hval.imp id fun hf => ⟨rfl, hf⟩
    rcases hok with ⟨u', hu'⟩ | ⟨hen, hins⟩
    · simp only [List.map_cons, hr, hu', hflag, andLoop, List.all_cons, ← Bool.and_assoc]
      split
      · exact ih' acc _
      · exact ih' u' _
    · simp [hr, hins, hflag, hen, andLoop, fail]

/-- When at most one child has a nonzero value, the AND loop ends with the sum. -/
theorem andLoop_sum {ops : AdditiveOps α} (hops : ops.Sound (q := q) embed)
    (l : List Node) (acc : M) (hr : ∀ c ∈ l, r c = (.ok (embed (u c)), true))
    (hone : l.Pairwise (fun c d => u c = 0 ∨ u d = 0)) (hacc : acc = 0 ∨ ∀ c ∈ l, u c = 0) :
    andLoop ops (l.map (fun c => (c.name, r c))) (embed acc) true =
      (.ok (embed (acc + (l.map u).sum)), true) := by
  induction l generalizing acc with
  | nil => simp [andLoop]
  | cons c l ih =>
    obtain ⟨hc, hl⟩ := List.pairwise_cons.mp hone
    have hr' := fun d hd => hr d (List.mem_cons_of_mem c hd)
    rw [List.map_cons, hr c (by simp)]
    simp only [andLoop, Bool.true_and, List.map_cons, List.sum_cons]
    by_cases hz : u c = 0
    · rw [if_pos ((hops.isZero_iff _).mpr hz), ih acc hr' hl ?_, hz, zero_add]
      exact hacc.imp id fun h d hd => h d (by simp [hd])
    · have hacc0 : acc = 0 := hacc.resolve_right fun h => hz (h c (by simp))
      rw [if_neg (fun h => hz ((hops.isZero_iff _).mp h)), ih (u c) hr' hl
        (.inr fun d hd => (hc d hd).resolve_left hz), hacc0, zero_add]

/-- The share found among the selected children stands for all of them. -/
theorem targetShare_eq {ops : AdditiveOps α} (hops : ops.Sound (q := q) embed)
    (pid : PName → ℕ) (l : List Node) (hone : l.Pairwise (fun c d => u c = 0 ∨ u d = 0)) :
    (targetShare ops pid (l.map (fun c => (c.name, embed (u c)))) = (0, ops.zero) ∧ ∀ c ∈ l,
      u c = 0) ∨
    ∃ c ∈ l, targetShare ops pid (l.map (fun c => (c.name, embed (u c)))) =
      ((pid c.name : ℤ), embed (u c)) ∧
      ∀ f : Node → ZMod q, (l.map (fun d => f d • u d)).sum = f c • u c := by
  have hskip : ∀ (l : List Node) (acc : ℤ × α), (∀ c ∈ l, u c = 0) →
      (l.map (fun c => (c.name, embed (u c)))).foldl
        (fun acc c => if ops.isZero c.2 then acc else ((pid c.1 : ℤ), c.2)) acc = acc := by
    intro l
    induction l with
    | nil => intros; rfl
    | cons c l ih =>
      intro acc hl
      have hz : ops.isZero (embed (u c)) = true := (hops.isZero_iff _).mpr (hl c (by simp))
      simp only [List.map_cons, List.foldl_cons, hz, if_true]
      exact ih acc fun d hd => hl d (by simp [hd])
  by_cases hall : ∀ c ∈ l, u c = 0
  · exact .inl ⟨hskip l _ hall, hall⟩
  · obtain ⟨c, hc, hne⟩ : ∃ c ∈ l, u c ≠ 0 := by simpa using hall
    obtain ⟨l₁, l₂, rfl⟩ := List.append_of_mem hc
    obtain ⟨-, h₂, h₁₂⟩ := List.pairwise_append.mp hone
    have hz₁ : ∀ d ∈ l₁, u d = 0 := fun d hd => (h₁₂ d hd c (by simp)).resolve_right hne
    have hz₂ : ∀ d ∈ l₂, u d = 0 := fun d hd =>
      ((List.pairwise_cons.mp h₂).1 d hd).resolve_left hne
    refine .inr ⟨c, hc, ?_, fun f => ?_⟩
    · have hnz : ¬ops.isZero (embed (u c)) = true := fun h => hne ((hops.isZero_iff _).mp h)
      rw [targetShare, List.map_append, List.foldl_append, hskip l₁ _ hz₁, List.map_cons,
        List.foldl_cons, if_neg hnz, hskip l₂ _ hz₂]
    · have hs : ∀ l' : List Node, (∀ d ∈ l', u d = 0) → (l'.map (fun d => f d • u d)).sum = 0 := by
        intro l' hl'
        refine List.sum_eq_zero fun x hx => ?_
        obtain ⟨d, hd, rfl⟩ := List.mem_map.mp hx
        rw [hl' d hd, smul_zero]
      rw [List.map_append, List.sum_append, List.map_cons, List.sum_cons, hs l₁ hz₁,
        hs l₂ hz₂, zero_add, add_zero]

/-- A name is a leaf below at most one of the children. -/
theorem pairwise_one_target {type : NodeType} {name : PName} {th : ℤ} {cs : List Node}
    (hwf : (mk type name th cs).WellFormed) (hnd : (mk type name th cs).names.Nodup) {v : M} :
    cs.Pairwise (fun c d => quorumWeight (q := q) pid S c target • v = 0 ∨
      quorumWeight (q := q) pid S d target • v = 0) := by
  refine (pairwise_disjoint_children hnd).imp_of_mem fun {c d} hc hd hdisj => ?_
  by_cases hm : target ∈ c.listLeafNames
  · right
    rw [quorumWeight_eq_zero ((forall_mk.mp hwf).2 d hd), zero_smul]
    exact fun hm' => hdisj (listLeafNames_subset c hm) (listLeafNames_subset d hm')
  · left
    rw [quorumWeight_eq_zero ((forall_mk.mp hwf).2 c hc) hm, zero_smul]

section Children

variable {ops : AdditiveOps α} (hops : ops.Sound (q := q) embed) {name : PName} {cs : List Node}
  {v : M} {leafShare : Outcome α}
include hops

/-- An OR node passes on what its first satisfied child yields. -/
theorem additiveNode_or
    (hc : ∀ c ∈ cs, AdditiveSpec embed (c.enoughForQuorum S)
      (quorumWeight (q := q) pid S c target • v)
      (c.fold (additiveNode ops pid S target leafShare))) :
    AdditiveSpec embed ((mk .or name 0 cs).enoughForQuorum S)
      (quorumWeight (q := q) pid S (mk .or name 0 cs) target • v)
      ((mk .or name 0 cs).fold (additiveNode ops pid S target leafShare)) := by
  rw [fold_mk, additiveNode, orSelect_eq cs false hc, enoughForQuorum_or, quorumWeight_or]
  cases hfind : cs.find? (enoughForQuorum S) with
  | none =>
    have hany : cs.any (enoughForQuorum S) = false := by
      simpa using List.find?_eq_none.mp hfind
    simp only [hany]
    exact ⟨rfl, .inl ⟨0, by simp [hops.zero_eq]⟩⟩
  | some c =>
    have hany : cs.any (enoughForQuorum S) = true :=
      List.any_eq_true.mpr ⟨c, List.mem_of_find?_eq_some hfind, List.find?_some hfind⟩
    simp only [hany]
    exact ⟨rfl, rfl⟩

/-- An AND node adds up what its children yield, of which one has the target below it. -/
theorem additiveNode_and (h : (mk .and name 0 cs).WellFormed)
    (hnd : (mk .and name 0 cs).names.Nodup)
    (hc : ∀ c ∈ cs, AdditiveSpec embed (c.enoughForQuorum S)
      (quorumWeight (q := q) pid S c target • v)
      (c.fold (additiveNode ops pid S target leafShare))) :
    AdditiveSpec embed ((mk .and name 0 cs).enoughForQuorum S)
      (quorumWeight (q := q) pid S (mk .and name 0 cs) target • v)
      ((mk .and name 0 cs).fold (additiveNode ops pid S target leafShare)) := by
  rw [fold_mk, additiveNode, hops.zero_eq, enoughForQuorum_and, quorumWeight_and]
  cases hall : cs.all (enoughForQuorum S) with
  | false =>
    obtain ⟨hflag, hval⟩ := andLoop_spec ops cs 0 true hc
    exact ⟨by rw [hflag, hall]; rfl, hval⟩
  | true =>
    have hres : ∀ c ∈ cs, c.fold (additiveNode ops pid S target leafShare) =
        (.ok (embed (quorumWeight (q := q) pid S c target • v)), true) := by
      intro c hcm
      have hen := List.all_eq_true.mp hall c hcm
      obtain ⟨hflag, hval⟩ := hc c hcm
      rw [hen] at hflag hval
      exact Prod.ext hval hflag
    rw [andLoop_sum hops cs 0 hres (pairwise_one_target h hnd) (.inl rfl), zero_add,
      list_sum_smul]
    exact ⟨rfl, rfl⟩

/-- A THRESHOLD node interpolates what its first satisfied children yield. -/
theorem additiveNode_threshold {k : ℕ} (h : (mk .threshold name k cs).WellFormed) (hk : 1 ≤ k)
    (hnd : (mk .threshold name k cs).names.Nodup)
    (hpos : Positions (pidPos q pid) (mk .threshold name k cs))
    (hc : ∀ c ∈ cs, AdditiveSpec embed (c.enoughForQuorum S)
      (quorumWeight (q := q) pid S c target • v)
      (c.fold (additiveNode ops pid S target leafShare))) :
    AdditiveSpec embed ((mk .threshold name k cs).enoughForQuorum S)
      (quorumWeight (q := q) pid S (mk .threshold name k cs) target • v)
      ((mk .threshold name k cs).fold (additiveNode ops pid S target leafShare)) := by
  rw [fold_mk, additiveNode, thresholdSelect_eq k cs [] 0 (by simp) hc,
    enoughForQuorum_threshold name hk, quorumWeight_threshold]
  simp only [List.nil_append, List.length_nil, Nat.sub_zero, zero_add]
  by_cases hen : k ≤ cs.countP (enoughForQuorum S)
  · have hsub : (selectedAt S k cs).Sublist cs :=
      (List.take_sublist _ _).trans List.filter_sublist
    have hlen : (selectedAt S k cs).length = k := by
      rw [selectedAt, List.length_take, ← List.countP_eq_length_filter]
      omega
    obtain ⟨hndp, hne⟩ := (forall_mk.mp hpos).1 rfl
    have hnz : ∀ c ∈ selectedAt S k cs, pid c.name ≠ 0 := fun c hcm =>
      pid_ne_zero (hne c.name (List.mem_map_of_mem (hsub.subset hcm)))
    rw [if_neg (by omega)]
    refine ⟨by simp [hen]; split <;> rfl, ?_⟩
    simp only [hen, decide_true, if_true, list_sum_smul, mul_smul]
    rcases targetShare_eq hops pid (selectedAt S k cs)
      ((pairwise_one_target (q := q) h hnd).sublist hsub) with ⟨hts, hz⟩ | ⟨c, hcm, hts, hsum⟩
    · rw [hts, if_pos rfl]
      have hzero : ((selectedAt S k cs).map (fun c =>
          weight ((selectedAt S k cs).map (fun c => pidPos q pid c.name))
            (pidPos q pid c.name) 0 •
            quorumWeight (q := q) pid S c target • v)).sum = 0 := by
        refine List.sum_eq_zero fun x hx => ?_
        obtain ⟨c, hcm, rfl⟩ := List.mem_map.mp hx
        rw [hz c hcm, smul_zero]
      rw [hzero, hops.zero_eq]
    · have hpid : ¬((pid c.name : ℤ) = 0) := by exact_mod_cast hnz c hcm
      have hint := hops.interpolateOne_eq
        ((selectedAt S k cs).map (fun c => pid c.name)) (pid c.name)
        (quorumWeight (q := q) pid S c target • v) (List.mem_map_of_mem hcm)
        (fun r hr => by
          obtain ⟨d, hd, rfl⟩ := List.mem_map.mp hr
          exact hnz d hd)
        (by
          have hs := hndp.sublist ((hsub.map Node.name).map (pidPos q pid))
          simpa [pidPos, Function.comp_def] using hs)
      simp only [List.map_map, Function.comp_def] at hint
      rw [hts, if_neg hpid]
      simp only [List.length_map, hlen, decide_true, cbAssert_true, ok_bind, List.map_map,
        Function.comp_def, hint]
      rw [hsum (fun c => weight ((selectedAt S k cs).map (fun c => pidPos q pid c.name))
        (pidPos q pid c.name) 0)]
      rfl
  · rw [if_pos (by omega)]
    simp only [hen, decide_false]
    exact ⟨rfl, .inr rfl⟩

end Children

/-- The descent for one target, on every node: a satisfied subtree yields the weight
times the target's value, an unsatisfied one nothing that is used. -/
theorem additiveNode_spec {ops : AdditiveOps α} (hops : ops.Sound (q := q) embed) {t : Node}
    (hwf : t.WellFormed) (hnd : t.names.Nodup) (hpos : Positions (pidPos q pid) t) (target : PName)
    (v : M) (leafShare : Outcome α) (hleaf : target ∈ t.listLeafNames → leafShare = .ok (embed v)) :
    AdditiveSpec embed (t.enoughForQuorum S) (quorumWeight (q := q) pid S t target • v)
      (t.fold (additiveNode ops pid S target leafShare)) := by
  induction t, hwf using WellFormed.induction with
  | leaf name _ =>
    rw [fold_mk, additiveNode, quorumWeight_leaf, enoughForQuorum_leaf]
    by_cases hn : name = target
    · subst hn
      have hls := hleaf (by simp [listLeafNames_mk])
      by_cases hS : name ∈ S <;> simp [AdditiveSpec, hls, hS]
    · by_cases hS : name ∈ S <;> simp [AdditiveSpec, hn, hS, hops.zero_eq]
  | or name cs h _ ih =>
    exact additiveNode_or hops fun c hc => (ih c hc).2 (nodup_child hnd c hc)
      ((forall_mk.mp hpos).2 c hc) fun hm => hleaf (listLeafNames_child_subset hc hm)
  | and name cs h _ ih =>
    exact additiveNode_and hops h hnd fun c hc => (ih c hc).2 (nodup_child hnd c hc)
      ((forall_mk.mp hpos).2 c hc) fun hm => hleaf (listLeafNames_child_subset hc hm)
  | threshold name k cs h hk _ ih =>
    exact additiveNode_threshold hops h hk hnd hpos fun c hc => (ih c hc).2 (nodup_child hnd c hc)
      ((forall_mk.mp hpos).2 c hc) fun hm => hleaf (listLeafNames_child_subset hc hm)

/-- Which children are selected does not depend on the values, only on the quorum. -/
theorem selectedChildren_eq {ops : AdditiveOps α} (hops : ops.Sound (q := q) embed) {t : Node}
    (hwf : t.WellFormed) (hnd : t.names.Nodup) (hpos : Positions (pidPos q pid) t) (target : PName)
    (v : M) (leafShare : Outcome α) (hleaf : target ∈ t.listLeafNames → leafShare = .ok (embed v)) :
    selectedChildren (Node.fold (additiveNode ops pid S target leafShare)) t =
      match t.type with
      | .or => ((t.children.find? (enoughForQuorum S)).map Node.name).toList
      | .threshold => (selectedAt S t.threshold.toNat t.children).map Node.name
      | .leaf | .and | .none => [] := by
  obtain ⟨type, name, th, cs⟩ := t
  have hc : ∀ c ∈ cs, AdditiveSpec embed (c.enoughForQuorum S)
      (quorumWeight (q := q) pid S c target • v)
      (c.fold (additiveNode ops pid S target leafShare)) := fun c hc =>
    additiveNode_spec hops ((forall_mk.mp hwf).2 c hc) (nodup_child hnd c hc)
      ((forall_mk.mp hpos).2 c hc)
      target v leafShare (fun hm => hleaf (listLeafNames_child_subset hc hm))
  cases type with
  | none => rfl
  | leaf => rfl
  | and => rfl
  | or =>
    simp only [selectedChildren, type_mk, children_mk, orSelect_eq cs false hc]
    cases cs.find? (enoughForQuorum S) <;> rfl
  | threshold =>
    obtain ⟨h1, -⟩ : 1 ≤ th ∧ th ≤ cs.length := (forall_mk.mp hwf).1
    obtain ⟨k, rfl⟩ := Int.eq_ofNat_of_zero_le (by omega : 0 ≤ th)
    simp [selectedChildren, thresholdSelect_eq k cs [] 0 (by simp) hc, Function.comp_def]

end Descent

section Conversion

variable {curve : Curve q E} {t : Node} {τ : PName → ZMod q} {p : PName} {key : KeyShareMp q E}

omit [DecidableEq E] in
theorem reconstructAdditiveShare_eq (hwf : t.WellFormed) (hnd : t.names.Nodup)
    (hpos : Positions (pidPos q pid) t) (hS : t.enoughForQuorum S = true)
    (hkey : HoldsShare curve t τ p key) :
    (reconstructAdditiveShare pid key S t).1 = .ok (residue (quorumWeight pid S t p * τ p)) := by
  have h := additiveNode_spec (S := S) additiveScalarOps_sound hwf hnd hpos key.partyName (τ p)
    (.ok key.xShare) (fun _ => by rw [hkey.share_eq])
  rw [hS, hkey.name_eq] at h
  simpa [reconstructAdditiveShare, hkey.name_eq] using h.2

theorem reconstructPubAdditiveShares_eq (hwf : t.WellFormed) (hnd : t.names.Nodup)
    (hpos : Positions (pidPos q pid) t) (hS : t.enoughForQuorum S = true)
    (hkey : HoldsShare curve t τ p key) (target : PName) :
    (reconstructPubAdditiveShares pid key S target t).1 =
      .ok ((quorumWeight pid S t target * τ target) • curve.generator) := by
  have h := additiveNode_spec (S := S) additivePointOps_sound hwf hnd hpos target
    (τ target • curve.generator)
    (leafPoint key target) (fun hm => by simp [leafPoint, hkey.Qis_eq target hm])
  rw [hS] at h
  simpa [reconstructPubAdditiveShares, smul_smul] using h.2

/-- The key share that the conversion yields at party `p`. -/
def additiveKey (pid : PName → ℕ) (S : Finset PName) (curve : Curve q E)
    (t : Node) (τ : PName → ZMod q) (p : PName) (key : KeyShareMp q E) : KeyShareMp q E where
  xShare := residue (quorumWeight pid S t p * τ p)
  Q := key.Q
  Qis := .ofKeys (fun nm => (quorumWeight pid S t nm * τ nm) • curve.generator) (S.sort (· ≤ ·))
  curve := key.curve
  partyName := key.partyName

theorem toAdditiveShare_eq (hwf : t.WellFormed) (hnd : t.names.Nodup)
    (hpos : Positions (pidPos q pid) t) (hS : t.enoughForQuorum S = true)
    (hkey : HoldsShare curve t τ p key) :
    toAdditiveShare pid t S key = .ok (additiveKey pid S curve t τ p key) := by
  have hloop : ∀ (l : List PName) (m : OrderedMap PName E),
      l.foldlM (fun (newQis : OrderedMap PName E) name => do
        let newQi ← (reconstructPubAdditiveShares pid key S name t).1
        .ok (newQis.insert name newQi)) m = Except.ok (ε := Failure)
        (m.insertAll (fun nm => (quorumWeight pid S t nm * τ nm) • curve.generator) l) := by
    intro l
    induction l with
    | nil => intro m; rfl
    | cons nm l ih =>
      intro m
      rw [List.foldlM_cons, reconstructPubAdditiveShares_eq hwf hnd hpos hS hkey nm]
      exact ih _
  rw [toAdditiveShare, hS, require_true, ok_bind,
    reconstructAdditiveShare_eq hwf hnd hpos hS hkey, ok_bind, hloop]
  rfl

omit [DecidableEq E] in
theorem additiveKey_sum (hwf : t.WellFormed) (hpos : Positions (pidPos q pid) t)
    (hτ : Consistent (pidPos q pid) τ t) (hS : t.enoughForQuorum S = true)
    (keys : PName → KeyShareMp q E) :
    ∑ p ∈ S, ((additiveKey pid S curve t τ p (keys p)).xShare : ZMod q) = τ t.name := by
  simpa [additiveKey] using sum_quorumWeight (M := ZMod q) hwf hpos hτ hS

omit [DecidableEq E] in
theorem additiveKey_Qis_find {r : PName} (hp : p ∈ S) (key' : KeyShareMp q E) :
    (additiveKey pid S curve t τ r key').Qis.find p =
      some (((additiveKey pid S curve t τ p key).xShare : ZMod q) • curve.generator) := by
  simp [additiveKey, hp]

omit [DecidableEq E] in
theorem additiveKey_Qis_sum (hwf : t.WellFormed) (hpos : Positions (pidPos q pid) t)
    (hτ : Consistent (pidPos q pid) τ t) (hS : t.enoughForQuorum S = true)
    (hQ : key.Q = τ t.name • curve.generator) :
    (additiveKey pid S curve t τ p key).Qis.values.sum =
      (additiveKey pid S curve t τ p key).Q := by
  have hsum := sum_quorumWeight (M := ZMod q) hwf hpos hτ hS
  have hfind : ∀ nm v, (additiveKey pid S curve t τ p key).Qis.find nm = some v ↔
      nm ∈ S.sort (· ≤ ·) ∧ (quorumWeight pid S t nm * τ nm) • curve.generator = v :=
        fun nm v => by
    by_cases hnm : nm ∈ S <;> simp [additiveKey, hnm]
  have hvals := OrderedMap.sum_values (Finset.sort_nodup S (· ≤ ·)) hfind
  rw [hvals, ← List.sum_toFinset _ (Finset.sort_nodup S (· ≤ ·)), Finset.sort_toFinset,
    ← Finset.sum_smul]
  exact (congrArg (· • curve.generator) (by simpa using hsum)).trans hQ.symm

/-- Every quorum converts its shares of `x` to additive shares of `x`, with matching
public points, and both recursions select the same children. -/
theorem toAdditiveShare_sum (hvalid : t.validateTree = .ok ()) (hpos : Positions (pidPos q pid) t)
    (hτ : Consistent (pidPos q pid) τ t) (hS : t.enoughForQuorum S = true)
    (keys : PName → KeyShareMp q E) (hkeys : ∀ p ∈ S, HoldsShare curve t τ p (keys p)) :
    ∃ out : PName → KeyShareMp q E, (∀ p ∈ S, toAdditiveShare pid t S (keys p) = .ok (out p)) ∧
      ∑ p ∈ S, ((out p).xShare : ZMod q) = τ t.name ∧
      (∀ p ∈ S, ∀ r ∈ S, (out r).Qis.find p = some (((out p).xShare : ZMod q) • curve.generator)) ∧
      (∀ r ∈ S, (out r).Q = τ t.name • curve.generator ∧ (out r).Qis.values.sum = (out r).Q) ∧
      ∀ p ∈ S, ∀ r ∈ S, ∀ target, ∀ s ∈ t.subtrees,
        selectedChildren (reconstructAdditiveShare pid (keys p) S) s =
          selectedChildren (reconstructPubAdditiveShares pid (keys r) S target) s := by
  obtain ⟨hwf, hnd, -⟩ := validateTree_ok hvalid
  refine ⟨fun p => additiveKey pid S curve t τ p (keys p), fun p hp => ?_,
    additiveKey_sum hwf hpos hτ hS keys, fun p hp r _ => additiveKey_Qis_find hp (keys r), ?_, ?_⟩
  · exact toAdditiveShare_eq hwf hnd hpos hS (hkeys p hp)
  · intro r hr
    have hQ : (keys r).Q = τ t.name • curve.generator := (hkeys r hr).Q_eq
    exact ⟨hQ, additiveKey_Qis_sum hwf hpos hτ hS hQ⟩
  · intro p hp r hr target s hs
    have hwf' := hwf.subtree hs
    have hnd' := nodup_subtree hnd hs
    have hpos' := hpos.subtree hs
    have hsub : s.listLeafNames ⊆ t.listLeafNames := listLeafNames_subtree_subset hs
    rw [reconstructAdditiveShare, reconstructPubAdditiveShares,
      selectedChildren_eq additiveScalarOps_sound hwf' hnd' hpos' _ (τ p) _
        (fun _ => by rw [(hkeys p hp).share_eq]),
      selectedChildren_eq additivePointOps_sound hwf' hnd' hpos' target
        (τ target • curve.generator) _
        (fun hm => by simp [leafPoint, (hkeys r hr).Qis_eq target (hsub hm)])]

end Conversion

section Examples

/-- The group of the scalars themselves, generated by `1`. -/
def sampleCurve : Curve 1009 (ZMod 1009) := ⟨[99], .ossl, 1, by decide⟩

/-- Another curve of the same points. -/
def sampleCtCurve : Curve 1009 (ZMod 1009) := { sampleCurve with type := .bitcoin }

/-- A sharing of 5 along the sample tree in which the leaf `c` has the share 0. -/
def sampleLabel (nm : PName) : ZMod 1009 :=
  if nm = [] then 5
  else if nm = [97] then 296
  else if nm = [98] then 299
  else if nm = [99] then 0
  else if nm = [100] then 299
  else 308

theorem sampleLabel_consistent : Consistent (pidPos 1009 samplePid) sampleLabel sampleTree := by
  refine forall_mk.mpr ⟨⟨[5, 3], rfl, by decide, by decide⟩, fun c hc => ?_⟩
  simp only [List.mem_cons, List.not_mem_nil, or_false] at hc
  rcases hc with rfl | rfl | rfl
  · exact forall_mk.mpr ⟨trivial, by simp⟩
  · refine forall_mk.mpr ⟨by simp [LocalConsistent, sampleLabel], fun d hd => ?_⟩
    simp only [List.mem_cons, List.not_mem_nil, or_false] at hd
    rcases hd with rfl | rfl
    · exact forall_mk.mpr ⟨trivial, by simp⟩
    · exact forall_mk.mpr ⟨trivial, by simp⟩
  · refine forall_mk.mpr ⟨by simp [LocalConsistent, sampleLabel], fun d hd => ?_⟩
    simp only [List.mem_cons, List.not_mem_nil, or_false] at hd
    rcases hd with rfl | rfl
    · exact forall_mk.mpr ⟨trivial, by simp⟩
    · exact forall_mk.mpr ⟨trivial, by simp⟩

def sampleKey (p : PName) : KeyShareMp 1009 (ZMod 1009) where
  xShare := residue (sampleLabel p)
  Q := 5
  Qis := .ofKeys sampleLabel sampleTree.listLeafNames
  curve := sampleCurve
  partyName := p

theorem sampleKey_holdsShare (p : PName) :
    HoldsShare sampleCurve sampleTree sampleLabel p (sampleKey p) where
  curve_eq := rfl
  name_eq := rfl
  share_eq := rfl
  Q_eq := (by decide : (5 : ZMod 1009) = sampleLabel sampleTree.name • sampleCurve.generator)
  Qis_eq nm hnm := by simp [sampleKey, sampleCurve, hnm]

/-- The quorum `{a, c, d}`, in which `c` has the share 0. -/
theorem toAdditiveShare_sum_sample :
    sampleTree.enoughForQuorum {[97], [99], [100]} = true ∧
    ∃ out : PName → KeyShareMp 1009 (ZMod 1009),
      (∀ p ∈ ({[97], [99], [100]} : Finset PName),
        toAdditiveShare samplePid sampleTree {[97], [99], [100]} (sampleKey p) = .ok (out p)) ∧
      ∑ p ∈ ({[97], [99], [100]} : Finset PName), ((out p).xShare : ZMod 1009) = 5 := by
  have hS : sampleTree.enoughForQuorum {[97], [99], [100]} = true := by decide
  obtain ⟨out, hout, hsum, -⟩ := @toAdditiveShare_sum 1009 (ZMod 1009) _ _ _ _ samplePid
    {[97], [99], [100]} sampleCurve sampleTree sampleLabel (by decide) (by decide)
      sampleLabel_consistent hS sampleKey (fun p _ => sampleKey_holdsShare p)
  exact ⟨hS, out, hout, hsum⟩

end Examples

end CbMpc
