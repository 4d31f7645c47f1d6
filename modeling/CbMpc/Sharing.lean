import CbMpc.OrderedMap
import CbMpc.Curve
import CbMpc.Labelling

/-!
# Dealing a secret along an access structure

`share_recursive` walks the name-sorted children and draws random values as it
goes. The values still to be drawn are a stream, so a run is determined by the
secret and the stream. Every run records a consistent labelling of the tree: the
leaves' values in `ac_shares` and, on demand, all nodes' values and points. What such
a labelling gives to one party is its key share.
-/
namespace CbMpc

open Interpolation Node

/-- The values `bn_t::rand(q)` has still to return; each is a reduced integer. -/
abbrev Rand (q : ℕ) := Stream' (ZMod q)

/-- `share_and`. -/
def shareAnd (q : ℕ) (x : ℤ) (n : ℕ) (rand : Rand q) : Outcome (List ℤ × Rand q) := do
  cbAssert (decide (0 < n))
  let drawn := (rand.take (n - 1)).map residue
  let sum ← drawn.foldlM (fun sum share => modAdd false q sum share) 0
  let first ← modSub false q x sum
  .ok (first :: drawn, rand.drop (n - 1))

/-- `share_threshold`: the shares, the coefficients and the remaining random values. -/
def shareThreshold (q : ℕ) (a : ℤ) (threshold : ℤ) (n : ℕ) (pids : List ℤ) (rand : Rand q) :
    Outcome (List ℤ × List ℤ × Rand q) := do
  cbAssert (decide (0 < threshold))
  cbAssert (decide (threshold ≤ n))
  cbAssert (decide (n ≤ pids.length))
  let b := a :: (rand.take (threshold.toNat - 1)).map residue
  let shares ← (pids.take n).mapM (fun pid => do
    cbAssert (decide (pid ≠ 0))
    hornerPoly q b pid)
  .ok (shares, b, rand.drop (threshold.toNat - 1))

/-- The output maps of `share_recursive` and its random source. -/
structure ShareState (q : ℕ) (E : Type) where
  acShares : OrderedMap PName ℤ
  acInternalShares : OrderedMap PName ℤ
  acInternalPubShares : OrderedMap PName E
  rand : Rand q

def ShareState.withRand {q : ℕ} {E : Type} (st : ShareState q E) (rand : Rand q) : ShareState q E :=
  { st with rand := rand }

section Deal

variable {q : ℕ} {E : Type} [AddCommGroup E] [Module (ZMod q) E]

/-- The entries written when `output_additional_data` is set. -/
def recordInternals (additional : Option (Curve q E)) (name : PName) (a : ℤ) (st : ShareState q E) :
    Outcome (ShareState q E) :=
  match additional with
  | none => .ok st
  | some curve => do
    let P ← curve.mulToGenerator a
    .ok { st with
      acInternalShares := st.acInternalShares.insert name a
      acInternalPubShares := st.acInternalPubShares.insert name P }

/-- The body of `share_recursive` at one node. -/
def shareNode (pid : PName → ℕ) (additional : Option (Curve q E)) (type : NodeType) (name : PName)
    (threshold : ℤ) (children : List (PName × (ℤ → ShareState q E → Outcome (ShareState q E))))
    (a : ℤ) (st : ShareState q E) : Outcome (ShareState q E) := do
  let sorted := sortByName children
  let st ← recordInternals additional name a st
  match type with
  | .leaf => .ok { st with acShares := st.acShares.insert name a }
  | .or => sorted.foldlM (fun st c => c.2 a st) st
  | .and => do
    let (childrenA, rand) ← shareAnd q a sorted.length st.rand
    (sorted.zip childrenA).foldlM (fun st c => c.1.2 c.2 st) (st.withRand rand)
  | .threshold => do
    let pids := sorted.map (fun c => (pid c.1 : ℤ))
    let (childrenA, _, rand) ← shareThreshold q a threshold sorted.length pids st.rand
    (sorted.zip childrenA).foldlM (fun st c => c.1.2 c.2 st) (st.withRand rand)
  | .none => .ok st

def shareRecursive (pid : PName → ℕ) (additional : Option (Curve q E)) (t : Node) :
    ℤ → ShareState q E → Outcome (ShareState q E) := t.fold (shareNode pid additional)

/-- `ac_t::share`. -/
def share (q : ℕ) (pid : PName → ℕ) (t : Node) (x : ℤ) (rand : Rand q) :
    Outcome (OrderedMap PName ℤ) := do
  let st ← shareRecursive pid (none : Option (Curve q (ZMod q))) t x ⟨.empty, .empty, .empty, rand⟩
  .ok st.acShares

/-- `ac_t::share_with_internals`, for an access structure whose curve is set and a
modulus that is the curve's order. -/
def shareWithInternals (pid : PName → ℕ) (curve : Curve q E) (t : Node) (x : ℤ) (rand : Rand q) :
    Outcome (ShareState q E) :=
  shareRecursive pid (some curve) t x ⟨.empty, .empty, .empty, rand⟩

/-- Write the labelling `τ` into the output maps, at the given leaves and nodes. -/
def ShareState.record (additional : Option (Curve q E)) (τ : PName → ZMod q)
    (leaves nodes : List PName) (st : ShareState q E) : ShareState q E where
  acShares := st.acShares.insertAll (fun nm => residue (τ nm)) leaves
  acInternalShares := match additional with
    | none => st.acInternalShares
    | some _ => st.acInternalShares.insertAll (fun nm => residue (τ nm)) nodes
  acInternalPubShares := match additional with
    | none => st.acInternalPubShares
    | some curve => st.acInternalPubShares.insertAll (fun nm => τ nm • curve.generator) nodes
  rand := st.rand

/-- Dealing `a` at `t` consumes `draws` and records `τ`, whatever the state before. -/
def Dealt (pid : PName → ℕ) (additional : Option (Curve q E)) (t : Node) (a : ZMod q)
    (draws : List (ZMod q)) (τ : PName → ZMod q) : Prop :=
  ∀ (st : ShareState q E) (rest : Rand q),
    shareRecursive pid additional t (residue a) (st.withRand (draws ++ₛ rest)) =
      .ok ((st.record additional τ t.listLeafNames t.names).withRand rest)

theorem record_congr (additional : Option (Curve q E)) {τ τ' : PName → ZMod q}
    {leaves leaves' nodes nodes' : List PName} (st : ShareState q E)
    (hl : ∀ nm, nm ∈ leaves ↔ nm ∈ leaves') (hn : ∀ nm, nm ∈ nodes ↔ nm ∈ nodes')
    (hτl : ∀ nm ∈ leaves, τ nm = τ' nm) (hτn : ∀ nm ∈ nodes, τ nm = τ' nm) :
    st.record additional τ leaves nodes = st.record additional τ' leaves' nodes' := by
  have hleaf : st.acShares.insertAll (fun nm => residue (τ nm)) leaves =
      st.acShares.insertAll (fun nm => residue (τ' nm)) leaves' :=
    OrderedMap.insertAll_congr _ hl fun nm h => by rw [hτl nm h]
  have hint : st.acInternalShares.insertAll (fun nm => residue (τ nm)) nodes =
      st.acInternalShares.insertAll (fun nm => residue (τ' nm)) nodes' :=
    OrderedMap.insertAll_congr _ hn fun nm h => by rw [hτn nm h]
  cases additional with
  | none => simp [ShareState.record, hleaf]
  | some curve =>
    have hpub : st.acInternalPubShares.insertAll (fun nm => τ nm • curve.generator) nodes =
        st.acInternalPubShares.insertAll (fun nm => τ' nm • curve.generator) nodes' :=
      OrderedMap.insertAll_congr _ hn fun nm h => by rw [hτn nm h]
    simp [ShareState.record, hleaf, hint, hpub]

theorem record_append (additional : Option (Curve q E)) (τ : PName → ZMod q)
    (leaves leaves' nodes nodes' : List PName) (st : ShareState q E) :
    (st.record additional τ leaves nodes).record additional τ leaves' nodes' =
      st.record additional τ (leaves ++ leaves') (nodes ++ nodes') := by
  cases additional <;> simp [ShareState.record, OrderedMap.insertAll_append]

theorem record_withRand (additional : Option (Curve q E)) (τ : PName → ZMod q)
    (leaves nodes : List PName) (st : ShareState q E) (rand : Rand q) :
    (st.withRand rand).record additional τ leaves nodes =
      (st.record additional τ leaves nodes).withRand rand := by
  cases additional <;> rfl

variable [hq : Fact q.Prime]

theorem recordInternals_eq (additional : Option (Curve q E)) (name : PName) (τ : PName → ZMod q)
    (st : ShareState q E) :
    recordInternals additional name (residue (τ name)) st =
      .ok (st.record additional τ [] [name]) := by
  cases additional with
  | none => rfl
  | some curve => simp [recordInternals, ShareState.record, OrderedMap.insertAll]

theorem shareAnd_eq (x : ZMod q) (draws : List (ZMod q)) (rest : Rand q) :
    shareAnd q (residue x) (draws.length + 1) (draws ++ₛ rest) =
      .ok (((x - draws.sum) :: draws).map residue, rest) := by
  have hloop : ∀ (l : List (ZMod q)) (acc : ZMod q),
      (l.map residue).foldlM (fun sum share => modAdd false q sum share) (residue acc) =
        Except.ok (ε := Failure) (residue (acc + l.sum)) := by
    intro l
    induction l with
    | nil =>
      intro acc
      simp
      rfl
    | cons y l ih =>
      intro acc
      rw [List.map_cons, List.foldlM_cons, modAdd_residue, ok_bind, ih, List.sum_cons, add_assoc]
  have hsum := hloop draws 0
  rw [residue_zero, zero_add] at hsum
  have htake : (draws ++ₛ rest).take draws.length = draws := by
    rw [Stream'.take_append_of_le_length draws.length draws rest le_rfl, List.take_length]
  simp only [shareAnd, Nat.add_sub_cancel, htake, Stream'.drop_append_stream, hsum, ok_bind,
    modSub_residue, Nat.succ_pos, decide_true, cbAssert_true, List.map_cons]

theorem shareThreshold_eq (a : ZMod q) (draws : List (ZMod q)) (pids : List ℕ) (rest : Rand q)
    (hk : draws.length + 1 ≤ pids.length) (hne : ∀ p ∈ pids, p ≠ 0)
    (hrange : draws ≠ [] → ∀ p ∈ pids, p < q) :
    shareThreshold q (residue a) ((draws.length + 1 : ℕ) : ℤ) pids.length
      (pids.map (fun p : ℕ => (p : ℤ)))
        (draws ++ₛ rest) =
      .ok ((pids.map (fun p : ℕ => horner (a :: draws) (p : ZMod q))).map residue,
        (a :: draws).map residue, rest) := by
  have hshares : ∀ l : List ℕ, (∀ p ∈ l, p ∈ pids) →
      (l.map (fun p : ℕ => (p : ℤ))).mapM (fun pid => do
          cbAssert (decide (pid ≠ 0))
          hornerPoly q ((a :: draws).map residue) pid) =
        Except.ok (ε := Failure)
          ((l.map (fun p : ℕ => horner (a :: draws) (p : ZMod q))).map residue) := by
    intro l
    induction l with
    | nil =>
      intro _
      rfl
    | cons p l ih =>
      intro hl
      have hp : p ∈ pids := hl p (by simp)
      have hp0 : (p : ℤ) ≠ 0 := by exact_mod_cast hne p hp
      have hx : 2 ≤ (a :: draws).length → isInRange q (p : ℤ) = true := by
        intro h2
        have hd : draws ≠ [] := by
          rintro rfl
          simp at h2
        have hlt := hrange hd p hp
        rw [isInRange_iff]
        omega
      have hh := hornerPoly_eq (a :: draws) (by simp) (p : ℤ) hx
      rw [List.map_cons (a := p), List.mapM_cons, ih (fun r hr => hl r (by simp [hr])), hh,
        decide_eq_true hp0, cbAssert_true]
      simp
  have htake : (draws ++ₛ rest).take draws.length = draws := by
    rw [Stream'.take_append_of_le_length draws.length draws rest le_rfl, List.take_length]
  have hnat : ((draws.length + 1 : ℕ) : ℤ).toNat - 1 = draws.length := by omega
  have hlen : (pids.map (fun p : ℕ => (p : ℤ))).take pids.length =
      pids.map (fun p : ℕ => (p : ℤ)) :=
    List.take_of_length_le (by simp)
  have h1 : decide (0 < ((draws.length + 1 : ℕ) : ℤ)) = true := decide_eq_true (by omega)
  have h2 : decide (((draws.length + 1 : ℕ) : ℤ) ≤ (pids.length : ℤ)) = true :=
    decide_eq_true (by omega)
  have hs := hshares pids (fun _ h => h)
  rw [List.map_cons] at hs
  simp only [shareThreshold, hnat, htake, Stream'.drop_append_stream, h1, h2,
    cbAssert_true, ok_bind, List.length_map, le_refl, decide_true, hlen]
  rw [hs]
  rfl

/-- The values that a node hands to its name-sorted children, from its own random draws. -/
def childValues (pid : PName → ℕ) (type : NodeType) (a : ZMod q) (sorted : List PName)
    (draws : List (ZMod q)) : List (ZMod q) :=
  match type with
  | .or => sorted.map (fun _ => a)
  | .and => (a - draws.sum) :: draws
  | .threshold => sorted.map (fun nm => horner (a :: draws) (pid nm : ZMod q))
  | .leaf | .none => []

/-- The number of values a node draws for itself. -/
def ownDraws (type : NodeType) (threshold : ℤ) (n : ℕ) : ℕ :=
  match type with
  | .and => n - 1
  | .threshold => threshold.toNat - 1
  | .or | .leaf | .none => 0

/-- The pids of a THRESHOLD node of threshold two or more are below the modulus, as
the multiplications of `horner_poly` assert. -/
def LocalPidsInRange (q : ℕ) (pid : PName → ℕ) (s : Node) : Prop :=
  s.type = .threshold → 2 ≤ s.threshold → ∀ nm ∈ s.children.map name, pid nm < q

def PidsInRange (q : ℕ) (pid : PName → ℕ) (t : Node) : Prop := t.Forall (LocalPidsInRange q pid)

instance (pid : PName → ℕ) (t : Node) : Decidable (PidsInRange q pid t) :=
  inferInstanceAs (Decidable (∀ s ∈ t.subtrees, s.type = .threshold → _))

/-- The evaluation points of the children of THRESHOLD nodes. -/
def pidPos (q : ℕ) (pid : PName → ℕ) (nm : PName) : ZMod q := (pid nm : ZMod q)

theorem pid_ne_zero {pid : PName → ℕ} {nm : PName} (h : pidPos q pid nm ≠ 0) : pid nm ≠ 0 := by
  rintro h0
  exact h (by simp [pidPos, h0])

theorem sortByName_map {α : Type} (cs : List Node) (f : Node → α) :
    sortByName (cs.map (fun c => (c.name, f c))) =
      (cs.insertionSort (fun a b => a.name ≤ b.name)).map (fun c => (c.name, f c)) :=
  (List.map_insertionSort (fun a b : Node => a.name ≤ b.name) (fun a b : PName × α => a.1 ≤ b.1)
    (fun c => (c.name, f c)) cs (fun _ _ _ _ => Iff.rfl)).symm

/-- A child with the value handed to it and the draws of its subtree. -/
structure Deal (q : ℕ) where
  child : Node
  value : ZMod q
  draws : List (ZMod q)

omit hq in
theorem run_deals (pid : PName → ℕ) (additional : Option (Curve q E)) (τ : PName → ZMod q)
    (ds : List (Deal q)) (h : ∀ d ∈ ds, Dealt pid additional d.child d.value d.draws τ)
    (st : ShareState q E) (rest : Rand q) :
    (ds.map (fun d => ((d.child.name, shareRecursive pid additional d.child),
      residue d.value))).foldlM
        (fun st c => c.1.2 c.2 st) (st.withRand (ds.flatMap Deal.draws ++ₛ rest)) =
      .ok ((st.record additional τ (ds.flatMap (fun d => d.child.listLeafNames))
        (ds.flatMap (fun d => d.child.names))).withRand rest) := by
  induction ds generalizing st with
  | nil => cases additional <;> rfl
  | cons d ds ih =>
    have hd := h d (by simp) st (ds.flatMap Deal.draws ++ₛ rest)
    have ih' := ih (fun e he => h e (by simp [he]))
      (st.record additional τ d.child.listLeafNames d.child.names)
    simp only [List.flatMap_cons]
    rw [← record_append, ← ih', List.map_cons, List.foldlM_cons, Stream'.append_append_stream]
    exact congrArg (· >>= _) hd

theorem childValues_length (pid : PName → ℕ) {type : NodeType} {name : PName}
    {th : ℤ} {cs : List Node} (hwf : LocalWf (mk type name th cs)) (hleaf : type ≠ .leaf)
    (a : ZMod q) {draws : List (ZMod q)}
    (hd : draws.length = ownDraws type th cs.length) (sorted : List PName)
    (hs : sorted.length = cs.length) :
    (childValues pid type a sorted draws).length = cs.length := by
  cases type with
  | none => exact absurd hwf (by simp [LocalWf])
  | leaf => exact absurd rfl hleaf
  | or => simpa [childValues] using hs
  | and =>
    have hne : cs.length ≠ 0 := hwf.2
    simp only [childValues, List.length_cons, hd, ownDraws]
    omega
  | threshold => simpa [childValues] using hs

/-- The children's values determine the node's value by the node's rule. -/
theorem localConsistent_childValues (pid : PName → ℕ) {type : NodeType} {name : PName} {th : ℤ}
    {cs sorted : List Node} (hwf : LocalWf (mk type name th cs)) (hperm : sorted.Perm cs)
    {a : ZMod q} {draws : List (ZMod q)} (hd : draws.length = ownDraws type th cs.length)
    {τ : PName → ZMod q} (ha : τ name = a) (hleaf : type ≠ .leaf)
    (hτ : (sorted.map Node.name).map τ = childValues pid type a (sorted.map Node.name) draws) :
    LocalConsistent (pidPos q pid) τ (mk type name th cs) := by
  have hnames : (sorted.map Node.name).Perm (cs.map Node.name) := hperm.map _
  cases type with
  | none => exact absurd hwf (by simp [LocalWf])
  | leaf => exact absurd rfl hleaf
  | or =>
    intro nm hnm
    have heq := List.map_inj_left.mp hτ nm (hnames.mem_iff.mpr hnm)
    exact heq.trans ha.symm
  | and =>
    have hsum : ((sorted.map Node.name).map τ).sum = a := by simp [hτ, childValues]
    exact ((hnames.map τ).sum_eq.symm.trans hsum).trans ha.symm
  | threshold =>
    have h1 : 1 ≤ th := hwf.1
    refine ⟨a :: draws, ?_, ?_, fun nm hnm => ?_⟩
    · simp only [List.length_cons, hd, ownDraws, threshold_mk]
      omega
    · rw [horner_zero]
      exact ha.symm
    · exact List.map_inj_left.mp hτ nm (hnames.mem_iff.mpr hnm)

/-- Dealing at an inner node, from the deals of its sorted children. -/
theorem dealt_node (pid : PName → ℕ) (additional : Option (Curve q E))
    {type : NodeType} {name : PName} {th : ℤ} {cs : List Node}
    (hwf : LocalWf (mk type name th cs)) (hleaf : type ≠ .leaf)
    (hpos : LocalPositions (pidPos q pid) (mk type name th cs))
    (hrange : LocalPidsInRange q pid (mk type name th cs)) (a : ZMod q) (draws : List (ZMod q))
    (hd : draws.length = ownDraws type th cs.length) (τ : PName → ZMod q)
    (ha : τ name = a) (ds : List (Deal q))
    (hchild : ds.map Deal.child = cs.insertionSort (fun a b => a.name ≤ b.name))
    (hval : ds.map Deal.value = childValues pid type a
      ((cs.insertionSort (fun a b => a.name ≤ b.name)).map Node.name) draws)
    (hds : ∀ d ∈ ds, Dealt pid additional d.child d.value d.draws τ) :
    Dealt pid additional (mk type name th cs) a (draws ++ ds.flatMap Deal.draws) τ := by
  intro st rest
  have hperm := List.perm_insertionSort (fun a b : Node => a.name ≤ b.name) cs
  generalize hsorted : cs.insertionSort (fun a b => a.name ≤ b.name) = sorted at *
  have hlen : sorted.length = cs.length := hperm.length_eq
  -- the children are run with their values one after the other
  have hrun := run_deals pid additional τ ds hds (st.record additional τ [] [name]) rest
  have hzip : (sorted.map (fun c => (c.name, shareRecursive pid additional c))).zip
      ((ds.map Deal.value).map residue) =
      ds.map (fun d => ((d.child.name, shareRecursive pid additional d.child),
      residue d.value)) := by
    rw [← hchild, List.map_map, List.map_map, List.zip_map']
    rfl
  have hmem : ∀ (f : Node → List PName) nm,
      nm ∈ ds.flatMap (fun d => f d.child) ↔ nm ∈ cs.flatMap f := by
    intro f nm
    have hfm : ds.flatMap (fun d => f d.child) = sorted.flatMap f := by
      rw [← hchild, List.flatMap_map]
    rw [hfm]
    exact (hperm.flatMap_right f).mem_iff
  have hfinal : st.record additional τ ([] ++ ds.flatMap (fun d => d.child.listLeafNames))
        ([name] ++ ds.flatMap (fun d => d.child.names)) =
      st.record additional τ (mk type name th cs).listLeafNames (mk type name th cs).names := by
    refine record_congr additional st (fun nm => ?_) (fun nm => ?_)
      (fun _ _ => rfl) (fun _ _ => rfl)
    · rw [listLeafNames_mk, if_neg hleaf, List.nil_append, List.nil_append]
      exact hmem listLeafNames nm
    · rw [names_mk, List.singleton_append, List.mem_cons, List.mem_cons, hmem names nm]
  rw [record_append, hfinal, ← hzip, hval] at hrun
  rw [shareRecursive, fold_mk, shareNode, sortByName_map, hsorted, ← ha,
    recordInternals_eq, ok_bind, record_withRand, Stream'.append_append_stream, ← hrun, ← ha]
  cases type with
  | none => exact absurd hwf (by simp [LocalWf])
  | leaf => exact absurd rfl hleaf
  | or =>
    have hnil : draws = [] := List.length_eq_zero_iff.mp hd
    subst hnil
    simp only [childValues, List.map_map, Stream'.nil_append_stream]
    rw [List.zip_map', List.foldlM_map, List.foldlM_map]
    rfl
  | and =>
    have hne : cs.length ≠ 0 := hwf.2
    have hn : (sorted.map (fun c => (c.name, c.fold (shareNode pid additional)))).length =
        draws.length + 1 := by
      simp only [List.length_map, hlen, hd, ownDraws]
      omega
    simp only [ShareState.withRand, hn, shareAnd_eq, ok_bind, childValues]
    rfl
  | threshold =>
    obtain ⟨h1, hn⟩ : 1 ≤ th ∧ th ≤ cs.length := hwf
    have hth : th = ((draws.length + 1 : ℕ) : ℤ) := by
      simp only [ownDraws] at hd
      omega
    have hmem' : ∀ c ∈ sorted, c.name ∈ cs.map Node.name := fun c hc =>
      List.mem_map_of_mem (hperm.mem_iff.mp hc)
    have hshare := shareThreshold_eq (τ name) draws (sorted.map (fun c => pid c.name))
      (ds.flatMap Deal.draws ++ₛ rest) (by simp only [List.length_map]; omega)
      (fun p hp => by
        obtain ⟨c, hc, rfl⟩ := List.mem_map.mp hp
        exact pid_ne_zero ((hpos rfl).2 c.name (hmem' c hc)))
      (fun hdne p hp => by
        obtain ⟨c, hc, rfl⟩ := List.mem_map.mp hp
        have hdl := List.length_pos_iff.mpr hdne
        exact hrange rfl (by simp only [threshold_mk]; omega) c.name (hmem' c hc))
    simp only [List.map_map, List.length_map, ← hth] at hshare
    simp only [ShareState.withRand, List.map_map, List.length_map, childValues]
    rw [show (Function.comp (fun c : PName × _ => (pid c.1 : ℤ))
      (fun c : Node => (c.name, c.fold (shareNode pid additional)))) =
        (fun p : ℕ => (p : ℤ)) ∘ (fun c : Node => pid c.name) from rfl, hshare]
    rfl

omit hq in
theorem Dealt.congr {pid : PName → ℕ} {additional : Option (Curve q E)} {t : Node} {a : ZMod q}
    {draws : List (ZMod q)} {τ τ' : PName → ZMod q} (h : ∀ nm ∈ t.names, τ nm = τ' nm)
    (hd : Dealt pid additional t a draws τ) : Dealt pid additional t a draws τ' := by
  intro st rest
  rw [hd st rest, record_congr additional st (fun _ => Iff.rfl) (fun _ => Iff.rfl)
    (fun nm hnm => h nm (listLeafNames_subset t hnm)) h]

theorem dealt_leaf (pid : PName → ℕ) (additional : Option (Curve q E))
    (name : PName) (τ : PName → ZMod q) :
    Dealt pid additional (mk .leaf name 0 []) (τ name) [] τ := by
  intro st rest
  rw [shareRecursive, fold_mk, shareNode, recordInternals_eq, ok_bind, record_withRand,
    Stream'.nil_append_stream, listLeafNames_mk, names_mk]
  cases additional <;> simp [ShareState.record, ShareState.withRand, OrderedMap.insertAll]

/-- A deal that records `τ`, a sharing of the child's value with all its values in `P`. -/
structure Deal.Good (pid : PName → ℕ) (additional : Option (Curve q E)) (P : ZMod q → Prop)
    (d : Deal q) (τ : PName → ZMod q) : Prop where
  dealt : Dealt pid additional d.child d.value d.draws τ
  value_eq : τ d.child.name = d.value
  consistent : Consistent (pidPos q pid) τ d.child
  values : ∀ nm ∈ d.child.names, P (τ nm)

theorem Deal.Good.congr {pid : PName → ℕ} {additional : Option (Curve q E)} {P : ZMod q → Prop}
    {d : Deal q} {τ τ' : PName → ZMod q} (h : ∀ nm ∈ d.child.names, τ nm = τ' nm)
    (hg : d.Good pid additional P τ) : d.Good pid additional P τ' where
  dealt := hg.dealt.congr h
  value_eq := (h _ (name_mem_names d.child)).symm.trans hg.value_eq
  consistent := hg.consistent.congr h
  values nm hnm := h nm hnm ▸ hg.values nm hnm

/-- Deals of the sorted children combine to a deal of the node. -/
theorem exists_dealt_node (pid : PName → ℕ) (additional : Option (Curve q E)) (P : ZMod q → Prop)
    {type : NodeType} {name : PName} {th : ℤ} {cs : List Node} (hwf : LocalWf (mk type name th cs))
    (hleaf : type ≠ .leaf) (hnd : (mk type name th cs).names.Nodup)
    (hpos : LocalPositions (pidPos q pid) (mk type name th cs))
    (hrange : LocalPidsInRange q pid (mk type name th cs))
    (a : ZMod q) (draws : List (ZMod q)) (hd : draws.length = ownDraws type th cs.length)
    (ds : List (Deal q))
    (hchild : ds.map Deal.child = cs.insertionSort (fun a b => a.name ≤ b.name))
    (hval : ds.map Deal.value = childValues pid type a
      ((cs.insertionSort (fun a b => a.name ≤ b.name)).map Node.name) draws)
    (hds : ∀ d ∈ ds, ∃ τ, d.Good pid additional P τ) :
    ∃ τ, Dealt pid additional (mk type name th cs) a (draws ++ ds.flatMap Deal.draws) τ ∧
    τ name = a ∧
      Consistent (pidPos q pid) τ (mk type name th cs) ∧ ∀ c ∈ cs, ∀ nm ∈ c.names, P (τ nm) := by
  have hperm := List.perm_insertionSort (fun a b : Node => a.name ≤ b.name) cs
  have hmem : ∀ c, c ∈ cs ↔ ∃ d ∈ ds, d.child = c := by
    intro c
    rw [← hperm.mem_iff, ← hchild, List.mem_map]
  have hdisj : ds.Pairwise (fun d e => List.Disjoint d.child.names e.child.names) := by
    have hcs := (hperm.pairwise_iff (fun {c d} (h : List.Disjoint c.names d.names) => h.symm)).mpr
      (pairwise_disjoint_children hnd)
    rw [← hchild, List.pairwise_map] at hcs
    exact hcs
  obtain ⟨σ, hσ⟩ := exists_glue ds (fun d => d.child.names)
    (fun d τ => d.Good pid additional P τ) (fun d τ τ' h hg => hg.congr h) hdisj hds
  -- the node's own value is put at its own name, which no child carries
  have hout : ∀ d ∈ ds, ∀ nm ∈ d.child.names, σ nm = Function.update σ name a nm := by
    intro d hdm nm hnm
    have hne : nm ≠ name := by
      rintro rfl
      exact name_not_mem_child hnd d.child ((hmem _).mpr ⟨d, hdm, rfl⟩) hnm
    rw [Function.update_of_ne hne]
  have hgood : ∀ d ∈ ds, d.Good pid additional P (Function.update σ name a) := fun d hdm =>
    (hσ d hdm).congr (hout d hdm)
  have hself : Function.update σ name a name = a := Function.update_self name a σ
  have hvals : ((cs.insertionSort (fun a b => a.name ≤ b.name)).map Node.name).map
      (Function.update σ name a) =
      childValues pid type a ((cs.insertionSort (fun a b => a.name ≤ b.name)).map Node.name)
        draws := by
    rw [← hval, ← hchild, List.map_map, List.map_map]
    exact List.map_congr_left fun d hdm => (hgood d hdm).value_eq
  refine ⟨Function.update σ name a, ?_, hself, ?_, ?_⟩
  · exact dealt_node pid additional hwf hleaf hpos hrange a draws hd _ hself ds hchild hval
      fun d hdm => (hgood d hdm).dealt
  · refine forall_mk.mpr ⟨localConsistent_childValues pid hwf hperm hd hself hleaf hvals,
      fun c hc => ?_⟩
    obtain ⟨d, hdm, rfl⟩ := (hmem c).mp hc
    exact (hgood d hdm).consistent
  · intro c hc
    obtain ⟨d, hdm, rfl⟩ := (hmem c).mp hc
    exact (hgood d hdm).values

/-- The children draw from the stream one after the other. -/
theorem exists_deals (pid : PName → ℕ) (additional : Option (Curve q E)) (P : ZMod q → Prop)
    (l : List (Node × ZMod q))
    (h : ∀ p ∈ l, ∀ rand : Rand q, ∃ draws rest τ, rand = draws ++ₛ rest ∧
      Deal.Good pid additional P ⟨p.1, p.2, draws⟩ τ) (rand : Rand q) :
    ∃ (ds : List (Deal q)) (rest : Rand q), rand = ds.flatMap Deal.draws ++ₛ rest ∧
      ds.map Deal.child = l.map Prod.fst ∧ ds.map Deal.value = l.map Prod.snd ∧
      ∀ d ∈ ds, ∃ τ, d.Good pid additional P τ := by
  induction l generalizing rand with
  | nil => exact ⟨[], rand, rfl, rfl, rfl, by simp⟩
  | cons p l ih =>
    obtain ⟨draws, rest, τ, hrand, hgood⟩ := h p (by simp) rand
    obtain ⟨ds, rest', hrest, hchild, hval, hds⟩ := ih (fun p hp => h p (by simp [hp])) rest
    refine ⟨⟨p.1, p.2, draws⟩ :: ds, rest', ?_, by simp [hchild], by simp [hval], ?_⟩
    · rw [List.flatMap_cons, Stream'.append_append_stream, ← hrest]
      exact hrand
    · intro d hd
      rcases List.mem_cons.mp hd with rfl | hd
      · exact ⟨τ, hgood⟩
      · exact hds d hd

/-- Whatever values are drawn, dealing records a sharing of the secret along the tree. -/
theorem exists_dealt (pid : PName → ℕ) (additional : Option (Curve q E))
    {t : Node} (hwf : t.WellFormed) (hnd : t.names.Nodup) (hpos : Positions (pidPos q pid) t)
    (hrange : PidsInRange q pid t) (a : ZMod q) (rand : Rand q) :
    ∃ draws rest τ, rand = draws ++ₛ rest ∧ Dealt pid additional t a draws τ ∧ τ t.name = a ∧
      Consistent (pidPos q pid) τ t := by
  induction t using Node.induction generalizing a rand with
  | h type name th cs ih =>
    obtain ⟨hlwf, hcwf⟩ := forall_mk.mp hwf
    obtain ⟨hlpos, hcpos⟩ := forall_mk.mp hpos
    obtain ⟨hlrange, hcrange⟩ := forall_mk.mp hrange
    by_cases hleaf : type = .leaf
    · subst hleaf
      obtain ⟨h0, hlen⟩ : th = 0 ∧ cs.length = 0 := hlwf
      have hcs : cs = [] := List.length_eq_zero_iff.mp hlen
      subst h0 hcs
      exact ⟨[], rand, fun _ => a, rfl, dealt_leaf pid additional name (fun _ => a), rfl,
        forall_mk.mpr ⟨trivial, by simp⟩⟩
    · have hperm := List.perm_insertionSort (fun a b : Node => a.name ≤ b.name) cs
      generalize hn : ownDraws type th cs.length = n
      have hd : (rand.take n).length = ownDraws type th cs.length := by rw [Stream'.length_take, hn]
      have hvlen := childValues_length pid hlwf hleaf a hd
        ((cs.insertionSort (fun a b => a.name ≤ b.name)).map Node.name) (by simp [hperm.length_eq])
      generalize hvals : childValues pid type a
        ((cs.insertionSort (fun a b => a.name ≤ b.name)).map Node.name) (rand.take n) = vals at *
      obtain ⟨ds, rest, hrest, hchild, hval, hds⟩ := exists_deals pid additional (fun _ => True)
        ((cs.insertionSort (fun a b => a.name ≤ b.name)).zip vals)
        (fun p hp r => by
          have hc : p.1 ∈ cs := hperm.mem_iff.mp (List.of_mem_zip hp).1
          obtain ⟨draws, rest, τ, hr, hdealt, hv, hcons⟩ :=
            ih p.1 hc (hcwf _ hc) (nodup_child hnd _ hc)
            (hcpos _ hc) (hcrange _ hc) p.2 r
          exact ⟨draws, rest, τ, hr, hdealt, hv, hcons, fun _ _ => trivial⟩)
        (rand.drop n)
      rw [List.map_fst_zip (by simp [hperm.length_eq, hvlen])] at hchild
      rw [List.map_snd_zip (by simp [hperm.length_eq, hvlen])] at hval
      obtain ⟨τ, hdealt, hroot, hcons, -⟩ :=
        exists_dealt_node pid additional (fun _ => True) hlwf hleaf hnd
        hlpos hlrange a (rand.take n) hd ds hchild (hval.trans hvals.symm) hds
      refine ⟨rand.take n ++ ds.flatMap Deal.draws, rest, τ, ?_, hdealt, hroot, hcons⟩
      rw [Stream'.append_append_stream, ← hrest, Stream'.append_take_drop]

theorem share_eq (pid : PName → ℕ) {t : Node} (hwf : t.WellFormed) (hnd : t.names.Nodup)
    (hpos : Positions (pidPos q pid) t) (hrange : PidsInRange q pid t)
    (x : ZMod q) (rand : Rand q) :
    ∃ τ : PName → ZMod q, τ t.name = x ∧ Consistent (pidPos q pid) τ t ∧
      share q pid t (residue x) rand =
        .ok (OrderedMap.ofKeys (fun nm => residue (τ nm)) t.listLeafNames) := by
  obtain ⟨draws, rest, τ, hrand, hdealt, hroot, hcons⟩ :=
    exists_dealt pid (none : Option (Curve q (ZMod q))) hwf hnd hpos hrange x rand
  refine ⟨τ, hroot, hcons, ?_⟩
  have hrun := hdealt ⟨.empty, .empty, .empty, rand⟩ rest
  simp only [ShareState.withRand, ← hrand] at hrun
  rw [share, hrun]
  rfl

/-- The maps of `share_with_internals`, for a labelling of the tree. -/
def internalsOf (curve : Curve q E) (τ : PName → ZMod q) (t : Node)
    (rest : Rand q) : ShareState q E where
  acShares := .ofKeys (fun nm => residue (τ nm)) t.listLeafNames
  acInternalShares := .ofKeys (fun nm => residue (τ nm)) t.names
  acInternalPubShares := .ofKeys (fun nm => τ nm • curve.generator) t.names
  rand := rest

theorem Dealt.shareWithInternals_eq {pid : PName → ℕ} {curve : Curve q E} {t : Node} {a : ZMod q}
    {draws : List (ZMod q)} {τ : PName → ZMod q}
    (h : Dealt pid (some curve) t a draws τ) (rest : Rand q) :
    shareWithInternals pid curve t (residue a) (draws ++ₛ rest) =
      .ok (internalsOf curve τ t rest) :=
  h ⟨.empty, .empty, .empty, draws ++ₛ rest⟩ rest

end Deal

section Key

/-- `key_share_mp_t`. -/
structure KeyShareMp (q : ℕ) (E : Type) [AddCommGroup E] where
  xShare : ℤ
  Q : E
  Qis : OrderedMap PName E
  curve : Curve q E
  partyName : PName

variable {q : ℕ} {E : Type} [AddCommGroup E] [Module (ZMod q) E]

/-- The key share of party `p` in the sharing `τ` of the secret at the root of `t`. -/
structure HoldsShare (curve : Curve q E) (t : Node) (τ : PName → ZMod q) (p : PName)
    (key : KeyShareMp q E) : Prop where
  curve_eq : key.curve = curve
  name_eq : key.partyName = p
  share_eq : key.xShare = residue (τ p)
  Q_eq : key.Q = τ t.name • curve.generator
  Qis_eq : ∀ nm ∈ t.listLeafNames, key.Qis.find nm = some (τ nm • curve.generator)

end Key

end CbMpc
