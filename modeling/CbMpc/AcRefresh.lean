import CbMpc.AcHonest

/-!
# When a refresh can succeed

A refresh deals sharings of 0, and no published point may be `infinity`. Below a
root that hands its own value on to a child, that child's point is `infinity`
whatever is drawn. Below any other root, all values but the root's can be nonzero.
-/
namespace CbMpc

open Interpolation Node

/-- The root splits its value among two or more children. -/
def RootSplits (t : Node) : Prop :=
  (t.type = .and ∧ 2 ≤ t.children.length) ∨ (t.type = .threshold ∧ 2 ≤ t.threshold)

instance (t : Node) : Decidable (RootSplits t) :=
  inferInstanceAs (Decidable ((t.type = .and ∧ 2 ≤ t.children.length) ∨
    (t.type = .threshold ∧ 2 ≤ t.threshold)))

section Values

variable {q : ℕ} [hq : Fact q.Prime]

theorem exists_ne_two (h2 : 2 < q) (a b : ZMod q) : ∃ c, c ≠ a ∧ c ≠ b := by
  have hcard : ({a, b} : Finset (ZMod q)).card < Fintype.card (ZMod q) := by
    rw [ZMod.card]
    exact lt_of_le_of_lt Finset.card_le_two h2
  obtain ⟨c, hc⟩ := Finset.exists_mem_notMem_of_card_lt_card (t := Finset.univ) hcard
  exact ⟨c, by simpa using hc⟩

/-- Nonzero draws that leave a nonzero rest. -/
theorem exists_draws (h2 : 2 < q) (a : ZMod q) (m : ℕ) (ha : a ≠ 0 ∨ 0 < m) :
    ∃ draws : List (ZMod q), draws.length = m ∧ (∀ v ∈ draws, v ≠ 0) ∧ a - draws.sum ≠ 0 := by
  induction m generalizing a with
  | zero =>
    have ha : a ≠ 0 := ha.resolve_right (lt_irrefl 0)
    exact ⟨[], rfl, by simp, by simpa using ha⟩
  | succ m ih =>
    obtain ⟨c, hc0, hca⟩ := exists_ne_two h2 0 a
    obtain ⟨draws, hlen, hne, hsum⟩ := ih (a - c) (.inl (sub_ne_zero.mpr (Ne.symm hca)))
    refine ⟨c :: draws, by simp [hlen], ?_, ?_⟩
    · simpa using ⟨hc0, hne⟩
    · rwa [List.sum_cons, ← sub_sub]

/-- The draws of a node that keep its children's values nonzero. -/
theorem exists_childValues (pid : PName → ℕ) (h2 : 2 < q) {type : NodeType} {name : PName} {th : ℤ}
    {cs : List Node} (hwf : LocalWf (mk type name th cs)) (hleaf : type ≠ .leaf)
    (hpos : LocalPositions (pidPos q pid) (mk type name th cs)) (a : ZMod q)
    (ha : a ≠ 0 ∨ RootSplits (mk type name th cs)) (sorted : List PName)
    (hs : ∀ nm ∈ sorted, nm ∈ cs.map Node.name) :
    ∃ draws : List (ZMod q), draws.length = ownDraws type th cs.length ∧
      ∀ v ∈ childValues pid type a sorted draws, v ≠ 0 := by
  cases type with
  | none => exact absurd hwf (by simp [LocalWf])
  | leaf => exact absurd rfl hleaf
  | or =>
    have ha : a ≠ 0 := ha.resolve_right (by simp [RootSplits])
    refine ⟨[], rfl, fun v hv => ?_⟩
    obtain ⟨-, -, rfl⟩ := List.mem_map.mp hv
    exact ha
  | and =>
    have hm : a ≠ 0 ∨ 0 < cs.length - 1 := by
      rcases ha with ha | ⟨-, hlen⟩ | ⟨htype, -⟩
      · exact .inl ha
      · exact .inr (by simp only [children_mk] at hlen; omega)
      · simp at htype
    obtain ⟨draws, hlen, hne, hsum⟩ := exists_draws h2 a (cs.length - 1) hm
    refine ⟨draws, hlen, fun v hv => ?_⟩
    rcases List.mem_cons.mp hv with rfl | hv
    · exact hsum
    · exact hne v hv
  | threshold =>
    obtain ⟨h1, -⟩ : 1 ≤ th ∧ th ≤ cs.length := hwf
    by_cases ha0 : a = 0
    · -- the polynomial X takes the value of the evaluation point itself
      have hth : 2 ≤ th := by
        rcases ha with ha | ⟨htype, -⟩ | ⟨-, hth⟩
        · exact absurd ha0 ha
        · simp at htype
        · exact hth
      refine ⟨1 :: List.replicate (th.toNat - 2) 0, ?_, fun v hv => ?_⟩
      · simp only [List.length_cons, List.length_replicate, ownDraws]
        omega
      · obtain ⟨nm, hnm, rfl⟩ := List.mem_map.mp hv
        have hp := (hpos rfl).2 nm (hs nm hnm)
        simpa [horner_cons, horner_replicate_zero, ha0, pidPos] using hp
    · refine ⟨List.replicate (th.toNat - 1) 0, by simp [ownDraws], fun v hv => ?_⟩
      obtain ⟨nm, -, rfl⟩ := List.mem_map.mp hv
      simpa [horner_cons, horner_replicate_zero] using ha0

end Values

variable {q n : ℕ} {E D R P : Type} [AddCommGroup E] [Module (ZMod q) E] [hq : Fact q.Prime]

/-- One node with suitable deals of all its children. -/
theorem exists_dealt_children (pid : PName → ℕ) (additional : Option (Curve q E))
    (h2 : 2 < q) {type : NodeType} {name : PName} {th : ℤ} {cs : List Node}
    (hwf : LocalWf (mk type name th cs)) (hleaf : type ≠ .leaf)
    (hnd : (mk type name th cs).names.Nodup)
    (hpos : LocalPositions (pidPos q pid) (mk type name th cs))
    (hrange : LocalPidsInRange q pid (mk type name th cs)) (a : ZMod q)
    (ha : a ≠ 0 ∨ RootSplits (mk type name th cs))
    (hcs : ∀ c ∈ cs, ∀ v : ZMod q, v ≠ 0 → ∃ draws τ,
      Deal.Good pid additional (· ≠ 0) ⟨c, v, draws⟩ τ) :
    ∃ draws τ, Dealt pid additional (mk type name th cs) a draws τ ∧ τ name = a ∧
      Consistent (pidPos q pid) τ (mk type name th cs) ∧ ∀ c ∈ cs, ∀ nm ∈ c.names, τ nm ≠ 0 := by
  have hperm := List.perm_insertionSort (fun a b : Node => a.name ≤ b.name) cs
  obtain ⟨draws, hd, hne⟩ := exists_childValues pid h2 hwf hleaf hpos a ha
    ((cs.insertionSort (fun a b => a.name ≤ b.name)).map Node.name) (fun nm hnm =>
      (hperm.map Node.name).mem_iff.mp hnm)
  have hvlen := childValues_length pid hwf hleaf a hd
    ((cs.insertionSort (fun a b => a.name ≤ b.name)).map Node.name) (by simp [hperm.length_eq])
  generalize hvals : childValues pid type a
    ((cs.insertionSort (fun a b => a.name ≤ b.name)).map Node.name) draws = vals at *
  -- the deals of the children, in the order in which they are dealt
  have hdeals : ∀ l : List (Node × ZMod q), (∀ p ∈ l, p.1 ∈ cs ∧ p.2 ≠ 0) → ∃ ds : List (Deal q),
      ds.map Deal.child = l.map Prod.fst ∧ ds.map Deal.value = l.map Prod.snd ∧
      ∀ d ∈ ds, ∃ τ, d.Good pid additional (· ≠ 0) τ := by
    intro l
    induction l with
    | nil => exact fun _ => ⟨[], rfl, rfl, by simp⟩
    | cons p l ih =>
      intro hl
      obtain ⟨ds, hchild, hval, hgood⟩ := ih fun p hp => hl p (by simp [hp])
      obtain ⟨hc, hv⟩ := hl p (by simp)
      obtain ⟨pd, τ, hg⟩ := hcs p.1 hc p.2 hv
      refine ⟨⟨p.1, p.2, pd⟩ :: ds, by simp [hchild], by simp [hval], fun d hd => ?_⟩
      rcases List.mem_cons.mp hd with rfl | hd
      · exact ⟨τ, hg⟩
      · exact hgood d hd
  obtain ⟨ds, hchild, hval, hgood⟩ :=
    hdeals ((cs.insertionSort (fun a b => a.name ≤ b.name)).zip vals)
    (fun p hp => ⟨hperm.mem_iff.mp (List.of_mem_zip hp).1, hne p.2 (List.of_mem_zip hp).2⟩)
  rw [List.map_fst_zip (by simp [hperm.length_eq, hvlen])] at hchild
  rw [List.map_snd_zip (by simp [hperm.length_eq, hvlen])] at hval
  obtain ⟨τ, hdealt, hroot, hcons, hnz⟩ :=
    exists_dealt_node pid additional (· ≠ 0) hwf hleaf hnd hpos hrange a
    draws hd ds hchild (hval.trans hvals.symm) hgood
  exact ⟨_, τ, hdealt, hroot, hcons, hnz⟩

/-- A nonzero value can be dealt without any zero. -/
theorem exists_dealt_nonzero (pid : PName → ℕ)
    (additional : Option (Curve q E)) (h2 : 2 < q) {t : Node} (hwf : t.WellFormed)
    (hnd : t.names.Nodup) (hpos : Positions (pidPos q pid) t) (hrange : PidsInRange q pid t)
    (a : ZMod q) (ha : a ≠ 0) : ∃ draws τ, Deal.Good pid additional (· ≠ 0) ⟨t, a, draws⟩ τ := by
  induction t using Node.induction generalizing a with
  | h type name th cs ih =>
    obtain ⟨hlwf, hcwf⟩ := forall_mk.mp hwf
    obtain ⟨hlpos, hcpos⟩ := forall_mk.mp hpos
    obtain ⟨hlrange, hcrange⟩ := forall_mk.mp hrange
    by_cases hleaf : type = .leaf
    · subst hleaf
      obtain ⟨h0, hlen⟩ : th = 0 ∧ cs.length = 0 := hlwf
      have hcs : cs = [] := List.length_eq_zero_iff.mp hlen
      subst h0 hcs
      exact ⟨[], fun _ => a, dealt_leaf pid additional name (fun _ => a), rfl,
        forall_mk.mpr ⟨trivial, by simp⟩,
        fun _ _ => ha⟩
    · obtain ⟨draws, τ, hdealt, hroot, hcons, hnz⟩ :=
        exists_dealt_children pid additional h2 hlwf hleaf hnd hlpos
        hlrange a (.inl ha) fun c hc v hv =>
          ih c hc (hcwf c hc) (nodup_child hnd c hc) (hcpos c hc) (hcrange c hc) v hv
      refine ⟨draws, τ, hdealt, hroot, hcons, fun nm hnm => ?_⟩
      rw [names_mk, List.mem_cons, List.mem_flatMap] at hnm
      rcases hnm with rfl | ⟨c, hc, hnm⟩
      · exact hroot ▸ ha
      · exact hnz c hc nm hnm

variable {o : Oracles E D R P} {S : AcSession q E n}

/-- A splitting root can deal 0 with all other values nonzero. -/
theorem exists_affine_dealing (hv : S.Valid o) (h2 : 2 < q) (hrefresh : S.isRefresh = true)
    (hsplit : RootSplits S.ac) (me : AcParty q E R) :
    ∃ rand τ, Deals o S { me with rand := rand } τ ∧ AffineDealing S τ := by
  obtain ⟨hwf, hnd, -⟩ := validateTree_ok hv.tree
  have hpos := hv.positions
  have hrange := hv.pidsInRange
  obtain ⟨job, curve, ⟨type, name, th, cs⟩, quorum, sid, isRefresh⟩ := S
  obtain ⟨hlwf, hcwf⟩ := forall_mk.mp hwf
  obtain ⟨hlpos, hcpos⟩ := forall_mk.mp hpos
  obtain ⟨hlrange, hcrange⟩ := forall_mk.mp hrange
  have hleaf : type ≠ .leaf := by
    rintro rfl
    simp [RootSplits] at hsplit
  obtain ⟨draws, τ, hdealt, hroot, hcons, hnz⟩ :=
    exists_dealt_children o.pid (some curve) h2 hlwf hleaf hnd hlpos
    hlrange 0 (.inr hsplit) fun c hc v hv =>
      exists_dealt_nonzero o.pid (some curve) h2 (hcwf c hc) (nodup_child hnd c hc)
        (hcpos c hc) (hcrange c hc) v hv
  subst hrefresh
  refine ⟨draws ++ₛ Stream'.const 0, τ, ⟨⟨_, hdealt.shareWithInternals_eq _⟩, hroot, hcons⟩, ?_⟩
  intro nm hnm hne
  have hnm : nm ∈ (mk type name th cs).names := hnm
  rw [names_mk, List.mem_cons, List.mem_flatMap] at hnm
  rcases hnm with rfl | ⟨c, hc, hnm⟩
  · exact absurd rfl (hne rfl)
  · exact hnz c hc nm hnm

/-- A root that does not split hands 0 on to a child. -/
theorem not_affineDealing {me : AcParty q E R} {τ : PName → ZMod q} (hv : S.Valid o)
    (hrefresh : S.isRefresh = true) (hsplit : ¬RootSplits S.ac) (hτ : Deals o S me τ) :
    ¬AffineDealing S τ := by
  obtain ⟨hwf, hnd, hname⟩ := validateTree_ok hv.tree
  have hzero : τ S.ac.name = 0 := by rw [hτ.root, dealtSecret, if_pos hrefresh]
  have hlocal := hτ.consistent.self
  have hlwf := hwf.self
  have hleaf : S.ac.type ≠ .leaf := by
    intro hl
    obtain ⟨l, hl⟩ := (hv.leaves S.ac.name).mp
      (List.mem_map_of_mem (List.mem_filter.mpr ⟨self_mem_subtrees _, by simpa using hl⟩))
    exact hv.name_ne_root l hl
  obtain ⟨c, hc, hcz⟩ : ∃ c ∈ S.ac.children, τ c.name = 0 := by
    generalize S.ac = t at *
    obtain ⟨type, name, th, cs⟩ := t
    cases type with
    | none => exact absurd hlwf (by simp [LocalWf])
    | leaf => exact absurd rfl hleaf
    | or =>
      obtain ⟨c, hc⟩ := List.exists_mem_of_length_pos (Nat.pos_of_ne_zero hlwf.2)
      exact ⟨c, hc, (hlocal c.name (List.mem_map_of_mem hc)).trans hzero⟩
    | and =>
      have hlen : cs.length = 1 := by
        have h0 : cs.length ≠ 0 := hlwf.2
        have h2 : ¬2 ≤ cs.length := fun h => hsplit (.inl ⟨rfl, h⟩)
        omega
      obtain ⟨c, rfl⟩ := List.length_eq_one_iff.mp hlen
      have hsum : (([c].map Node.name).map τ).sum = 0 := Eq.trans hlocal hzero
      exact ⟨c, by simp, by simpa using hsum⟩
    | threshold =>
      obtain ⟨h1, hn⟩ : 1 ≤ th ∧ th ≤ cs.length := hlwf
      have hth : th = 1 := by
        have h2 : ¬2 ≤ th := fun h => hsplit (.inr ⟨rfl, h⟩)
        omega
      subst hth
      obtain ⟨b, hb, hb0, hbc⟩ := hlocal
      obtain ⟨v, rfl⟩ := List.length_eq_one_iff.mp hb
      obtain ⟨c, hc⟩ := List.exists_mem_of_length_pos (by omega : 0 < cs.length)
      have hv0 : v = 0 := by
        have h : horner [v] (0 : ZMod q) = 0 := hb0.trans hzero
        simpa [horner_cons, horner] using h
      refine ⟨c, hc, ?_⟩
      rw [hbc c.name (List.mem_map_of_mem hc), hv0]
      simp [horner]
  intro haff
  have hmem : c ∈ S.ac.subtrees := child_mem_subtrees (self_mem_subtrees _) hc
  exact haff c.name (name_mem_of_mem_subtrees hmem) (fun _ => child_name_ne hnd hc) hcz

variable [DecidableEq E] [DecidableEq D] [Inhabited R] [Inhabited P] {me : Fin n → AcParty q E R}
  {rv : ErrorCode} {τ : Fin n → PName → ZMod q}

/-- A party that succeeds has received the maps of all other dealers. -/
theorem affine_of_success (hv : S.Valid o) (hτ : ∀ j ∈ S.quorum, Deals o S (me j) (τ j)) {i : Fin n}
    {key : KeyShareMp q E} (hok : acResult o S me (honestRun o S me rv) i = .ok key) {j : Fin n}
    (hj : j ∈ S.quorum) (hji : j ≠ i) : AffineDealing S (τ j) := by
  rw [acResult, dkgOrRefreshAc, honestRun, acCommitted_honest hv hτ, ok_bind] at hok
  obtain ⟨ms, hms, -⟩ := bind_ok_iff.mp hok
  cases hin : honestIn3 o S me rv i with
  | error rv' => simp [received, hin, fail] at hms
  | ok msgs =>
    obtain ⟨hsent, hdes⟩ := honestInbox_ok hin j hji
    rw [acSend3, acCommitted_honest hv hτ, ok_bind] at hsent
    have hmsg : msgs j = honestMessages o S me τ i j := (Except.ok.inj hsent).symm
    rw [hmsg, honestMessages_eq i hj] at hdes
    intro nm hnm hroot hzero
    have hfind : (pubMap S (τ j)).find nm = some 0 := by
      rw [find_pubMap, if_pos ⟨hnm, hroot⟩, hzero, zero_smul]
    have hmem : (0 : E) ∈ (pubMap S (τ j)).values := (OrderedMap.mem_values_iff _ _).mpr ⟨nm, hfind⟩
    simp only [AcMsg.deserializes, OrderedMap.values_mapValues, List.all_map,
      List.all_eq_true] at hdes
    simpa using hdes 0 hmem

/-- The parties with other values to draw. -/
def redraw (me : Fin n → AcParty q E R) (rand : Fin n → Rand q) (i : Fin n) : AcParty q E R :=
  { me i with rand := rand i }

omit [Module (ZMod q) E] hq [DecidableEq E] in
theorem exists_other (S : AcSession q E n) (j : Fin n) : ∃ i : Fin n, i ≠ j := by
  have : Nontrivial (Fin n) := Fin.nontrivial_iff_two_le.mpr S.job.two_le
  exact exists_ne j

/-- Below a root that does not split, no refresh succeeds at all parties. -/
theorem exists_failure (hv : S.Valid o) (hrefresh : S.isRefresh = true) (hsplit : ¬RootSplits S.ac)
    (me : Fin n → AcParty q E R) (rv : ErrorCode) :
    ∃ i, ∀ key, acResult o S me (honestRun o S me rv) i ≠ .ok key := by
  choose τ hτ using fun j => exists_labelling hv (me j)
  obtain ⟨j, hj⟩ := List.exists_mem_of_ne_nil _ hv.quorumList_ne_nil
  obtain ⟨i, hij⟩ := exists_other S j
  refine ⟨i, fun key hok => not_affineDealing hv hrefresh hsplit (hτ j) ?_⟩
  exact affine_of_success hv (fun j _ => hτ j) hok (AcSession.mem_quorumList.mp hj) hij.symm

/-- Below a root that splits, suitable draws let the refresh succeed. -/
theorem exists_success (hv : S.Valid o) (ho : o.Complete S.curve) (h2 : 2 < q)
    (hrefresh : S.isRefresh = true) (hsplit : RootSplits S.ac) {σ : PName → ZMod q}
    (hσ : Consistent (pidPos q o.pid) σ S.ac)
    (hkey : ∀ i, HoldsShare S.curve S.ac σ (S.job.names i) (me i).key) :
    ∃ rand, ∀ i, ∃ key, acResult o S (redraw me rand) (honestRun o S (redraw me rand) rv) i =
      .ok key := by
  choose rand τ hτ haff using fun j => exists_affine_dealing hv h2 hrefresh hsplit (me j)
  refine ⟨rand, fun i => ⟨refreshedKey S σ τ (me i).key i, ?_⟩⟩
  have hkey' : ∀ i, HoldsShare S.curve S.ac σ (S.job.names i) (redraw me rand i).key := hkey
  exact acResult_refresh hv ho hrefresh hσ hkey' (fun j _ => hτ j) (fun j _ => haff j) i

/-- What a refresh that succeeds at all parties leaves behind. -/
theorem success_holdsShare (hv : S.Valid o) (ho : o.Complete S.curve)
    (hrefresh : S.isRefresh = true) {σ : PName → ZMod q} (hσ : Consistent (pidPos q o.pid) σ S.ac)
    (hkey : ∀ i, HoldsShare S.curve S.ac σ (S.job.names i) (me i).key)
    {key : Fin n → KeyShareMp q E}
    (hok : ∀ i, acResult o S me (honestRun o S me rv) i = .ok (key i)) :
    ∃ σ', Consistent (pidPos q o.pid) σ' S.ac ∧ σ' S.ac.name = σ S.ac.name ∧
      (∀ i, HoldsShare S.curve S.ac σ' (S.job.names i) (key i)) ∧
      ∀ i k, (me i).key.Qis = (me k).key.Qis → (key i).Qis = (key k).Qis := by
  choose τ hτ using fun j => exists_labelling hv (me j)
  have haff : ∀ j ∈ S.quorum, AffineDealing S (τ j) := by
    intro j hj
    obtain ⟨i, hij⟩ := exists_other S j
    exact affine_of_success hv (fun j _ => hτ j) (hok i) hj hij.symm
  have heq : ∀ i, key i = refreshedKey S σ τ (me i).key i := fun i =>
    Except.ok.inj ((hok i).symm.trans
      (acResult_refresh hv ho hrefresh hσ hkey (fun j _ => hτ j) haff i))
  refine ⟨fun nm => σ nm + sumLabel S τ nm, hσ.add (Deals.sum fun j _ => hτ j), ?_, fun i => ?_,
    fun i k h => ?_⟩
  · exact (congrArg (σ S.ac.name + ·) (sumLabel_root hrefresh fun j _ => hτ j)).trans (add_zero _)
  · rw [heq i]
    exact refreshedKey_holdsShare hv hrefresh (fun j _ => hτ j) (hkey i)
  · rw [heq i, heq k, refreshedKey, refreshedKey, h]

/-- Refresh is available, and keeps the key, exactly below roots that split their value. -/
theorem refreshAc_available_iff (hv : S.Valid o) (ho : o.Complete S.curve) (h2 : 2 < q)
    (hrefresh : S.isRefresh = true) {σ : PName → ZMod q} (hσ : Consistent (pidPos q o.pid) σ S.ac)
    (hkey : ∀ i, HoldsShare S.curve S.ac σ (S.job.names i) (me i).key) (rv : ErrorCode) :
    ((∃ rand, ∀ i, ∃ key, acResult o S (redraw me rand)
      (honestRun o S (redraw me rand) rv) i = .ok key) ∧
      ∀ rand (key : Fin n → KeyShareMp q E),
        (∀ i, acResult o S (redraw me rand) (honestRun o S (redraw me rand) rv) i = .ok (key i)) →
        (∃ σ', Consistent (pidPos q o.pid) σ' S.ac ∧ σ' S.ac.name = σ S.ac.name ∧
          ∀ i, HoldsShare S.curve S.ac σ' (S.job.names i) (key i)) ∧
        (∀ i, (key i).Q = (me i).key.Q) ∧
        (∀ i k l, (key i).Qis.find (S.job.names l) = (key k).Qis.find (S.job.names l)) ∧
        (∀ i k, (me i).key.Qis = (me k).key.Qis → (key i).Qis = (key k).Qis) ∧
        ∀ i, ∃ X, S.curve.mulToGenerator (key i).xShare = .ok X ∧
          (key i).Qis.find (S.job.names i) = some X) ↔
      RootSplits S.ac := by
  constructor
  · rintro ⟨⟨rand, hall⟩, -⟩
    by_contra hsplit
    obtain ⟨i, hfail⟩ := exists_failure hv hrefresh hsplit (redraw me rand) rv
    obtain ⟨key, hok⟩ := hall i
    exact hfail key hok
  · intro hsplit
    refine ⟨exists_success hv ho h2 hrefresh hsplit hσ hkey, fun rand key hok => ?_⟩
    have hkey' : ∀ i, HoldsShare S.curve S.ac σ (S.job.names i) (redraw me rand i).key := hkey
    obtain ⟨σ', hσ', hroot, hholds, hmaps⟩ := success_holdsShare hv ho hrefresh hσ hkey' hok
    refine ⟨⟨σ', hσ', hroot, hholds⟩, fun i => ?_, fun i k l => ?_, hmaps, fun i => ?_⟩
    · rw [(hholds i).Q_eq, (hkey i).Q_eq, hroot]
    · rw [(hholds i).Qis_eq _ (hv.name_mem l), (hholds k).Qis_eq _ (hv.name_mem l)]
    · rw [(hholds i).share_eq]
      exact ⟨_, mulToGenerator_residue _ _, (hholds i).Qis_eq _ (hv.name_mem i)⟩

section Examples

/-- The sample tree has a 2-of-3 root, and its keys can be refreshed. -/
theorem refreshAc_available_sample : RootSplits sampleTree ∧
    ∃ rand, ∀ i, ∃ key, acResult sampleOracles (sampleSession true) (redraw sampleParty rand)
      (honestRun sampleOracles (sampleSession true) (redraw sampleParty rand) .netGeneral) i =
        .ok key := by
  have hsplit : RootSplits (sampleSession true).ac := by decide
  have hkey : ∀ i, HoldsShare sampleCurve sampleTree sampleLabel (sampleNames i)
      (sampleParty i).key := fun i =>
    sampleKey_holdsShare (sampleNames i)
  have h :=
    (refreshAc_available_iff (sampleSession_valid true) sampleOracles_complete (by decide) rfl
    sampleLabel_consistent hkey .netGeneral).mpr hsplit
  exact ⟨hsplit, h.1⟩

/-- Either of two parties can act. -/
def eitherTree : Node := mk .or [] 0 [mk .leaf [97] 0 [], mk .leaf [98] 0 []]

def eitherSession : AcSession 1009 (ZMod 1009) 2 where
  job := ⟨![[97], [98]], by decide, by decide, le_rfl⟩
  curve := sampleCurve
  ac := eitherTree
  quorum := {0}
  sid := []
  isRefresh := true

def eitherParty (i : Fin 2) : AcParty 1009 (ZMod 1009) ℕ where
  key := ⟨5, 5, .ofKeys (fun _ => 5) [[97], [98]], sampleCurve, eitherSession.job.names i⟩
  r := 1
  rand := Stream'.const 1
  proofCoins := 0
  comRand := 0
  localSid := []
  sidPart := List.replicate 16 0
  sidPart_length := length_sampleSid

theorem eitherSession_valid : eitherSession.Valid sampleOracles where
  tree := by decide
  enough := by decide
  leaves nm := by
    constructor
    · have hl : ∀ nm ∈ eitherTree.listLeafNames, ∃ l, eitherSession.job.names l = nm := by decide
      exact hl nm
    · rintro ⟨l, rfl⟩
      have hl : ∀ l, eitherSession.job.names l ∈ eitherTree.listLeafNames := by decide
      exact hl l
  positions := by decide
  pidsInRange := by decide

theorem eitherParty_holdsShare (i : Fin 2) :
    HoldsShare eitherSession.curve eitherSession.ac (fun _ => 5)
    (eitherSession.job.names i) (eitherParty i).key where
  curve_eq := rfl
  name_eq := rfl
  share_eq := rfl
  Q_eq := rfl
  Qis_eq := by
    have h : ∀ nm ∈ eitherTree.listLeafNames,
        (OrderedMap.ofKeys (fun _ => (5 : ZMod 1009)) [[97], [98]]).find nm =
        some ((5 : ZMod 1009) • (1 : ZMod 1009)) := by decide
    exact h

/-- No draws let the refresh of an OR of two parties succeed at both. -/
theorem eitherSession_unavailable : eitherSession.Valid sampleOracles ∧
    Consistent (pidPos 1009 samplePid) (fun _ => (5 : ZMod 1009)) eitherTree ∧
    (∀ i, HoldsShare eitherSession.curve eitherSession.ac (fun _ => 5) (eitherSession.job.names i)
      (eitherParty i).key) ∧
    ¬∃ rand, ∀ i, ∃ key, acResult sampleOracles eitherSession (redraw eitherParty rand)
      (honestRun sampleOracles eitherSession (redraw eitherParty rand) .netGeneral) i =
        .ok key := by
  refine ⟨eitherSession_valid, ?_, eitherParty_holdsShare, ?_⟩
  · refine forall_mk.mpr ⟨fun _ _ => rfl, fun c hc => ?_⟩
    have hleaf : c.type = .leaf ∧ c.children = [] := by
      have h : ∀ c ∈ [mk .leaf [97] 0 [], mk .leaf [98] 0 []], c.type = .leaf ∧
        c.children = [] := by simp
      exact h c hc
    obtain ⟨type, name, th, cs⟩ := c
    obtain ⟨rfl, rfl⟩ : type = .leaf ∧ cs = [] := hleaf
    exact forall_mk.mpr ⟨trivial, by simp⟩
  · rintro ⟨rand, hall⟩
    obtain ⟨i, hfail⟩ := exists_failure eitherSession_valid rfl (by decide)
      (redraw eitherParty rand) .netGeneral
    obtain ⟨key, hok⟩ := hall i
    exact hfail key hok

end Examples

end CbMpc
