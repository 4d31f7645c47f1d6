import CbMpc.AccessTree
import CbMpc.Interpolation

/-!
# Sharings as labellings of the tree

A sharing puts a value of some vector space at every name of the tree, such that
at each node the children's values determine the node's by the rule of its kind.
Secret scalars, public points and differences of sharings are all labellings, so
the properties below are stated once, for an arbitrary vector space.
-/
namespace CbMpc

open Interpolation Node

variable {F M N : Type} [Field F] [AddCommGroup M] [Module F M] [AddCommGroup N] [Module F N]

/-- The rule that ties the value at a node to the values at its children, where
`pos` gives the evaluation point of a child of a THRESHOLD node. -/
def LocalConsistent (pos : PName → F) (τ : PName → M) (s : Node) : Prop :=
  match s.type with
  | .or => ∀ nm ∈ s.children.map name, τ nm = τ s.name
  | .and => ((s.children.map name).map τ).sum = τ s.name
  | .threshold => ∃ b : List M, b.length = s.threshold.toNat ∧ horner b (0 : F) = τ s.name ∧
      ∀ nm ∈ s.children.map name, τ nm = horner b (pos nm)
  | .leaf | .none => True

def Consistent (pos : PName → F) (τ : PName → M) (t : Node) : Prop :=
  t.Forall (LocalConsistent pos τ)

/-- Children of a THRESHOLD node sit at distinct nonzero points. -/
def LocalPositions (pos : PName → F) (s : Node) : Prop :=
  s.type = .threshold → ((s.children.map name).map pos).Nodup ∧
    ∀ nm ∈ s.children.map name, pos nm ≠ 0

def Positions (pos : PName → F) (t : Node) : Prop := t.Forall (LocalPositions pos)

instance [DecidableEq F] (pos : PName → F) (t : Node) : Decidable (Positions pos t) :=
  inferInstanceAs (Decidable (∀ s ∈ t.subtrees, s.type = .threshold → _))

theorem Positions.permuted {pos : PName → F} {t t' : Node} (h : Permuted t t')
    (ht : Positions pos t) :
    Positions pos t' := by
  refine h.forall (fun type name th cs cs' hcs hl htype => ?_) ht
  obtain ⟨hnd, hne⟩ := hl htype
  exact ⟨((hcs.map pos).nodup_iff).mp hnd, fun nm hnm => hne nm (hcs.mem_iff.mpr hnm)⟩

/-- A sharing along a tree is one along every reordering of it. -/
theorem Consistent.permuted {pos : PName → F} {τ : PName → M} {t t' : Node} (h : Permuted t t')
    (ht : Consistent pos τ t) : Consistent pos τ t' := by
  refine h.forall (fun type name th cs cs' hcs hl => ?_) ht
  cases type with
  | none => trivial
  | leaf => trivial
  | or => exact fun nm hnm => hl nm (hcs.mem_iff.mpr hnm)
  | and => exact (((hcs.map τ).sum_eq).symm).trans hl
  | threshold =>
    obtain ⟨b, hlen, hroot, hch⟩ := hl
    exact ⟨b, hlen, hroot, fun nm hnm => hch nm (hcs.mem_iff.mpr hnm)⟩

theorem LocalConsistent.congr {pos : PName → F} {τ τ' : PName → M} {s : Node}
    (hname : τ s.name = τ' s.name) (hch : ∀ nm ∈ s.children.map name, τ nm = τ' nm)
    (h : LocalConsistent pos τ s) : LocalConsistent pos τ' s := by
  obtain ⟨type, name, th, cs⟩ := s
  cases type with
  | none => trivial
  | leaf => trivial
  | or =>
    intro nm hnm
    exact ((hch nm hnm).symm.trans (h nm hnm)).trans hname
  | and =>
    have hmap : (cs.map Node.name).map τ' = (cs.map Node.name).map τ :=
      List.map_congr_left fun nm hnm => (hch nm hnm).symm
    exact (congrArg List.sum hmap).trans (Eq.trans h hname)
  | threshold =>
    obtain ⟨b, hlen, hroot, hb⟩ := h
    exact ⟨b, hlen, hroot.trans hname, fun nm hnm => (hch nm hnm).symm.trans (hb nm hnm)⟩

theorem name_mem_of_mem_subtrees {t s : Node} (hs : s ∈ t.subtrees) : s.name ∈ t.names :=
  List.mem_map_of_mem hs

theorem child_mem_subtrees {t s c : Node} (hs : s ∈ t.subtrees) (hc : c ∈ s.children) :
    c ∈ t.subtrees := by
  induction t using Node.induction with
  | h type name th cs ih =>
    rcases mem_subtrees_mk.mp hs with rfl | ⟨d, hd, hsd⟩
    · exact mem_subtrees_mk.mpr (.inr ⟨c, hc, self_mem_subtrees c⟩)
    · exact mem_subtrees_mk.mpr (.inr ⟨d, hd, ih d hd hsd⟩)

/-- Whether a labelling is a sharing along a tree depends on its values there only. -/
theorem Consistent.congr {pos : PName → F} {τ τ' : PName → M} {t : Node}
    (h : ∀ nm ∈ t.names, τ nm = τ' nm) (ht : Consistent pos τ t) : Consistent pos τ' t := by
  intro s hs
  refine LocalConsistent.congr (h _ (name_mem_of_mem_subtrees hs)) (fun nm hnm => ?_) (ht s hs)
  obtain ⟨c, hc, rfl⟩ := List.mem_map.mp hnm
  exact h _ (name_mem_of_mem_subtrees (child_mem_subtrees hs hc))

theorem Consistent.add {pos : PName → F} {τ σ : PName → M} {t : Node} (hτ : Consistent pos τ t)
    (hσ : Consistent pos σ t) : Consistent pos (fun nm => τ nm + σ nm) t := by
  intro s hs
  have hs₁ := hτ s hs
  have hs₂ := hσ s hs
  obtain ⟨type, name, th, cs⟩ := s
  cases type with
  | none => trivial
  | leaf => trivial
  | or => exact fun nm hnm => congrArg₂ (· + ·) (hs₁ nm hnm) (hs₂ nm hnm)
  | and => exact (List.sum_map_add).trans (congrArg₂ (· + ·) hs₁ hs₂)
  | threshold =>
    obtain ⟨b, hb, hb0, hbc⟩ := hs₁
    obtain ⟨c, hc, hc0, hcc⟩ := hs₂
    have hlen : b.length = c.length := hb.trans hc.symm
    refine ⟨List.zipWith (· + ·) b c, by simp [hlen, hc], ?_, fun nm hnm => ?_⟩
    · rw [horner_zipWith_add b c hlen, hb0, hc0]
    · rw [horner_zipWith_add b c hlen, ← hbc nm hnm, ← hcc nm hnm]

theorem Consistent.zero (pos : PName → F) {t : Node} : Consistent pos (fun _ => (0 : M)) t := by
  intro s _
  obtain ⟨type, name, th, cs⟩ := s
  cases type with
  | none => trivial
  | leaf => trivial
  | or => exact fun _ _ => rfl
  | and => exact List.sum_eq_zero (by simp)
  | threshold => exact ⟨List.replicate th.toNat 0, by simp, horner_replicate_zero _ _, fun nm _ =>
      (horner_replicate_zero _ _).symm⟩

/-- The sum of finitely many sharings shares the sum of the secrets. -/
theorem Consistent.sum {ι : Type} {pos : PName → F} {τ : ι → PName → M} {t : Node} (l : List ι)
    (h : ∀ j ∈ l, Consistent pos (τ j) t) :
    Consistent pos (fun nm => (l.map (fun j => τ j nm)).sum) t := by
  induction l with
  | nil => exact Consistent.zero pos
  | cons j l ih =>
    simp only [List.map_cons, List.sum_cons]
    exact (h j (by simp)).add (ih fun i hi => h i (by simp [hi]))

/-- The image of a sharing under a linear map, such as multiplication of the generator. -/
theorem Consistent.map {pos : PName → F} {τ : PName → M} {t : Node} (f : M →ₗ[F] N)
    (h : Consistent pos τ t) : Consistent pos (fun nm => f (τ nm)) t := by
  intro s hs
  have hs' := h s hs
  obtain ⟨type, name, th, cs⟩ := s
  cases type with
  | none => trivial
  | leaf => trivial
  | or => exact fun nm hnm => congrArg f (hs' nm hnm)
  | and =>
    have hsum : f ((cs.map Node.name).map τ).sum =
        ((cs.map Node.name).map (fun nm => f (τ nm))).sum := by
      rw [map_list_sum, List.map_map]
      rfl
    exact hsum.symm.trans (congrArg f hs')
  | threshold =>
    obtain ⟨b, hb, hb0, hbc⟩ := hs'
    refine ⟨b.map f, by simpa using hb, ?_, fun nm hnm => ?_⟩
    · rw [horner_map, hb0]
    · exact (congrArg f (hbc nm hnm)).trans (horner_map f b (pos nm)).symm

/-- Labellings of disjoint children are the restrictions of one labelling. -/
theorem exists_glue {ι : Type} (l : List ι) (keys : ι → List PName) (Good : ι → (PName → M) → Prop)
    (hcongr : ∀ i τ τ', (∀ nm ∈ keys i, τ nm = τ' nm) → Good i τ → Good i τ')
    (hdisj : l.Pairwise (fun i j => List.Disjoint (keys i) (keys j)))
    (h : ∀ i ∈ l, ∃ τ, Good i τ) : ∃ τ, ∀ i ∈ l, Good i τ := by
  induction l with
  | nil => exact ⟨fun _ => 0, by simp⟩
  | cons i l ih =>
    obtain ⟨hi, hl⟩ := List.pairwise_cons.mp hdisj
    obtain ⟨σ, hσ⟩ := ih hl (fun j hj => h j (by simp [hj]))
    obtain ⟨τ, hτ⟩ := h i (by simp)
    refine ⟨fun nm => if nm ∈ keys i then τ nm else σ nm, fun j hj => ?_⟩
    rcases List.mem_cons.mp hj with rfl | hj
    · exact hcongr j τ _ (fun nm hnm => by simp [hnm]) hτ
    · exact hcongr j σ _ (fun nm hnm => by
        have hni : nm ∉ keys i := fun hmem => hi j hj hmem hnm
        simp [hni]) (hσ j hj)

/-- The rule at a node as far as it concerns one leaf below: at an OR node only the
child above that leaf is tied to the node. -/
def PathConsistent (pos : PName → F) (τ : PName → M) (leaf : PName) (s : Node) : Prop :=
  if s.type = .or then ∀ c ∈ s.children, leaf ∈ c.names → τ c.name = τ s.name else
    LocalConsistent pos τ s

theorem PathConsistent.of_or {pos : PName → F} {τ : PName → M} {leaf : PName} {s : Node}
    (h : PathConsistent pos τ leaf s) (hor : s.type = .or) :
    ∀ c ∈ s.children, leaf ∈ c.names → τ c.name = τ s.name := by
  rwa [PathConsistent, if_pos hor] at h

theorem PathConsistent.of_ne_or {pos : PName → F} {τ : PName → M} {leaf : PName} {s : Node}
    (h : PathConsistent pos τ leaf s) (hor : s.type ≠ .or) : LocalConsistent pos τ s := by
  rwa [PathConsistent, if_neg hor] at h

theorem PathConsistent.congr {pos : PName → F} {τ τ' : PName → M} {leaf : PName} {s : Node}
    (hname : τ s.name = τ' s.name) (hch : ∀ c ∈ s.children, τ c.name = τ' c.name)
    (h : PathConsistent pos τ leaf s) : PathConsistent pos τ' leaf s := by
  rw [PathConsistent]
  split
  · rename_i hor
    intro c hc hleaf
    rw [← hch c hc, ← hname, h.of_or hor c hc hleaf]
  · rename_i hne
    refine (h.of_ne_or hne).congr hname fun nm hnm => ?_
    obtain ⟨c, hc, rfl⟩ := List.mem_map.mp hnm
    exact hch c hc

/-- Sharings of the children's values make a sharing of the node's value. -/
theorem exists_consistent_node (pos : PName → F) {type : NodeType} {name : PName}
    {th : ℤ} {cs : List Node} (hnd : (mk type name th cs).names.Nodup) (v : M) (f : Node → M)
    (live : PName → Prop) (val : PName → M)
    (hlocal : ∀ τ : PName → M, τ name = v → (∀ c ∈ cs, τ c.name = f c) →
      LocalConsistent pos τ (mk type name th cs))
    (hcs : ∀ c ∈ cs, ∃ τ : PName → M, Consistent pos τ c ∧ τ c.name = f c ∧
      ∀ nm ∈ c.listLeafNames, live nm → τ nm = val nm) :
    ∃ τ : PName → M, Consistent pos τ (mk type name th cs) ∧ τ name = v ∧
      ∀ c ∈ cs, ∀ nm ∈ c.listLeafNames, live nm → τ nm = val nm := by
  have hcongr : ∀ (c : Node) (τ τ' : PName → M), (∀ nm ∈ c.names, τ nm = τ' nm) →
      (Consistent pos τ c ∧ τ c.name = f c ∧ ∀ nm ∈ c.listLeafNames, live nm → τ nm = val nm) →
      (Consistent pos τ' c ∧ τ' c.name = f c ∧ ∀ nm ∈ c.listLeafNames,
        live nm → τ' nm = val nm) := by
    rintro c τ τ' h ⟨hcons, hname, hlive⟩
    exact ⟨hcons.congr h, (h _ (name_mem_names c)).symm.trans hname, fun nm hnm hl =>
      (h nm (listLeafNames_subset c hnm)).symm.trans (hlive nm hnm hl)⟩
  obtain ⟨σ, hσ⟩ := exists_glue cs names
    (fun c τ => Consistent pos τ c ∧ τ c.name = f c ∧ ∀ nm ∈ c.listLeafNames,
      live nm → τ nm = val nm)
    hcongr (pairwise_disjoint_children hnd) hcs
  have hout : ∀ c ∈ cs, ∀ nm ∈ c.names, σ nm = Function.update σ name v nm := by
    intro c hc nm hnm
    have hne : nm ≠ name := by
      rintro rfl
      exact name_not_mem_child hnd c hc hnm
    rw [Function.update_of_ne hne]
  have hgood := fun c hc => hcongr c σ (Function.update σ name v) (hout c hc) (hσ c hc)
  have hself : Function.update σ name v name = v := Function.update_self name v σ
  exact ⟨Function.update σ name v,
    forall_mk.mpr ⟨hlocal _ hself fun c hc => (hgood c hc).2.1, fun c hc => (hgood c hc).1⟩, hself,
    fun c hc => (hgood c hc).2.2⟩

/-- Every value can be shared along every tree. -/
theorem exists_consistent (pos : PName → F) {t : Node} (hwf : t.WellFormed)
    (hnd : t.names.Nodup) (v : M) :
    ∃ τ : PName → M, Consistent pos τ t ∧ τ t.name = v := by
  induction t, hwf using WellFormed.induction generalizing v with
  | leaf name _ => exact ⟨fun _ => v, forall_mk.mpr ⟨trivial, by simp⟩, rfl⟩
  | or name cs _ _ ih =>
    obtain ⟨τ, hτ, hv, -⟩ := exists_consistent_node pos hnd v (fun _ => v)
      (fun _ => False) (fun _ => 0)
      (fun τ hv hc nm hnm => by
        obtain ⟨c, hmem, rfl⟩ := List.mem_map.mp hnm
        exact (hc c hmem).trans hv.symm)
      (fun c hc => by
        obtain ⟨τ, hτ, hv⟩ := (ih c hc).2 (nodup_child hnd c hc) v
        exact ⟨τ, hτ, hv, by simp⟩)
    exact ⟨τ, hτ, hv⟩
  | and name cs _ hne ih =>
    cases cs with
    | nil => exact absurd rfl hne
    | cons d cs =>
      have hdc : d ∉ cs := by
        intro hmem
        exact (List.pairwise_cons.mp (pairwise_disjoint_children hnd)).1 d hmem
          (name_mem_names d) (name_mem_names d)
      classical
      obtain ⟨τ, hτ, hv, -⟩ := exists_consistent_node pos hnd v
        (fun c => if c = d then v else 0) (fun _ => False) (fun _ => 0)
        (fun τ hv hc => by
          have hrest : (cs.map Node.name).map τ = cs.map (fun _ => (0 : M)) := by
            rw [List.map_map]
            refine List.map_congr_left fun c hmem => ?_
            have hcd : c ≠ d := fun he => hdc (he ▸ hmem)
            rw [Function.comp_apply, hc c (by simp [hmem]), if_neg hcd]
          have hsum : (((d :: cs).map Node.name).map τ).sum = τ name := by
            rw [List.map_cons, List.map_cons, List.sum_cons, hrest, hc d (by simp), if_pos rfl, hv]
            simp
          exact hsum)
        (fun c hc => by
          obtain ⟨τ, hτ, hv⟩ := (ih c hc).2 (nodup_child hnd c hc) (if c = d then v else 0)
          exact ⟨τ, hτ, hv, by simp⟩)
      exact ⟨τ, hτ, hv⟩
  | threshold name k cs _ hk _ ih =>
    have hconst : ∀ x : F, horner (v :: List.replicate (k - 1) 0) x = v := by
      intro x
      rw [horner_cons, horner_replicate_zero, smul_zero, add_zero]
    obtain ⟨τ, hτ, hv, -⟩ := exists_consistent_node pos hnd v (fun _ => v)
      (fun _ => False) (fun _ => 0)
      (fun τ hv hc => by
        refine ⟨v :: List.replicate (k - 1) 0, ?_, (hconst 0).trans hv.symm, fun nm hnm => ?_⟩
        · simp only [List.length_cons, List.length_replicate, threshold_mk, Int.toNat_natCast]
          omega
        · obtain ⟨c, hmem, rfl⟩ := List.mem_map.mp hnm
          exact (hc c hmem).trans (hconst _).symm)
      (fun c hc => by
        obtain ⟨τ, hτ, hv⟩ := (ih c hc).2 (nodup_child hnd c hc) v
        exact ⟨τ, hτ, hv, by simp⟩)
    exact ⟨τ, hτ, hv⟩

/-- Values that obey the rules above some leaves are, at these leaves, those of a
sharing: subtrees without such a leaf are filled in anew. -/
theorem exists_consistent_through {pos : PName → F} {val : PName → M}
    (live : PName → Prop) {t : Node} (hwf : t.WellFormed) (hnd : t.names.Nodup)
    (hrule : ∀ s ∈ t.subtrees, ∀ nm ∈ s.listLeafNames, live nm → PathConsistent pos val nm s) :
    ∃ τ : PName → M, Consistent pos τ t ∧ τ t.name = val t.name ∧
      ∀ nm ∈ t.listLeafNames, live nm → τ nm = val nm := by
  classical
  induction t using Node.induction with
  | h type name th cs ih =>
    by_cases hlive : ∃ nm ∈ (mk type name th cs).listLeafNames, live nm
    · obtain ⟨nm, hnm, hl⟩ := hlive
      have hself := hrule _ (self_mem_subtrees _) nm hnm hl
      by_cases hleaf : type = .leaf
      · subst hleaf
        exact ⟨val, fun s hs => by
          rcases mem_subtrees_mk.mp hs with rfl | ⟨c, hc, -⟩
          · trivial
          · obtain ⟨-, hlen⟩ : th = 0 ∧ cs.length = 0 := hwf.self
            simp [List.length_eq_zero_iff.mp hlen] at hc, rfl, fun _ _ _ => rfl⟩
      -- the value a child gets: its own one, or that of an OR node above it
      have hchild : ∀ c ∈ cs, ∃ τ : PName → M, Consistent pos τ c ∧
          τ c.name = (if type = .or then val name else val c.name) ∧
          ∀ nm ∈ c.listLeafNames, live nm → τ nm = val nm := by
        intro c hc
        have hcrule : ∀ s ∈ c.subtrees, ∀ nm ∈ s.listLeafNames, live nm →
            PathConsistent pos val nm s :=
          fun s hs => hrule s (mem_subtrees_mk.mpr (.inr ⟨c, hc, hs⟩))
        have hcwf := (forall_mk.mp hwf).2 c hc
        by_cases hclive : ∃ nm ∈ c.listLeafNames, live nm
        · obtain ⟨nm, hnm, hl⟩ := hclive
          obtain ⟨τ, hτ, hname, hleaves⟩ := ih c hc hcwf (nodup_child hnd c hc) hcrule
          refine ⟨τ, hτ, hname.trans ?_, hleaves⟩
          by_cases hor : type = .or
          · have hpath := hrule _ (self_mem_subtrees _) nm (listLeafNames_child_subset hc hnm) hl
            rw [if_pos hor]
            exact hpath.of_or hor c hc (listLeafNames_subset c hnm)
          · rw [if_neg hor]
        · obtain ⟨τ, hτ, hname⟩ := exists_consistent pos hcwf (nodup_child hnd c hc)
            (if type = .or then val name else val c.name)
          exact ⟨τ, hτ, hname, fun nm hnm hl => absurd ⟨nm, hnm, hl⟩ hclive⟩
      obtain ⟨τ, hτ, hname, hleaves⟩ := exists_consistent_node pos hnd (val name)
        (fun c => if type = .or then val name else val c.name) live val
        (fun τ hv hc => by
          by_cases hor : type = .or
          · subst hor
            intro nm hnm
            obtain ⟨c, hmem, rfl⟩ := List.mem_map.mp hnm
            exact (hc c hmem).trans hv.symm
          · refine (hself.of_ne_or hor).congr hv.symm fun nm hnm => ?_
            obtain ⟨c, hmem, rfl⟩ := List.mem_map.mp hnm
            have h := hc c hmem
            rw [if_neg hor] at h
            exact h.symm) hchild
      refine ⟨τ, hτ, hname, fun nm hnm hl => ?_⟩
      rw [listLeafNames_mk, if_neg hleaf, List.nil_append, List.mem_flatMap] at hnm
      obtain ⟨c, hc, hnm⟩ := hnm
      exact hleaves c hc nm hnm hl
    · obtain ⟨τ, hτ, hname⟩ := exists_consistent pos hwf hnd (val name)
      exact ⟨τ, hτ, hname, fun nm hnm hl => absurd ⟨nm, hnm, hl⟩ hlive⟩

/-- As many children as the threshold determine the value at a THRESHOLD node. -/
theorem LocalConsistent.sum_weight [DecidableEq F] {pos : PName → F}
    {τ : PName → M} {name : PName} {k : ℕ} {cs l : List Node}
    (hpos : LocalPositions pos (mk .threshold name k cs))
    (hτ : LocalConsistent pos τ (mk .threshold name k cs))
    (hsub : l.Sublist cs) (hlen : l.length = k) :
    (l.map (fun c => weight (l.map (fun c => pos c.name)) (pos c.name) 0 • τ c.name)).sum =
      τ name := by
  obtain ⟨hnd, -⟩ := hpos rfl
  obtain ⟨b, hb, hb0, hbc⟩ := hτ
  have hblen : b.length = k := by simpa using hb
  have hnodes : (l.map (fun c => pos c.name)).Nodup := by
    have hsub' := (hsub.map Node.name).map pos
    simpa [Function.comp_def] using hnd.sublist hsub'
  have hval : ∀ c ∈ l, weight (l.map (fun c => pos c.name)) (pos c.name) 0 • τ c.name =
      weight (l.map (fun c => pos c.name)) (pos c.name) 0 • horner b (pos c.name) := by
    intro c hc
    rw [hbc c.name (List.mem_map_of_mem (hsub.subset hc))]
  have hsum := sum_weight_smul_horner hnodes 0 (b := b) (by simp [hblen, hlen])
  rw [List.map_map] at hsum
  rw [List.map_congr_left hval]
  exact hsum.trans hb0

end CbMpc
