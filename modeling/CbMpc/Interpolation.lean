import Mathlib

/-!
# Interpolation with values in a module, and tables of differences

A polynomial whose coefficients lie in a module over a field is evaluated by
Horner's rule. Its value at any point is a combination of its values at enough
distinct nodes, and the weights of the combination depend on the nodes alone.
Scalars and group elements share these facts.
-/
namespace Interpolation

open Polynomial

variable {F M : Type} [Field F] [AddCommGroup M] [Module F M]

/-- The value at `x` of the polynomial with coefficients `b`, constant term first. -/
def horner (b : List M) (x : F) : M := b.foldr (fun a acc => a + x • acc) 0

@[simp] theorem horner_nil (x : F) : horner ([] : List M) x = 0 := rfl

@[simp] theorem horner_cons (a : M) (b : List M) (x : F) :
    horner (a :: b) x = a + x • horner b x := rfl

theorem horner_zero (b : List M) : horner b (0 : F) = b.headD 0 := by
  cases b <;> simp

theorem horner_replicate_zero (k : ℕ) (x : F) : horner (List.replicate k (0 : M)) x = 0 := by
  induction k with
  | zero => rfl
  | succ k ih => rw [List.replicate_succ, horner_cons, ih, smul_zero, add_zero]

theorem horner_zipWith_add (b c : List M) (h : b.length = c.length) (x : F) :
    horner (List.zipWith (· + ·) b c) x = horner b x + horner c x := by
  induction b generalizing c with
  | nil =>
    cases c with
    | nil => simp
    | cons y c => simp at h
  | cons a b ih =>
    cases c with
    | nil => simp at h
    | cons y c =>
      have ih' := ih c (by simpa using h)
      simp only [List.zipWith_cons_cons, horner_cons, ih', smul_add]
      abel

theorem horner_map {N : Type} [AddCommGroup N] [Module F N] (f : M →ₗ[F] N) (b : List M) (x : F) :
    horner (b.map f) x = f (horner b x) := by
  induction b with
  | nil => simp
  | cons a b ih => simp [ih]

theorem horner_ofFn {n : ℕ} (f : Fin n → M) (x : F) :
    horner (List.ofFn f) x = ∑ k : Fin n, x ^ (k : ℕ) • f k := by
  induction n with
  | zero => simp
  | succ n ih =>
    rw [List.ofFn_succ, horner_cons, ih, Fin.sum_univ_succ, Finset.smul_sum]
    simp [pow_succ', mul_smul]

theorem horner_eq_sum (l : List F) (x : F) :
    horner l x = ∑ j ∈ Finset.range l.length, l.getD j 0 * x ^ j := by
  induction l with
  | nil => rfl
  | cons a l ih =>
    rw [horner_cons, ih, List.length_cons, Finset.sum_range_succ', smul_eq_mul,
      Finset.mul_sum, add_comm]
    congr 1
    · apply Finset.sum_congr rfl
      intro j _
      rw [List.getD_cons_succ, pow_succ]
      ring
    · rw [List.getD_cons_zero, pow_zero, mul_one]

theorem sum_smul_const (l : List F) (f : F → F) (a : M) :
    (l.map (fun i => f i • a)).sum = (l.map f).sum • a := by
  induction l with
  | nil => simp
  | cons i l ih => simp [ih, add_smul]

variable [DecidableEq F]

/-- The weight of the node `i` when a value at `x` is combined from the values at `nodes`. -/
def weight (nodes : List F) (i x : F) : F :=
  ((nodes.filter (· ≠ i)).map (fun j => (x - j) / (i - j))).prod

theorem weight_eq_eval_basis {nodes : List F} (hn : nodes.Nodup) (i x : F) :
    weight nodes i x = (Lagrange.basis nodes.toFinset id i).eval x := by
  have hs : nodes.toFinset.erase i = (nodes.filter (· ≠ i)).toFinset := by
    ext j
    simp [and_comm]
  simp only [weight, Lagrange.basis, hs, eval_prod]
  rw [List.prod_toFinset _ (hn.filter _)]
  congr 1
  refine List.map_congr_left fun j _ => ?_
  simp [Lagrange.basisDivisor, div_eq_inv_mul]

/-- The weights reproduce every power below the number of nodes. -/
theorem sum_weight_mul_pow {nodes : List F} (hn : nodes.Nodup) (x : F) {m : ℕ}
    (hm : m < nodes.length) :
    (nodes.map (fun i => weight nodes i x * i ^ m)).sum = x ^ m := by
  have hcard : nodes.toFinset.card = nodes.length := List.toFinset_card_of_nodup hn
  have hdeg : ((X : F[X]) ^ m).degree < nodes.toFinset.card := by
    rw [degree_X_pow, hcard]
    exact_mod_cast hm
  have hi := Lagrange.eq_interpolate (v := id) (Set.injOn_id _) hdeg
  have he := congrArg (eval x) hi
  rw [Lagrange.interpolate_apply, eval_finsetSum, eval_pow, eval_X] at he
  rw [he, ← List.sum_toFinset _ hn]
  refine Finset.sum_congr rfl fun i _ => ?_
  rw [weight_eq_eval_basis hn]
  simp [mul_comm]

/-- Enough distinct nodes determine the value of a polynomial at every point. The
induction carries a power of the node in front of the remaining coefficients. -/
theorem sum_weight_pow_smul_horner {nodes : List F} (hn : nodes.Nodup) (x : F) (b : List M) (m : ℕ)
    (hb : m + b.length ≤ nodes.length) :
    (nodes.map (fun i => (weight nodes i x * i ^ m) • horner b i)).sum = x ^ m • horner b x := by
  induction b generalizing m with
  | nil => simp
  | cons a b ih =>
    have hlen : m + (b.length + 1) ≤ nodes.length := hb
    have hstep := ih (m + 1) (by omega)
    have hhead := sum_weight_mul_pow hn x (m := m) (by omega)
    have hsplit : ∀ i : F, (weight nodes i x * i ^ m) • horner (a :: b) i =
        (weight nodes i x * i ^ m) • a + (weight nodes i x * i ^ (m + 1)) • horner b i := by
      intro i
      rw [horner_cons, smul_add, smul_smul, pow_succ, mul_assoc]
    simp only [hsplit]
    rw [List.sum_map_add, sum_smul_const nodes (fun i => weight nodes i x * i ^ m), hhead, hstep,
      horner_cons, smul_add, smul_smul, pow_succ]

theorem sum_weight_smul_horner {nodes : List F} (hn : nodes.Nodup) (x : F) {b : List M}
    (hb : b.length ≤ nodes.length) :
    (nodes.map (fun i => weight nodes i x • horner b i)).sum = horner b x := by
  simpa using sum_weight_pow_smul_horner hn x b 0 (by simpa using hb)

/-- Any values at distinct nodes are the values of some polynomial with one
coefficient per node. -/
theorem exists_horner {nodes : List F} (hn : nodes.Nodup) (y : F → M) :
    ∃ b : List M, b.length = nodes.length ∧
      ∀ x, horner b x = (nodes.map (fun i => weight nodes i x • y i)).sum := by
  refine ⟨List.ofFn (fun k : Fin nodes.length =>
    ∑ i ∈ nodes.toFinset, (Lagrange.basis nodes.toFinset id i).coeff k • y i), by simp, fun x => ?_⟩
  rw [horner_ofFn, ← List.sum_toFinset _ hn]
  simp only [Finset.smul_sum, smul_smul]
  rw [Finset.sum_comm]
  refine Finset.sum_congr rfl fun i hi => ?_
  rw [← Finset.sum_smul, weight_eq_eval_basis hn]
  congr 1
  have hdeg : (Lagrange.basis nodes.toFinset id i).natDegree < nodes.length := by
    rw [Lagrange.natDegree_basis (Set.injOn_id _) hi, List.toFinset_card_of_nodup hn]
    have hpos : 0 < nodes.length := List.length_pos_of_mem (List.mem_toFinset.mp hi)
    omega
  rw [eval_eq_sum_range' hdeg, ← Fin.sum_univ_eq_sum_range (fun k => _ * x ^ k)]
  exact Finset.sum_congr rfl fun k _ => mul_comm _ _

/-- The weights at a node pick out the value there. -/
theorem sum_weight_smul_node {nodes : List F} (hn : nodes.Nodup) (y : F → M)
    {j : F} (hj : j ∈ nodes) :
    (nodes.map (fun i => weight nodes i j • y i)).sum = y j := by
  have hmem : j ∈ nodes.toFinset := List.mem_toFinset.mpr hj
  rw [← List.sum_toFinset _ hn, Finset.sum_eq_single_of_mem j hmem]
  · have hone : (Lagrange.basis nodes.toFinset id j).eval j = 1 :=
      Lagrange.eval_basis_self (Set.injOn_id _) hmem
    rw [weight_eq_eval_basis hn, hone, one_smul]
  · intro i _ hij
    have hzero : (Lagrange.basis nodes.toFinset id i).eval j = 0 :=
      Lagrange.eval_basis_of_ne (v := id) hij hmem
    rw [weight_eq_eval_basis hn, hzero, zero_smul]

/-- Points with values `f` at distinct positions lie on one polynomial, which takes the
interpolated value everywhere. -/
theorem exists_horner_through {α : Type} {pos : α → F} {l : List α}
    (hn : (l.map pos).Nodup) (f : α → M) :
    ∃ b : List M, b.length = l.length ∧ (∀ c ∈ l, horner b (pos c) = f c) ∧
      ∀ x, horner b x = (l.map (fun c => weight (l.map pos) (pos c) x • f c)).sum := by
  classical
  have hinj : ∀ c ∈ l, ∀ d ∈ l, pos c = pos d → c = d := List.inj_on_of_nodup_map hn
  obtain ⟨y, hy⟩ : ∃ y : F → M, ∀ c ∈ l, y (pos c) = f c := by
    refine ⟨fun x => if h : ∃ c ∈ l, pos c = x then f h.choose else 0, fun c hc => ?_⟩
    have h : ∃ d ∈ l, pos d = pos c := ⟨c, hc, rfl⟩
    simp only [h, dite_true]
    rw [hinj _ h.choose_spec.1 c hc h.choose_spec.2]
  have hsum : ∀ x, ((l.map pos).map (fun i => weight (l.map pos) i x • y i)).sum =
      (l.map (fun c => weight (l.map pos) (pos c) x • f c)).sum := by
    intro x
    rw [List.map_map]
    refine congrArg List.sum (List.map_congr_left fun c hc => ?_)
    rw [Function.comp_apply, hy c hc]
  obtain ⟨b, hlen, hb⟩ := exists_horner hn y
  refine ⟨b, by simpa using hlen, fun c hc => ?_, fun x => (hb x).trans (hsum x)⟩
  rw [hb, sum_weight_smul_node hn y (List.mem_map_of_mem hc), hy c hc]

/-- Lists of one length whose polynomials agree at as many points are equal. -/
theorem eq_of_horner_eq {nodes : List F} (hn : nodes.Nodup) {b c : List M}
    (hlen : b.length = c.length) (hb : b.length ≤ nodes.length)
    (h : ∀ x ∈ nodes, horner b x = horner c x) : b = c := by
  induction b generalizing c nodes with
  | nil => exact (List.length_eq_zero_iff.mp hlen.symm).symm
  | cons a b ih =>
    obtain ⟨d, c, rfl⟩ := List.exists_cons_of_ne_nil
      (List.ne_nil_of_length_pos (hlen ▸ Nat.succ_pos b.length : 0 < c.length))
    have hall : ∀ x : F, horner (a :: b) x = horner (d :: c) x := by
      intro x
      rw [← sum_weight_smul_horner hn x hb, ← sum_weight_smul_horner hn x (hlen ▸ hb)]
      exact congrArg List.sum (List.map_congr_left fun i hi => by rw [h i hi])
    obtain rfl : a = d := by simpa using hall 0
    have hnodes : b.length ≤ (nodes.erase 0).length := by
      rw [List.length_erase]
      rw [List.length_cons] at hb
      split <;> omega
    have hrest : b = c := by
      apply ih (hn.erase 0) (Nat.succ.inj hlen) hnodes
      intro x hx
      have hx' := hall x
      rw [horner_cons, horner_cons, add_right_inj] at hx'
      exact smul_right_injective M (hn.mem_erase_iff.mp hx).1 hx'
    rw [hrest]

/-! ## The two halves of a polynomial -/

/-- The coefficients of the even powers and those of the odd ones. -/
def alternate {α : Type} : List α → List α × List α
  | [] => ([], [])
  | a :: l => (a :: (alternate l).2, (alternate l).1)

theorem alternate_append {α : Type} (l : List α) (a : α) : alternate (l ++ [a]) =
    if l.length % 2 = 0 then ((alternate l).1 ++ [a], (alternate l).2) else
      ((alternate l).1, (alternate l).2 ++ [a]) := by
  induction l with
  | nil => rfl
  | cons b l ih =>
    rw [List.cons_append, alternate, ih, List.length_cons]
    by_cases h : l.length % 2 = 0
    · rw [if_pos h, if_neg (by omega)]
      rfl
    · rw [if_neg h, if_pos (by omega)]
      rfl

theorem length_alternate {α : Type} (l : List α) :
    (alternate l).1.length = (l.length + 1) / 2 ∧ (alternate l).2.length = l.length / 2 := by
  induction l with
  | nil => simp [alternate]
  | cons a l ih =>
    refine ⟨?_, ?_⟩
    · rw [alternate, List.length_cons, List.length_cons, ih.2]
      omega
    · rw [alternate, List.length_cons, ih.1]

omit [DecidableEq F] in
theorem horner_alternate (l : List M) (x : F) :
    horner l x = horner (alternate l).1 (x * x) + x • horner (alternate l).2 (x * x) := by
  induction l with
  | nil => simp [alternate]
  | cons a l ih =>
    rw [alternate, horner_cons, horner_cons, ih, smul_add, smul_smul]
    abel

end Interpolation

/-!
Row `j` of the table of a function on a ring holds its forward differences of all orders at the
integer `j`. Every entry is the difference of two entries of the column before, so a row determines
the next one, without end where the differences of some order vanish.
-/
namespace DifferenceTable

open Function

variable {R : Type} [CommRing R]

/-- The entry in row `j` and column `i`. -/
def entry (f : R → R) (j : ℤ) (i : ℕ) : R := (fwdDiff 1)^[i] f (j : R)

theorem entry_succ (f : R → R) (j : ℤ) (i : ℕ) :
    entry f j (i + 1) = entry f (j + 1) i - entry f j i := by
  rw [entry, iterate_succ_apply', fwdDiff, entry, entry]
  push_cast
  rfl

/-- The entry below is the sum of an entry and its neighbour on the right. -/
theorem entry_add (f : R → R) (j : ℤ) (i : ℕ) :
    entry f j i + entry f j (i + 1) = entry f (j + 1) i := by
  rw [entry_succ, add_sub_cancel]

/-- The last column of the table of a polynomial is constant. -/
theorem entry_last {f : R → R} {n : ℕ} (hf : (fwdDiff 1)^[n + 1] f = 0) (j : ℤ) :
    entry f (j + 1) n = entry f j n := by
  have hzero : entry f j (n + 1) = 0 := by
    rw [entry, hf]
    rfl
  rw [← entry_add, hzero, add_zero]

end DifferenceTable
