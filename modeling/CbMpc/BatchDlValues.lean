import CbMpc.BatchDlTables

/-!
# The values of the batch prover

The responses add to their randomness the values of a polynomial without constant term. Its values
at `ei` and at `-ei` come from its even and its odd half, and every further value is the first entry
of a row of differences.
-/
namespace CbMpc

open DifferenceTable Interpolation

/-! ## The polynomial -/

section Polynomial

variable {F : Type} [Field F]

/-- The polynomial with the coefficients `w` and without constant term. -/
def batchValue (w : List F) (x : F) : F := ∑ j ∈ Finset.range w.length, w.getD j 0 * x ^ (j + 1)

theorem batchValue_eq (w : List F) (x : F) : batchValue w x = horner (0 :: w) x := by
  rw [horner_eq_sum, List.length_cons, Finset.sum_range_succ', List.getD_cons_zero,
    zero_mul, add_zero]
  rfl

theorem differences_batchValue (w : List F) : (fwdDiff 1)^[w.length + 1] (batchValue w) = 0 := by
  have hfun : batchValue w = fun x => ∑ k ∈ Finset.range (w.length + 1),
      (0 :: w).getD k 0 * x ^ k := by
    funext x
    rw [batchValue_eq, horner_eq_sum, List.length_cons]
  rw [hfun]
  exact fwdDiff_iter_sum_mul_pow_eq_zero _

/-- The values at opposite points, from the two halves. -/
theorem batchValue_halves (w : List F) (x : F) :
    batchValue w x = horner (alternate (0 :: w)).1 (x * x) +
      horner (alternate (0 :: w)).2 (x * x) * x := by
  rw [batchValue_eq, horner_alternate, smul_eq_mul, mul_comm x (horner _ _)]

theorem batchValue_neg (w : List F) (x : F) :
    batchValue w (-x) = horner (alternate (0 :: w)).1 (x * x) - horner
      (alternate (0 :: w)).2 (x * x) * x := by
  rw [batchValue_halves, neg_mul_neg, mul_neg, sub_eq_add_neg]

end Polynomial

section Values

variable {α : Type} {q : ℕ} [hq : Fact q.Prime] {B : BnClass α}
  {Rep : α → ZMod q → Prop} (hB : B.Lawful Rep)

include hB

theorem splitWitness_spec (w : List (ZMod q)) : ∃ pw, splitWitness B q (w.map residue) = .ok pw ∧
    List.Forall₂ Rep pw.1 (alternate (0 :: w)).1 ∧
    List.Forall₂ Rep pw.2 (alternate (0 :: w)).2 := by
  induction w using List.reverseRecOn with
  | nil =>
    have hzero := hB.ofInt 0 (by norm_num)
    rw [Nat.cast_zero] at hzero
    exact ⟨_, rfl, .cons hzero .nil, .nil⟩
  | append_singleton w a ih =>
    obtain ⟨pw, hpw, heven, hodd⟩ := ih
    obtain ⟨b, hb, hrep⟩ := hB.ofBn a
    rw [splitWitness, List.map_append, List.zipIdx_append, List.foldlM_append, ← splitWitness,
      hpw, ok_bind]
    rw [← List.cons_append, alternate_append, List.length_cons]
    simp only [List.map_cons, List.map_nil, List.zipIdx_cons, List.zipIdx_nil, List.foldlM_cons,
      List.foldlM_nil, isInRange_residue, cbAssert_true, ok_bind, hb, List.length_map, zero_add]
    by_cases h : w.length % 2 = 0
    · rw [if_pos h, if_neg (by omega)]
      exact ⟨_, rfl, heven, List.rel_append hodd (.cons hrep .nil)⟩
    · rw [if_neg h, if_pos (by omega)]
      exact ⟨_, rfl, List.rel_append heven (.cons hrep .nil), hodd⟩

theorem hornerPoly_spec {a : List α} {c : List (ZMod q)} (ha : List.Forall₂ Rep a c) (hne : c ≠ [])
    (hlen : c.length ≤ intMax) {xa : α} {x : ZMod q} (hx : Rep xa x) (hsmall : x.val < 2 ^ 62) :
    ∃ r, B.hornerPoly a xa = .ok r ∧ Rep r (horner c x) := by
  apply hornerLoop_spec ha hne hlen
  intro ai ci b rest _ _ hai hb
  obtain ⟨p, hp, hrepp⟩ := hB.mul b xa _ _ hb hx hsmall
  obtain ⟨r, hr, hrep⟩ := hB.add ai p _ _ hai hrepp
  refine ⟨r, ?_, ?_⟩
  · rw [hp, ok_bind, hr]
  · rwa [smul_eq_mul, mul_comm]

end Values

/-! ## The memory of the values -/

section Vector

variable {α : Type} {q : ℕ} (Rep : α → ZMod q → Prop) (f : ZMod q → ZMod q) (n nHalf : ℤ)
  (size : ℕ) (K : ℤ → Prop)

/-- The numbers at `K` are the values there. -/
structure VectorSum.Known (s : VectorSum α) : Prop where
  offset_eq : s.offset = nHalf
  length_eq : s.data.length = size
  holds : ∀ e, K e → ∃ a, s.get e = .ok a ∧ Rep a (f e)

/-- Both tables have the values at `K`. -/
structure BatchTables.Known (T : BatchTables α) : Prop where
  matrixSum : T.matrixSum.Known Rep f n nHalf fun j i => i = 0 ∧ K j
  sum : T.sum.Known Rep f nHalf size K

variable {Rep f n nHalf size K}

theorem VectorSum.make_known (zero : α) {t : ℤ} (h0 : 0 ≤ t) (ht : t < 31) :
    ∃ s, VectorSum.make zero n t = .ok s ∧
    s.Known Rep f ((n + 1).tdiv 2) (2 ^ t.toNat) fun _ => False :=
  ⟨_, if_pos ⟨h0, ht⟩, rfl, List.length_replicate, fun _ he => he.elim⟩

theorem VectorSum.Known.write {s : VectorSum α} (h : s.Known Rep f nHalf size K)
    {e : ℤ} (hlow : -nHalf ≤ e) (hhigh : e + nHalf < size) {a : α} (ha : Rep a (f e)) :
    ∃ s', s.set e a = .ok s' ∧ s'.Known Rep f nHalf size fun e' => K e' ∨ e' = e := by
  have hoffset := h.offset_eq
  have hlen := h.length_eq
  obtain ⟨data, hdata, hsize, -, hself, hother⟩ :=
    writeAt_ok (by omega : 0 ≤ e + s.offset) (by omega : e + s.offset < s.data.length) a
  refine ⟨⟨s.offset, data⟩, ?_, hoffset, hsize.trans hlen, fun e' he' => ?_⟩
  · rw [VectorSum.set, hdata, ok_bind]
  · change ∃ a, readAt data (e' + s.offset) = .ok a ∧ Rep a (f e')
    by_cases heq : e' = e
    · rw [heq]
      exact ⟨a, hself, ha⟩
    · rw [hother _ (by omega)]
      exact h.holds e' (he'.resolve_right heq)

theorem VectorSum.Known.mono {K' : ℤ → Prop} {s : VectorSum α} (h : s.Known Rep f nHalf size K)
    (hK : ∀ e, K' e → K e) :
    s.Known Rep f nHalf size K' := ⟨h.offset_eq, h.length_eq, fun e he => h.holds e (hK e he)⟩

theorem BatchTables.Known.mono {K' : ℤ → Prop} {T : BatchTables α}
    (h : T.Known Rep f n nHalf size K) (hK : ∀ e, K' e → K e) :
    T.Known Rep f n nHalf size K' :=
  ⟨h.matrixSum.mono fun j _ hj => ⟨hj.1, hK j hj.2⟩, h.sum.mono hK⟩

theorem BatchTables.Known.setValue {T : BatchTables α}
    (h : T.Known Rep f n nHalf size K) {e : ℤ} (hn : 0 ≤ n) (hlow : -nHalf ≤ e)
    (hhigh : e + nHalf < n + 3) (hsize : e + nHalf < size) {a : α} (ha : Rep a (f e)) :
    ∃ T', T.setValue e a = .ok T' ∧ T'.Known Rep f n nHalf size fun e' => K e' ∨ e' = e := by
  obtain ⟨M, hM, hmatrix⟩ := h.matrixSum.write hlow hhigh (le_refl 0) hn ha
  obtain ⟨s, hs, hsum⟩ := h.sum.write hlow hsize ha
  refine ⟨⟨M, s⟩, ?_, hmatrix.mono fun j i hK => ?_, hsum⟩
  · rw [BatchTables.setValue, hM, ok_bind, hs, ok_bind]
  · exact hK.2.imp (fun hK' => ⟨hK.1, hK'⟩) fun hj => ⟨hj, hK.1⟩

variable [hq : Fact q.Prime] {B : BnClass α} (hB : B.Lawful Rep)
  {w : List (ZMod q)} {pw : List α × List α} (heven : List.Forall₂ Rep pw.1 (alternate (0 :: w)).1)
  (hodd : List.Forall₂ Rep pw.2 (alternate (0 :: w)).2)

include hB heven hodd

/-- One turn of the loop over the first values. -/
theorem BatchTables.Known.valueStep (hw : w ≠ []) (hlen : w.length ≤ intMax) {T : BatchTables α}
    (h : T.Known Rep (batchValue w) n nHalf size K) {ei : ℤ} (hn : 0 ≤ n)
    (hei : 0 ≤ ei) (hhigh : ei ≤ nHalf) (hmax : ei < 2 ^ 31) (hrows : ei + nHalf < n + 3)
    (hsize : ei + nHalf < size) :
    ∃ T', CbMpc.valueStep B pw T ei = .ok T' ∧
      T'.Known Rep (batchValue w) n nHalf size fun e => (K e ∨ e = ei) ∨ e = -ei := by
  obtain ⟨m, rfl⟩ := Int.eq_ofNat_of_zero_le hei
  have hvalue := hB.ofInt m (by omega)
  have hval : ((m : ℕ) : ZMod q).val ≤ m := (ZMod.val_natCast _ m).le.trans (Nat.mod_le m q)
  have hsquareval : (((m : ℕ) : ZMod q) * m).val < 2 ^ 62 := by
    rw [← Nat.cast_mul, ZMod.val_natCast]
    exact (Nat.mod_le _ q).trans_lt
      (lt_of_le_of_lt (Nat.mul_le_mul (by omega : m ≤ 2 ^ 31 - 1) (by omega : m ≤ 2 ^ 31 - 1))
      (by norm_num))
  obtain ⟨square, hsquare, hrepSquare⟩ := hB.mul _ _ _ _ hvalue hvalue (by omega)
  have hlengths := length_alternate (0 :: w)
  have hpos := List.length_pos_of_ne_nil hw
  rw [List.length_cons] at hlengths
  obtain ⟨alpha, halpha, hrepAlpha⟩ :=
    hornerPoly_spec hB heven (List.ne_nil_of_length_pos (by omega)) (by omega) hrepSquare hsquareval
  obtain ⟨beta, hbeta, hrepBeta⟩ :=
    hornerPoly_spec hB hodd (List.ne_nil_of_length_pos (by omega)) (by omega) hrepSquare hsquareval
  obtain ⟨product, hproduct, hrepProduct⟩ := hB.mul _ _ _ _ hrepBeta hvalue (by omega)
  obtain ⟨up, hup, hrepUp⟩ := hB.add _ _ _ _ hrepAlpha hrepProduct
  obtain ⟨down, hdown, hrepDown⟩ := hB.sub _ _ _ _ hrepAlpha hrepProduct
  rw [← batchValue_halves, ← Int.cast_natCast] at hrepUp
  rw [← batchValue_neg, ← Int.cast_natCast, ← Int.cast_neg] at hrepDown
  obtain ⟨T₁, hT₁, hknown⟩ := h.setValue hn (by omega) hrows hsize hrepUp
  obtain ⟨T₂, hT₂, hknown'⟩ := hknown.setValue hn (by omega) (by omega) (by omega) hrepDown
  refine ⟨T₂, ?_, hknown'⟩
  rw [CbMpc.valueStep, Int.toNat_natCast]
  simp only [hsquare, halpha, hbeta, hproduct, hup, hT₁, hdown, hT₂, ok_bind]

/-- The values around zero, from empty tables. -/
theorem BatchTables.Known.values (hw : w ≠ []) (hlen : w.length ≤ intMax) {T : BatchTables α}
    (h : T.Known Rep (batchValue w) n nHalf size fun _ => False) (hn : 0 ≤ n)
    (h0 : 0 ≤ nHalf) (hmax : nHalf < 2 ^ 31) (hrows : 2 * nHalf ≤ n + 1)
    (hsize : 2 * nHalf < size) :
    ∃ T', (upTo 0 nHalf).foldlM (CbMpc.valueStep B pw) T = .ok T' ∧
      T'.Known Rep (batchValue w) n nHalf size fun e => -nHalf ≤ e ∧ e ≤ nHalf := by
  obtain ⟨T', hT', hknown⟩ :=
    @foldlM_upTo _ (fun ei T => T.Known Rep (batchValue w) n nHalf size fun e => -ei < e ∧ e < ei)
    (CbMpc.valueStep B pw) 0 nHalf (by omega) (fun ei hei hhigh T hT => by
      obtain ⟨T', hT', hknown⟩ :=
        hT.valueStep hB heven hodd hw hlen hn hei hhigh (by omega) (by omega) (by omega)
      exact ⟨T', hT', hknown.mono fun e _ => by omega⟩) T (h.mono fun e he => by omega)
  exact ⟨T', hT', hknown.mono fun e _ => by omega⟩

end Vector

end CbMpc
