import CbMpc.BatchDlNumbers

/-!
# The tables of the batch prover

A cell of the matrix holds an entry of the table of forward differences. Every write of the prover
puts the right entry into its cell, so what is known about the matrix only grows, and a loop is
described by the cells that are known before each of its turns.
-/
namespace CbMpc

open DifferenceTable Interpolation

section Memory

variable {α β : Type}

theorem readAt_ok {l : List α} {i : ℤ} (h0 : 0 ≤ i) (hi : i < l.length) :
    ∃ a ∈ l, readAt l i = .ok a := by
  have hlt : i.toNat < l.length := by omega
  refine ⟨l[i.toNat], List.getElem_mem hlt, ?_⟩
  rw [readAt, if_pos h0, List.getElem?_eq_getElem hlt]
  rfl

/-- A write changes the one number that it is about. -/
theorem writeAt_ok {l : List α} {i : ℤ} (h0 : 0 ≤ i) (hi : i < l.length) (a : α) :
    ∃ l', writeAt l i a = .ok l' ∧ l'.length = l.length ∧
    (∀ b ∈ l', b ∈ l ∨ b = a) ∧ readAt l' i = .ok a ∧
      ∀ i', i' ≠ i → readAt l' i' = readAt l i' := by
  have hlt : i.toNat < l.length := by omega
  refine ⟨l.set i.toNat a, ?_, List.length_set, fun b hb => List.mem_or_eq_of_mem_set hb, ?_,
    fun i' hne => ?_⟩
  · rw [writeAt, if_pos ⟨h0, hi⟩]
  · rw [readAt, if_pos h0, List.getElem?_set_self hlt]
    rfl
  · by_cases h0' : 0 ≤ i'
    · rw [readAt, readAt, if_pos h0', if_pos h0', List.getElem?_set_ne (by omega)]
    · rw [readAt, readAt, if_neg h0', if_neg h0']

/-- A loop that counts up, by what holds before each of its turns. -/
theorem foldlM_upTo {I : ℤ → β → Prop} {f : β → ℤ → Outcome β} {lo hi : ℤ} (hle : lo ≤ hi + 1)
    (hf : ∀ j, lo ≤ j → j ≤ hi → ∀ b, I j b → ∃ c, f b j = .ok c ∧ I (j + 1) c) {b : β}
    (hb : I lo b) :
    ∃ c, (upTo lo hi).foldlM f b = .ok c ∧ I (hi + 1) c := by
  rw [upTo, List.foldlM_map]
  obtain ⟨c, hc, hI⟩ := @foldlM_range_ok β (fun t b => I (lo + t) b)
    (fun b t => f b (lo + t)) b (hi + 1 - lo).toNat
    (fun t ht b hb => by
      obtain ⟨c, hc, hI⟩ := hf (lo + t) (by omega) (by omega) b hb
      exact ⟨c, hc, by rwa [Nat.cast_succ, ← add_assoc]⟩) (by simpa using hb)
  refine ⟨c, hc, ?_⟩
  rwa [Int.toNat_of_nonneg (by omega), add_sub_cancel] at hI

/-- A loop that counts down. -/
theorem foldlM_downTo {I : ℤ → β → Prop} {f : β → ℤ → Outcome β} {lo hi : ℤ} (hle : lo ≤ hi + 1)
    (hf : ∀ j, lo ≤ j → j ≤ hi → ∀ b, I j b → ∃ c, f b j = .ok c ∧ I (j - 1) c) {b : β}
    (hb : I hi b) :
    ∃ c, (downTo hi lo).foldlM f b = .ok c ∧ I (lo - 1) c := by
  rw [downTo, List.foldlM_map]
  obtain ⟨c, hc, hI⟩ := @foldlM_range_ok β (fun t b => I (hi - t) b)
    (fun b t => f b (hi - t)) b (hi + 1 - lo).toNat
    (fun t ht b hb => by
      obtain ⟨c, hc, hI⟩ := hf (hi - t) (by omega) (by omega) b hb
      exact ⟨c, hc, by rwa [Nat.cast_succ, ← sub_sub]⟩) (by simpa using hb)
  refine ⟨c, hc, ?_⟩
  rwa [Int.toNat_of_nonneg (by omega), show hi - (hi + 1 - lo) = lo - 1 by ring] at hI

end Memory

section Matrix

variable {α : Type} {q : ℕ} (Rep : α → ZMod q → Prop) (f : ZMod q → ZMod q) (n nHalf : ℤ)

/-- The size of a matrix. -/
structure MatrixSum.Shape (M : MatrixSum α) : Prop where
  offset_eq : M.offset = nHalf
  rows : M.data.length = n + 3
  columns : ∀ row ∈ M.data, row.length = n + 1

/-- A cell stands for the entry of the table in row `k` and in the cell's column. -/
def MatrixSum.Holds (M : MatrixSum α) (p k i : ℤ) : Prop :=
  ∃ a, M.get p i = .ok a ∧ Rep a (entry f k i.toNat)

/-- The cells `K` hold the entries of their own rows. -/
structure MatrixSum.Known (K : ℤ → ℤ → Prop) (M : MatrixSum α) : Prop extends M.Shape n nHalf where
  holds : ∀ j i, K j i → M.Holds Rep f j j i

variable {Rep f n nHalf}

theorem MatrixSum.make_shape (zero : α) (hn : 0 ≤ n) (hmax : n + 3 ≤ intMax) :
    ∃ M, MatrixSum.make zero n = .ok M ∧ M.Shape n ((n + 1).tdiv 2) := by
  refine ⟨_, if_pos ⟨by omega, hmax⟩, rfl, ?_, fun row hrow => ?_⟩
  · rw [List.length_replicate, Int.toNat_of_nonneg (by omega)]
  · rw [List.eq_of_mem_replicate hrow, List.length_replicate, Int.toNat_of_nonneg (by omega)]

/-- A write changes its own cell. -/
theorem MatrixSum.Shape.set {M : MatrixSum α} (h : M.Shape n nHalf) {p i : ℤ} (hlow : -nHalf ≤ p)
    (hhigh : p + nHalf < n + 3) (hi : 0 ≤ i) (hin : i ≤ n) (a : α) :
    ∃ M', M.set p i a = .ok M' ∧ M'.Shape n nHalf ∧ M'.get p i = .ok a ∧
      ∀ p' i', p' ≠ p ∨ i' ≠ i → M'.get p' i' = M.get p' i' := by
  have hoffset := h.offset_eq
  have hrows := h.rows
  have hp : 0 ≤ p + M.offset := by omega
  have hp' : p + M.offset < M.data.length := by omega
  obtain ⟨row, hmem, hrow⟩ := readAt_ok hp hp'
  have hlen := h.columns row hmem
  obtain ⟨row', hset, hlen', -, hself, hother⟩ := writeAt_ok hi (by omega : i < row.length) a
  obtain ⟨data, hdata, hsize, hmem', hself', hother'⟩ := writeAt_ok hp hp' row'
  refine ⟨⟨M.offset, data⟩, ?_, ⟨hoffset, ?_, fun r hr => ?_⟩, ?_, fun p' i' hne => ?_⟩
  · rw [MatrixSum.set, hrow, ok_bind, hset, ok_bind, hdata, ok_bind]
  · change (data.length : ℤ) = n + 3
    omega
  · rcases hmem' r hr with hr | rfl
    · exact h.columns r hr
    · omega
  · change (readAt data (p + M.offset) >>= fun row => readAt row i) = _
    rw [hself', ok_bind, hself]
  · change (readAt data (p' + M.offset) >>= fun row => readAt row i') =
      readAt M.data (p' + M.offset) >>= fun row => readAt row i'
    by_cases hpp : p' = p
    · rw [hpp, hself', hrow, ok_bind, ok_bind, hother i' (hne.resolve_left (not_not.mpr hpp))]
    · rw [hother' _ (by omega)]

/-- A write of an entry keeps what the other cells hold. -/
theorem MatrixSum.Shape.write {M : MatrixSum α} (h : M.Shape n nHalf)
    {p k i : ℤ} (hlow : -nHalf ≤ p) (hhigh : p + nHalf < n + 3) (hi : 0 ≤ i) (hin : i ≤ n) {a : α}
    (ha : Rep a (entry f k i.toNat)) :
    ∃ M', M.set p i a = .ok M' ∧ M'.Shape n nHalf ∧ M'.Holds Rep f p k i ∧
      ∀ p' k' i', p' ≠ p ∨ i' ≠ i → M.Holds Rep f p' k' i' → M'.Holds Rep f p' k' i' := by
  obtain ⟨M', hset, hshape, hself, hother⟩ := h.set hlow hhigh hi hin a
  refine ⟨M', hset, hshape, ⟨a, hself, ha⟩, fun p' k' i' hne hold => ?_⟩
  obtain ⟨b, hb, hrep⟩ := hold
  exact ⟨b, (hother p' i' hne).trans hb, hrep⟩

theorem MatrixSum.Known.mono {K K' : ℤ → ℤ → Prop} {M : MatrixSum α} (h : M.Known Rep f n nHalf K)
    (hK : ∀ j i, K' j i → K j i) : M.Known Rep f n nHalf K' :=
  ⟨h.toShape, fun j i hji => h.holds j i (hK j i hji)⟩

/-- A write of the right entry adds its cell. -/
theorem MatrixSum.Known.write {K : ℤ → ℤ → Prop} {M : MatrixSum α} (h : M.Known Rep f n nHalf K)
    {j i : ℤ} (hlow : -nHalf ≤ j) (hhigh : j + nHalf < n + 3) (hi : 0 ≤ i) (hin : i ≤ n) {a : α}
    (ha : Rep a (entry f j i.toNat)) :
    ∃ M', M.set j i a = .ok M' ∧ M'.Known Rep f n nHalf fun j' i' => K j' i' ∨ j' = j ∧ i' = i := by
  obtain ⟨M', hset, hshape, hself, hother⟩ := h.toShape.write hlow hhigh hi hin ha
  refine ⟨M', hset, hshape, fun j' i' hK => ?_⟩
  by_cases heq : j' = j ∧ i' = i
  · rw [heq.1, heq.2]
    exact hself
  · exact hother j' j' i' (not_and_or.mp heq) (h.holds j' i' (hK.resolve_right heq))

end Matrix

/-! ## The loops over the matrix -/

section Loops

variable {α : Type} {q : ℕ} {B : BnClass α} {Rep : α → ZMod q → Prop} (hB : B.Lawful Rep)
  {f : ZMod q → ZMod q} {n nHalf : ℤ}

include hB

theorem MatrixSum.Known.differenceStep {K : ℤ → ℤ → Prop} {M : MatrixSum α}
    (h : M.Known Rep f n nHalf K) {j i : ℤ} (hlow : -nHalf ≤ j) (hhigh : j + nHalf < n + 3)
    (hi : 1 ≤ i) (hin : i ≤ n) (habove : K (j + 1) (i - 1)) (hleft : K j (i - 1)) :
    ∃ M', CbMpc.differenceStep B i M j = .ok M' ∧ M'.Known Rep f n nHalf fun j' i' =>
      K j' i' ∨ j' = j ∧ i' = i := by
  obtain ⟨a, ha, hrepa⟩ := h.holds _ _ habove
  obtain ⟨b, hb, hrepb⟩ := h.holds _ _ hleft
  obtain ⟨c, hc, hrep⟩ := hB.sub a b _ _ hrepa hrepb
  have hcolumn : i.toNat = (i - 1).toNat + 1 := by omega
  rw [← entry_succ, ← hcolumn] at hrep
  obtain ⟨M', hM', hknown⟩ := h.write hlow hhigh (by omega) hin hrep
  refine ⟨M', ?_, hknown⟩
  rw [CbMpc.differenceStep, ha, ok_bind, hb, ok_bind, hc, ok_bind, hM']

/-- The differences of the values fill a triangle. -/
theorem MatrixSum.Known.differences {M : MatrixSum α} (hn : 1 ≤ n) (hhalf : n ≤ 2 * nHalf)
    (hhalf' : 2 * nHalf ≤ n + 1)
    (h : M.Known Rep f n nHalf fun j i => i = 0 ∧ -nHalf ≤ j ∧ j ≤ nHalf) :
    ∃ M', CbMpc.differences B n nHalf M = .ok M' ∧
      M'.Known Rep f n nHalf fun j i => (0 ≤ i ∧ i ≤ n) ∧ -nHalf ≤ j ∧ j + i ≤ nHalf := by
  obtain ⟨M', hM', hknown⟩ := @foldlM_upTo _
    (fun i M => M.Known Rep f n nHalf fun j i' => (0 ≤ i' ∧ i' < i) ∧ -nHalf ≤ j ∧ j + i' ≤ nHalf)
    (fun M i => (downTo (nHalf - i) (-nHalf)).foldlM (CbMpc.differenceStep B i) M) 1 n (by omega)
      (fun i hi hin M hM => by
      obtain ⟨M', hM', hknown⟩ := @foldlM_downTo _
        (fun j M => M.Known Rep f n nHalf fun j' i' =>
          ((0 ≤ i' ∧ i' < i) ∧ -nHalf ≤ j' ∧ j' + i' ≤ nHalf) ∨ i' = i ∧ j < j' ∧ j' + i ≤ nHalf)
        (CbMpc.differenceStep B i) (-nHalf) (nHalf - i) (by omega) (fun j hj hji M hM => by
          obtain ⟨M', hM', hknown⟩ :=
            MatrixSum.Known.differenceStep hB hM hj (by omega) hi hin (by omega) (by omega)
          exact ⟨M', hM', hknown.mono fun j' i' _ => by omega⟩) M (hM.mono fun j' i' _ => by omega)
      exact ⟨M', hM', hknown.mono fun j' i' _ => by omega⟩) M (h.mono fun j i _ => by omega)
  exact ⟨M', hM', hknown.mono fun j i _ => by omega⟩

theorem MatrixSum.Known.sumStep {K : ℤ → ℤ → Prop} {M : MatrixSum α}
    (h : M.Known Rep f n nHalf K) {j i : ℤ} (hlow : -nHalf ≤ j) (hhigh : j + nHalf < n + 3)
    (hi : 0 ≤ i) (hin : i < n) (habove : K (j - 1) i) (hright : K (j - 1) (i + 1)) :
    ∃ M', CbMpc.sumStep B j M i = .ok M' ∧ M'.Known Rep f n nHalf fun j' i' =>
      K j' i' ∨ j' = j ∧ i' = i := by
  obtain ⟨a, ha, hrepa⟩ := h.holds _ _ habove
  obtain ⟨b, hb, hrepb⟩ := h.holds _ _ hright
  obtain ⟨c, hc, hrep⟩ := hB.addMod a b _ _ hrepa hrepb
  have hcolumn : (i + 1).toNat = i.toNat + 1 := by omega
  rw [hcolumn, entry_add, sub_add_cancel] at hrep
  obtain ⟨M', hM', hknown⟩ := h.write hlow hhigh hi hin.le hrep
  refine ⟨M', ?_, hknown⟩
  rw [CbMpc.sumStep, ha, ok_bind, hb, ok_bind, hc, ok_bind, hM']

omit hB in
/-- The last column is constant. -/
theorem MatrixSum.Known.setLast (hf : (fwdDiff 1)^[n.toNat + 1] f = 0)
    {K : ℤ → ℤ → Prop} {M : MatrixSum α} (h : M.Known Rep f n nHalf K) {j : ℤ} (hn : 0 ≤ n)
    (hlow : -nHalf ≤ j) (hhigh : j + nHalf < n + 3) (habove : K (j - 1) n) :
    ∃ a M', M.get (j - 1) n = .ok a ∧ M.set j n a = .ok M' ∧
      M'.Known Rep f n nHalf fun j' i' => K j' i' ∨ j' = j ∧ i' = n := by
  obtain ⟨a, ha, hrep⟩ := h.holds _ _ habove
  rw [← entry_last hf, sub_add_cancel] at hrep
  obtain ⟨M', hM', hknown⟩ := h.write hlow hhigh hn le_rfl hrep
  exact ⟨a, M', ha, hM', hknown⟩

/-- The rows above `j` are complete, and the others as far as the differences have filled them. -/
abbrev Filled (n nHalf j : ℤ) (j' i : ℤ) : Prop :=
  (0 ≤ i ∧ i ≤ n) ∧ (-nHalf ≤ j' ∧ j' ≤ nHalf) ∧ (j' + i ≤ nHalf ∨ j' < j)

theorem MatrixSum.Known.fillRow (hf : (fwdDiff 1)^[n.toNat + 1] f = 0) (hhalf : n ≤ 2 * nHalf)
    (hhalf' : 2 * nHalf ≤ n + 1) {M : MatrixSum α} {j : ℤ} (hj : -nHalf + 2 ≤ j) (hjn : j ≤ nHalf)
    (h : M.Known Rep f n nHalf (Filled n nHalf j)) :
    ∃ M', CbMpc.fillRow B n nHalf M j = .ok M' ∧
    M'.Known Rep f n nHalf (Filled n nHalf (j + 1)) := by
  obtain ⟨a, M₁, ha, hset, hlast⟩ :=
    h.setLast hf (j := j) (by omega) (by omega) (by omega) (by omega)
  obtain ⟨M', hM', hknown⟩ := @foldlM_downTo _
    (fun i M => M.Known Rep f n nHalf fun j' i' => Filled n nHalf j j' i' ∨
    j' = j ∧ i < i' ∧ i' ≤ n)
    (CbMpc.sumStep B j) (nHalf - j + 1) (n - 1) (by omega) (fun i hi hin M hM => by
      obtain ⟨M', hM', hknown⟩ :=
        MatrixSum.Known.sumStep hB hM (j := j) (i := i) (by omega) (by omega) (by omega) (by omega)
        (by omega) (by omega)
      exact ⟨M', hM', hknown.mono fun j' i' _ => by omega⟩) M₁ (hlast.mono fun j' i' _ => by omega)
  refine ⟨M', ?_, hknown.mono fun j' i' _ => by omega⟩
  rw [CbMpc.fillRow, ha, ok_bind, hset, ok_bind, hM']

/-- The table is complete down to the last row with a value. -/
theorem MatrixSum.Known.fillTable (hf : (fwdDiff 1)^[n.toNat + 1] f = 0)
    (hn : 1 ≤ n) (hhalf : n ≤ 2 * nHalf) (hhalf' : 2 * nHalf ≤ n + 1) {M : MatrixSum α}
    (h : M.Known Rep f n nHalf fun j i => (0 ≤ i ∧ i ≤ n) ∧ -nHalf ≤ j ∧ j + i ≤ nHalf) :
    ∃ M', CbMpc.fillTable B n nHalf M = .ok M' ∧
      M'.Known Rep f n nHalf fun j i => (0 ≤ i ∧ i ≤ n) ∧ -nHalf ≤ j ∧ j ≤ nHalf := by
  obtain ⟨a, M₁, ha, hset, hlast⟩ :=
    h.setLast hf (j := -nHalf + 1) (by omega) (by omega) (by omega) (by omega)
  rw [add_sub_cancel_right] at ha
  obtain ⟨M', hM', hknown⟩ :=
    @foldlM_upTo _ (fun j M => M.Known Rep f n nHalf (Filled n nHalf j)) (CbMpc.fillRow B n nHalf)
    (-nHalf + 2) nHalf (by omega) (fun j hj hjn M hM =>
      MatrixSum.Known.fillRow hB hf hhalf hhalf' hj hjn hM) M₁
    (hlast.mono fun j i _ => by omega)
  refine ⟨M', ?_, hknown.mono fun j i _ => by omega⟩
  rw [CbMpc.fillTable, ha, ok_bind, hset, ok_bind, hM']

/-- From a row of the table the rolling loop computes the next one, in another row of the matrix. -/
theorem MatrixSum.Shape.nextRow (hf : (fwdDiff 1)^[n.toNat + 1] f = 0) (hn : 1 ≤ n)
    {M : MatrixSum α} (h : M.Shape n nHalf) {last current k : ℤ} (hne : last ≠ current)
    (hlow : -nHalf ≤ current) (hhigh : current + nHalf < n + 3)
    (hlast : ∀ i, 0 ≤ i → i ≤ n → M.Holds Rep f last k i) :
    ∃ M', CbMpc.nextRow B n M last current = .ok M' ∧ M'.Shape n nHalf ∧
      (∀ i, 0 ≤ i → i ≤ n → M'.Holds Rep f current (k + 1) i) ∧
      ∀ p k' i, p ≠ current → M.Holds Rep f p k' i → M'.Holds Rep f p k' i := by
  obtain ⟨a, ha, hrep⟩ := hlast n (by omega) le_rfl
  rw [← entry_last hf] at hrep
  obtain ⟨M₁, hset, hshape, hself, hother⟩ := h.write hlow hhigh (by omega) le_rfl hrep
  obtain ⟨M', hM', hshape', hknown, hkept⟩ := @foldlM_downTo _
    (fun i M' => M'.Shape n nHalf ∧ (∀ i', i < i' → i' ≤ n → M'.Holds Rep f current (k + 1) i') ∧
      ∀ p k' i', p ≠ current → M.Holds Rep f p k' i' → M'.Holds Rep f p k' i')
    (CbMpc.rollStep B last current) 0 (n - 1) (by omega) (fun i hi hin M' hM' => by
      obtain ⟨hshape, hknown, hkept⟩ := hM'
      obtain ⟨b, hb, hrepb⟩ := hkept _ _ _ hne (hlast i hi (by omega))
      obtain ⟨c, hc, hrepc⟩ := hkept _ _ _ hne (hlast (i + 1) (by omega) (by omega))
      obtain ⟨d, hd, hrep⟩ := hB.addMod b c _ _ hrepb hrepc
      have hcolumn : (i + 1).toNat = i.toNat + 1 := by omega
      rw [hcolumn, entry_add] at hrep
      obtain ⟨M'', hset, hshape', hself, hother⟩ := hshape.write hlow hhigh hi (by omega) hrep
      refine ⟨M'', ?_, hshape', fun i' hi' hin' => ?_, fun p k' i' hp hold =>
        hother _ _ _ (.inl hp) (hkept p k' i' hp hold)⟩
      · rw [CbMpc.rollStep, hb, ok_bind, hc, ok_bind, hd, ok_bind, hset]
      · by_cases heq : i' = i
        · rw [heq]
          exact hself
        · exact hother _ _ _ (.inr heq) (hknown i' (by omega) hin')) M₁
    ⟨hshape, fun i' hi' hin' => by
      obtain rfl : i' = n := by omega
      exact hself, fun p k' i' hp hold => hother _ _ _ (.inl hp) hold⟩
  refine ⟨M', ?_, hshape', fun i hi hin => hknown i (by omega) hin, hkept⟩
  rw [CbMpc.nextRow, ha, ok_bind, hset, ok_bind, hM']

end Loops

end CbMpc
