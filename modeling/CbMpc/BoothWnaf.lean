import CbMpc.Outcome
import CbMpc.SignedDigits

/-!
# The recoding of scalars

`booth_wnaf_t` cuts a scalar into overlapping windows of `win + 1` bits and yields them as a sign
and a value, from the lowest window up or from the highest one down.
-/
namespace CbMpc

open SignedDigits

/-- A `booth_wnaf_t`. -/
structure Booth where
  win : ℕ
  bits : ℕ
  index : ℤ
  back : Bool
  data : List (Fin 256)
  win_pos : 0 < win

/-- The 33 bytes of the scalar, the lowest one first. -/
def boothData (x : ℕ) : List (Fin 256) := (List.range 33).map fun i => Fin.ofNat 256 (x / 256 ^ i)

/-- The index of the highest window. -/
def topIndex (win bits : ℕ) : ℕ := (bits - 1 + (win - 1)) / win * win

/-- The constructor of `booth_wnaf_t` from a number. -/
def Booth.make (win : ℕ) (x : ℤ) (bits : ℕ) (back : Bool) (hwin : 0 < win) : Outcome Booth := do
  cbAssert (decide (0 ≤ x))
  cbAssert (decide (x < 2 ^ 256))
  .ok ⟨win, bits, if back then topIndex win bits else 0, back, boothData x.toNat, hwin⟩

/-- A read of `data`. -/
def boothRead (data : List (Fin 256)) (off : ℕ) : Outcome (BitVec 32) :=
  match data[off]? with
  | some b => .ok (BitVec.ofNat 32 b.val)
  | none => throwing .outOfBounds

namespace Booth

/-- `booth_wnaf_t::get` returns false. -/
def done (b : Booth) : Bool := if b.back then decide (b.index < 0) else decide (b.index ≥ b.bits)

/-- The bits that `get` cuts out. -/
def bitsAt (b : Booth) : Outcome (BitVec 32) :=
  if b.index = 0 then do
    let val ← boothRead b.data 0
    .ok (val <<< 1)
  else do
    let off := (b.index.toNat - 1) / 8
    let val ← boothRead b.data off
    let val ← if off + 1 < 33 then do
        let high ← boothRead b.data (off + 1)
        .ok (val ||| high <<< 8)
      else .ok val
    .ok (val >>> ((b.index.toNat - 1) % 8))

/-- The value of a window without its sign, and whether it is negative. -/
def recode (win : ℕ) (val : BitVec 32) : BitVec 32 × Bool :=
  let kMask := (1#32 <<< (win + 1)) - 1
  let val := val &&& kMask
  let s := ~~~((val >>> win) - 1)
  let d := (1#32 <<< (win + 1)) - val - 1
  let d := (d &&& s) ||| (val &&& ~~~s)
  let d := (d >>> 1) + (d &&& 1)
  (d, decide (s &&& 1 ≠ 0))

/-- What `get` yields. -/
def digitAt (b : Booth) : Outcome (BitVec 32 × Bool) := do
  let val ← b.bitsAt
  .ok (recode b.win val)

/-- The recoder after `get`. -/
def next (b : Booth) : Booth :=
  { b with index := if b.back then b.index - b.win else b.index + b.win }

/-- How many bits are left at most. -/
def remaining (b : Booth) : ℕ := if b.back then (b.index + 1).toNat else (b.bits - b.index).toNat

theorem remaining_next {b : Booth} (h : ¬b.done = true) : b.next.remaining < b.remaining := by
  have hwin := b.win_pos
  unfold done at h
  unfold remaining next
  cases hb : b.back <;> simp only [hb, Bool.false_eq_true, if_false, if_true,
    decide_eq_true_eq] at h ⊢ <;> omega

/-- `while (wnaf.get(value, neg))`. -/
def loop {σ : Type} (step : σ → BitVec 32 → Bool → Outcome σ) (b : Booth) (s : σ) : Outcome σ :=
  if _h : b.done = true then .ok s
  else do
    let digit ← b.digitAt
    let s ← step s digit.1 digit.2
    loop step b.next s
termination_by b.remaining
decreasing_by exact remaining_next _h

/-- What `get` yields until it returns false, with the index of each window. -/
def digits (b : Booth) : Outcome (List (ℕ × BitVec 32 × Bool)) :=
  if _h : b.done = true then .ok []
  else do
    let digit ← b.digitAt
    let l ← digits b.next
    .ok ((b.index.toNat, digit) :: l)
termination_by b.remaining
decreasing_by exact remaining_next _h

/-- A loop over a recoder that never fails is a loop over its digits. -/
theorem loop_eq {σ : Type} (step : σ → BitVec 32 → Bool → Outcome σ) {b : Booth}
    {l : List (ℕ × BitVec 32 × Bool)} (h : b.digits = .ok l) (s : σ) :
    b.loop step s = l.foldlM (fun s e => step s e.2.1 e.2.2) s := by
  induction b using digits.induct generalizing l s with
  | case1 b hdone =>
    rw [digits, dif_pos hdone] at h
    cases h
    rw [loop, dif_pos hdone]
    rfl
  | case2 b hdone ih =>
    rw [digits, dif_neg hdone] at h
    obtain ⟨digit, hdigit, h⟩ := bind_ok_iff.mp h
    obtain ⟨l, hl, h⟩ := bind_ok_iff.mp h
    cases h
    rw [loop, dif_neg hdone, hdigit, ok_bind, List.foldlM_cons]
    congr 1
    funext s
    exact ih hl s

end Booth

theorem toNat_one_shift {n : ℕ} (hn : n < 32) : (1#32 <<< n).toNat = 2 ^ n := by
  have hpow : 2 ^ n < 2 ^ 32 := Nat.pow_lt_pow_right (by decide) hn
  rw [BitVec.toNat_shiftLeft, show (1#32).toNat = 1 from rfl, Nat.one_shiftLeft,
    Nat.mod_eq_of_lt hpow]

/-- The masked window as a number. -/
theorem toNat_masked {win : ℕ} (hwin : win + 1 < 32) (val : BitVec 32) :
    (val &&& ((1#32 <<< (win + 1)) - 1)).toNat = val.toNat % 2 ^ (win + 1) := by
  have hpow : 2 ^ (win + 1) < 2 ^ 32 := Nat.pow_lt_pow_right (by decide) hwin
  have hshift := toNat_one_shift hwin
  have hone : 1 ≤ 2 ^ (win + 1) := Nat.one_le_two_pow
  have hmask : ((1#32 <<< (win + 1)) - 1).toNat = 2 ^ (win + 1) - 1 := by
    rw [BitVec.toNat_sub, hshift, show (1 : BitVec 32).toNat = 1 from rfl]
    omega
  rw [BitVec.toNat_and, hmask, Nat.and_two_pow_sub_one_eq_mod]

/-- The sign mask is the top bit of the window, copied to all bits. -/
theorem signMask {win : ℕ} {val : BitVec 32} (hval : val.toNat < 2 ^ (win + 1)) :
    ~~~((val >>> win) - 1) = if 2 ^ win ≤ val.toNat then BitVec.allOnes 32 else 0#32 := by
  have hpow : 2 ^ (win + 1) = 2 * 2 ^ win := by rw [pow_succ, mul_comm]
  split_ifs with h
  · have hone : val >>> win = 1#32 := by
      apply BitVec.eq_of_toNat_eq
      rw [BitVec.toNat_ushiftRight, Nat.shiftRight_eq_div_pow, Nat.div_eq_iff (Nat.two_pow_pos win),
        show (1#32).toNat = 1 from rfl]
      omega
    rw [hone]
    decide
  · have hzero : val >>> win = 0#32 := by
      apply BitVec.eq_of_toNat_eq
      rw [BitVec.toNat_ushiftRight, Nat.shiftRight_eq_div_pow, Nat.div_eq_of_lt (not_le.mp h)]
      rfl
    rw [hzero]
    decide

/-- Half of a word, rounded up. -/
theorem toNat_halfUp (d : BitVec 32) : ((d >>> 1) + (d &&& 1)).toNat = (d.toNat + 1) / 2 := by
  have hlt := d.isLt
  have hand : (d &&& 1).toNat = d.toNat % 2 := by
    rw [BitVec.toNat_and, show (1 : BitVec 32).toNat = 2 ^ 1 - 1 from rfl,
      Nat.and_two_pow_sub_one_eq_mod]
  rw [BitVec.toNat_add, hand, BitVec.toNat_ushiftRight, Nat.shiftRight_eq_div_pow]
  omega

/-- The sign and the value of a window. -/
theorem recode_eq {win : ℕ} (hwin : win + 1 < 32) (val : BitVec 32) :
    (Booth.recode win val).2 = decide (2 ^ win ≤ val.toNat % 2 ^ (win + 1)) ∧
    (Booth.recode win val).1.toNat =
      if 2 ^ win ≤ val.toNat % 2 ^ (win + 1) then (2 ^ (win + 1) - val.toNat % 2 ^ (win + 1)) / 2
      else (val.toNat % 2 ^ (win + 1) + 1) / 2 := by
  have hmask := toNat_masked hwin val
  have hlt : (val &&& ((1#32 <<< (win + 1)) - 1)).toNat < 2 ^ (win + 1) := by
    rw [hmask]
    exact Nat.mod_lt _ (Nat.two_pow_pos _)
  have hpow : 2 ^ (win + 1) < 2 ^ 32 := Nat.pow_lt_pow_right (by decide) hwin
  have hshift := toNat_one_shift hwin
  unfold Booth.recode
  dsimp only
  rw [← hmask]
  generalize val &&& ((1#32 <<< (win + 1)) - 1) = W at hlt
  rw [signMask hlt]
  split_ifs with h
  · have hd : ((1#32 <<< (win + 1)) - W - 1).toNat = 2 ^ (win + 1) - W.toNat - 1 := by
      rw [BitVec.toNat_sub, BitVec.toNat_sub, hshift, show (1 : BitVec 32).toNat = 1 from rfl]
      omega
    have hsel : ((1#32 <<< (win + 1)) - W - 1) &&& BitVec.allOnes 32 ||| W
        &&& ~~~BitVec.allOnes 32 =
        (1#32 <<< (win + 1)) - W - 1 := by
      rw [BitVec.not_allOnes, BitVec.and_zero, BitVec.or_zero, BitVec.and_allOnes]
    rw [hsel, toNat_halfUp, hd]
    refine ⟨?_, by omega⟩
    rw [decide_eq_true h]
    decide
  · have hsel : ((1#32 <<< (win + 1)) - W - 1) &&& 0#32 ||| W &&& ~~~0#32 = W := by
      rw [BitVec.not_zero, BitVec.and_zero, BitVec.zero_or, BitVec.and_allOnes]
    rw [hsel, toNat_halfUp]
    refine ⟨?_, rfl⟩
    rw [decide_eq_false h]
    decide

/-- A digit as `get` yields it. -/
def digitWord (win x i : ℕ) : BitVec 32 × Bool :=
  (BitVec.ofNat 32 (digit win x i).natAbs, decide (2 ^ win ≤ window win x i))

/-- The number that a sign and a value stand for. -/
def signedValue (d : BitVec 32 × Bool) : ℤ := if d.2 then -d.1.toNat else d.1.toNat

theorem toNat_digitWord {win : ℕ} (hpos : 0 < win) (hwin : win + 1 < 32) (x i : ℕ) :
    (digitWord win x i).1.toNat = (digit win x i).natAbs := by
  have hle := digit_natAbs_le hpos x i
  have hpow : 2 ^ (win - 1) < 2 ^ 32 := Nat.pow_lt_pow_right (by decide) (by omega)
  rw [digitWord, BitVec.toNat_ofNat, Nat.mod_eq_of_lt (hle.trans_lt hpow)]

theorem signedValue_digitWord {win : ℕ} (hpos : 0 < win) (hwin : win + 1 < 32) (x i : ℕ) :
    signedValue (digitWord win x i) = digit win x i := by
  have hlt := window_lt win x i
  have hpow : 2 ^ (win + 1) = 2 * 2 ^ win := by rw [pow_succ, mul_comm]
  have hcast : (2 : ℤ) ^ win = ((2 ^ win : ℕ) : ℤ) := by push_cast; rfl
  rw [signedValue, toNat_digitWord hpos hwin, digitWord, digit_eq, hcast]
  by_cases h : 2 ^ win ≤ window win x i
  · rw [if_pos h, if_pos (decide_eq_true h), Int.ofNat_natAbs_of_nonpos (by omega), neg_neg]
  · have hsign : ¬decide (2 ^ win ≤ window win x i) = true := by simpa using h
    rw [if_neg h, if_neg hsign, Int.natAbs_of_nonneg (by omega)]

theorem recode_digitWord {win : ℕ} (hpos : 0 < win) (hwin : win + 1 < 32)
    {val : BitVec 32} {x i : ℕ} (h : val.toNat % 2 ^ (win + 1) = window win x i) :
    Booth.recode win val = digitWord win x i := by
  obtain ⟨hneg, hvalue⟩ := recode_eq hwin val
  have hlt := window_lt win x i
  have hpow : 2 ^ (win + 1) = 2 * 2 ^ win := by rw [pow_succ, mul_comm]
  have hcast : (2 : ℤ) ^ win = ((2 ^ win : ℕ) : ℤ) := by push_cast; rfl
  rw [h] at hneg hvalue
  apply Prod.ext
  · apply BitVec.eq_of_toNat_eq
    rw [hvalue, toNat_digitWord hpos hwin, digit_eq, hcast]
    split_ifs <;> omega
  · exact hneg

theorem boothRead_boothData (x : ℕ) {off : ℕ} (hoff : off < 33) :
    boothRead (boothData x) off = .ok (BitVec.ofNat 32 (x / 256 ^ off % 256)) := by
  rw [boothRead, boothData, List.getElem?_map, List.getElem?_range hoff]
  rfl

/-- The recoder of `x`, at the window `i`. -/
structure Booth.Reads (b : Booth) (x i : ℕ) : Prop where
  data : b.data = boothData x
  win_le : b.win ≤ 8
  index : b.index = i
  index_le : i ≤ 256

theorem bitsAt_eq {b : Booth} {x i : ℕ} (h : b.Reads x i) :
    ∃ val, b.bitsAt = .ok val ∧ val.toNat % 2 ^ (b.win + 1) = window b.win x i := by
  have hle : b.win + 1 ≤ 9 := Nat.succ_le_succ h.win_le
  have hbyte : ∀ off, (BitVec.ofNat 32 (x / 256 ^ off % 256)).toNat = x / 256 ^ off % 256 := by
    intro off
    rw [BitVec.toNat_ofNat]
    omega
  rcases Nat.eq_zero_or_pos i with rfl | hpos
  · -- the bit below the lowest one is the zero that the shift brings in
    refine ⟨BitVec.ofNat 32 (x / 256 ^ 0 % 256) <<< 1, ?_, ?_⟩
    · rw [Booth.bitsAt, if_pos (h.index.trans Nat.cast_zero), h.data,
        boothRead_boothData x (by decide), ok_bind]
    · have hval : (BitVec.ofNat 32 (x / 256 ^ 0 % 256) <<< 1).toNat = 2 * (x % 256) := by
        rw [BitVec.toNat_shiftLeft, hbyte, Nat.shiftLeft_eq]
        omega
      have hdvd : 2 ^ (b.win + 1) ∣ 2 ^ 9 := pow_dvd_pow 2 hle
      rw [hval, window, pow_zero, Nat.div_one, ← Nat.mod_mod_of_dvd (2 * x) hdvd]
      congr 1
      omega
  · have hindex : b.index ≠ 0 := by
      rw [h.index]
      omega
    have htoNat : b.index.toNat = i := by rw [h.index, Int.toNat_natCast]
    have hi := h.index_le
    have hoff : (i - 1) / 8 + 1 < 33 := by omega
    generalize hk : (i - 1) / 8 = k at hoff
    generalize hr : (i - 1) % 8 = r
    have hr8 : r < 8 := by omega
    refine ⟨(BitVec.ofNat 32 (x / 256 ^ k % 256) ||| BitVec.ofNat 32
      (x / 256 ^ (k + 1) % 256) <<< 8) >>> r, ?_, ?_⟩
    · rw [Booth.bitsAt, if_neg hindex, htoNat, hk, hr, h.data]
      dsimp only
      rw [boothRead_boothData x (by omega), ok_bind, if_pos hoff, boothRead_boothData x hoff]
      rfl
    · -- two bytes hold the window, wherever it starts in the first one
      have hbytes :
          (BitVec.ofNat 32 (x / 256 ^ k % 256) ||| BitVec.ofNat 32
            (x / 256 ^ (k + 1) % 256) <<< 8).toNat =
          x / 256 ^ k % 2 ^ 16 := by
        have hhigh : (BitVec.ofNat 32 (x / 256 ^ (k + 1) % 256) <<< 8).toNat =
            (x / 256 ^ (k + 1) % 256) <<< 8 := by
          rw [BitVec.toNat_shiftLeft, hbyte, Nat.shiftLeft_eq]
          omega
        have hlow : x / 256 ^ k % 256 < 2 ^ 8 := Nat.mod_lt _ (by decide)
        rw [BitVec.toNat_or, hbyte, hhigh, Nat.or_comm, ← Nat.shiftLeft_add_eq_or_of_lt hlow,
          Nat.shiftLeft_eq, pow_succ, ← Nat.div_div_eq_div_mul]
        omega
      have hpow : 256 ^ k * 2 ^ r = 2 ^ (i - 1) := by
        rw [show 256 = 2 ^ 8 from rfl, ← pow_mul, ← pow_add]
        congr 1
        omega
      have hdouble : 2 * x / 2 ^ i = x / 2 ^ (i - 1) := by
        rw [show i = i - 1 + 1 by omega, pow_succ', Nat.mul_div_mul_left _ _ two_pos,
          Nat.add_sub_cancel]
      have hcut : ∀ y : ℕ, y % 2 ^ 16 / 2 ^ r % 2 ^ (b.win + 1) = y / 2 ^ r % 2 ^ (b.win + 1) := by
        intro y
        have hsplit : 2 ^ 16 = 2 ^ r * 2 ^ (16 - r) := by
          rw [← pow_add]
          congr 1
          omega
        rw [hsplit, Nat.mod_mul_right_div_self, Nat.mod_mod_of_dvd _ (pow_dvd_pow 2 (by omega))]
      rw [BitVec.toNat_ushiftRight, Nat.shiftRight_eq_div_pow, hbytes, hcut, Nat.div_div_eq_div_mul,
        hpow, window, hdouble]

theorem digitAt_eq {b : Booth} {x i : ℕ} (h : b.Reads x i) :
    b.digitAt = .ok (digitWord b.win x i) := by
  obtain ⟨val, hval, hwindow⟩ := bitsAt_eq h
  have hle := h.win_le
  rw [Booth.digitAt, hval, ok_bind, recode_digitWord b.win_pos (by omega) hwindow]

/-- The window number `j`. -/
def windowAt (win x j : ℕ) : ℕ × BitVec 32 × Bool := (win * j, digitWord win x (win * j))

theorem digits_of_not_done {b : Booth} {x j : ℕ} (h : b.Reads x (b.win * j))
    (hdone : ¬b.done = true) {l : List (ℕ × BitVec 32 × Bool)} (hl : b.next.digits = .ok l) :
    b.digits = .ok (windowAt b.win x j :: l) := by
  have hindex : b.index.toNat = b.win * j := by rw [h.index, Int.toNat_natCast]
  rw [Booth.digits, dif_neg hdone, digitAt_eq h, ok_bind, hl, ok_bind, hindex]
  rfl

theorem digits_back {b : Booth} {x j : ℕ} (hback : b.back = true) (h : b.Reads x (b.win * j)) :
    b.digits = .ok ((List.range (j + 1)).reverse.map (windowAt b.win x)) := by
  induction j generalizing b with
  | zero =>
    have hdone : ¬b.done = true := by
      rw [Booth.done, hback, if_pos rfl, decide_eq_true_eq, h.index]
      omega
    have hnext : b.next.digits = .ok [] := by
      have hend : b.next.done = true := by
        have hwin := b.win_pos
        have hindex := h.index
        simp only [Booth.done, Booth.next, hback, if_true, decide_eq_true_eq]
        omega
      rw [Booth.digits, dif_pos hend]
    exact digits_of_not_done h hdone hnext
  | succ j ih =>
    have hdone : ¬b.done = true := by
      rw [Booth.done, hback, if_pos rfl, decide_eq_true_eq, h.index]
      omega
    have hindex : b.next.index = (b.win * j : ℕ) := by
      simp only [Booth.next, hback, if_true, h.index]
      push_cast
      ring
    have hle : b.win * j ≤ b.win * (j + 1) := Nat.mul_le_mul_left _ (Nat.le_succ j)
    have hnext := ih (b := b.next) hback ⟨h.data, h.win_le, hindex, hle.trans h.index_le⟩
    have hlist : (List.range (j + 1 + 1)).reverse = (j + 1) :: (List.range (j + 1)).reverse := by
      rw [List.range_succ, List.reverse_append]
      rfl
    rw [digits_of_not_done h hdone hnext, hlist]
    rfl

/-- How many windows the recoder yields from the lowest one up. -/
def windowCount (win bits : ℕ) : ℕ := (bits + (win - 1)) / win

theorem lt_windowCount_iff {win : ℕ} (hwin : 0 < win) (bits j : ℕ) :
    j < windowCount win bits ↔ win * j < bits := by
  rw [windowCount, ← Nat.succ_le_iff, Nat.le_div_iff_mul_le hwin, Nat.succ_mul, mul_comm win]
  omega

theorem digits_front {b : Booth} {x j k : ℕ} (hback : b.back = false)
    (hcount : j + k = windowCount b.win b.bits) (hdata : b.data = boothData x) (hwin : b.win ≤ 8)
    (hindex : b.index = (b.win * j : ℕ)) (hbits : b.bits ≤ 256) :
    b.digits = .ok ((List.range' j k).map (windowAt b.win x)) := by
  induction k generalizing b j with
  | zero =>
    have hle : ¬b.win * j < b.bits := by
      rw [← lt_windowCount_iff b.win_pos]
      omega
    have hdone : b.done = true := by
      rw [Booth.done, hback, if_neg Bool.false_ne_true, decide_eq_true_eq, hindex]
      omega
    rw [Booth.digits, dif_pos hdone]
    rfl
  | succ k ih =>
    have hlt : b.win * j < b.bits := by
      rw [← lt_windowCount_iff b.win_pos]
      omega
    have hdone : ¬b.done = true := by
      rw [Booth.done, hback, if_neg Bool.false_ne_true, decide_eq_true_eq, hindex]
      omega
    have hindex' : b.next.index = (b.win * (j + 1) : ℕ) := by
      simp only [Booth.next, hback, Bool.false_eq_true, if_false, hindex]
      push_cast
      ring
    have hnext := ih (b := b.next) (j := j + 1) hback
      (show j + 1 + k = windowCount b.win b.bits by omega) hdata hwin hindex' hbits
    exact digits_of_not_done ⟨hdata, hwin, hindex, hlt.le.trans hbits⟩ hdone hnext

theorem make_ok (win : ℕ) {x : ℕ} (hx : x < 2 ^ 256) (bits : ℕ) (back : Bool) (hwin : 0 < win) :
    Booth.make win x bits back hwin =
      .ok ⟨win, bits, if back then topIndex win bits else 0, back, boothData x, hwin⟩ := by
  have hlt : (x : ℤ) < 2 ^ 256 := by exact_mod_cast hx
  rw [Booth.make, decide_eq_true (Int.natCast_nonneg x), decide_eq_true hlt]
  rfl

/-- All windows from the highest one down. -/
theorem make_digits_back {win : ℕ} (hwin : 0 < win) (hle : win ≤ 8) {x bits : ℕ}
    (hbits : topIndex win bits ≤ 256) {b : Booth}
    (hb : b = ⟨win, bits, topIndex win bits, true, boothData x, hwin⟩) :
    b.digits =
      .ok ((List.range ((bits - 1 + (win - 1)) / win + 1)).reverse.map (windowAt win x)) := by
  subst hb
  have hindex : topIndex win bits = win * ((bits - 1 + (win - 1)) / win) := mul_comm _ _
  exact digits_back rfl ⟨rfl, hle, congrArg Nat.cast hindex, hindex ▸ hbits⟩

/-- All windows from the lowest one up. -/
theorem make_digits_front {win : ℕ} (hwin : 0 < win) (hle : win ≤ 8) {x bits : ℕ}
    (hbits : bits ≤ 256) {b : Booth} (hb : b = ⟨win, bits, 0, false, boothData x, hwin⟩) :
    b.digits = .ok ((List.range (windowCount win bits)).map (windowAt win x)) := by
  subst hb
  rw [List.range_eq_range']
  exact digits_front (b := ⟨win, bits, 0, false, boothData x, hwin⟩) (j := 0) rfl
    (Nat.zero_add _) rfl hle rfl hbits

/-- How many windows there are in the direction `back`. -/
def windowsOf (win bits : ℕ) (back : Bool) : ℕ :=
  if back then (bits - 1 + (win - 1)) / win + 1 else windowCount win bits

theorem sum_windowAt {win : ℕ} (hpos : 0 < win) (hle : win ≤ 8) (x n : ℕ) :
    (((List.range n).map (windowAt win x)).map fun e => signedValue e.2 * 2 ^ e.1).sum =
      x - 2 ^ (win * n) * rounded x (win * n) := by
  rw [← sum_digit, List.map_map]
  show _ = ((List.range n).map fun j => digit win x (win * j) * 2 ^ (win * j)).sum
  congr 1
  apply List.map_congr_left
  intro j _
  show signedValue (digitWord win x (win * j)) * 2 ^ (win * j) = _
  rw [signedValue_digitWord hpos (by omega)]

/-- In both directions the digits add up to the number, and each of them is in the table. -/
theorem digits_sum {win bits x : ℕ} {back : Bool} (hpos : 0 < win)
    (hle : win ≤ 8) (hbits : bits ≤ 256) (htop : topIndex win bits ≤ 256) (hx : x < 2 ^ 256)
    (hcover : 2 * x < 2 ^ (win * windowsOf win bits back)) :
    ∃ l, (Booth.make win x bits back hpos >>= Booth.digits) = .ok l ∧
    (∀ e ∈ l, e.2.1.toNat ≤ 2 ^ (win - 1)) ∧
      (l.map fun e => signedValue e.2 * 2 ^ e.1).sum = x := by
  have hsum := sum_windowAt hpos hle x (windowsOf win bits back)
  rw [rounded_eq_zero hcover, Nat.cast_zero, mul_zero, sub_zero] at hsum
  have hmem : ∀ l : List ℕ, ∀ e ∈ l.map (windowAt win x), e.2.1.toNat ≤ 2 ^ (win - 1) := by
    intro l e he
    obtain ⟨j, -, rfl⟩ := List.mem_map.mp he
    rw [windowAt, toNat_digitWord hpos (by omega)]
    exact digit_natAbs_le hpos _ _
  cases back with
  | true =>
    refine ⟨_, ?_, hmem (List.range (windowsOf win bits true)).reverse, ?_⟩
    · rw [make_ok win hx, ok_bind]
      exact make_digits_back hpos hle htop rfl
    · rw [← hsum, ← List.sum_reverse, List.map_reverse, List.map_reverse, List.reverse_reverse]
  | false =>
    refine ⟨_, ?_, hmem (List.range (windowsOf win bits false)), hsum⟩
    rw [make_ok win hx, ok_bind]
    exact make_digits_front hpos hle hbits rfl

end CbMpc
