import CbMpc.ModArith
import CbMpc.WordArray

/-!
# The comparison of big numbers

`bn_cmp_ct` compares two numbers of any signs and lengths without branches. Two masks say which
number is less so far: the signs set them, and then the words from the top down while neither is
set.
-/
namespace CbMpc

open WordArray

/-- A `BIGNUM`: its sign and its words, of which the top ones may be zero. Zero is not negative. -/
structure SignedBignum where
  neg : Bool
  d : List (BitVec 64)
  zero_not_neg : value d = 0 → neg = false

namespace SignedBignum

def top (a : SignedBignum) : ℕ := a.d.length

/-- The integer that a number stands for. -/
def toInt (a : SignedBignum) : ℤ := if a.neg then -(value a.d : ℤ) else value a.d

end SignedBignum

/-- `consttime_gt`: all bits are set when `x` is greater. -/
def consttimeGt (x y : BitVec 64) : BitVec 64 :=
  let z := y - x
  let z := z ^^^ ((x ^^^ y) &&& (x ^^^ z))
  z.sshiftRight 63

/-- The loop body of `bn_cmp_ct`, on the masks `lt` and `gt`. -/
def bnCmpStep (xa xb : BitVec 64) (masks : BitVec 64 × BitVec 64) : BitVec 64 × BitVec 64 :=
  let xlt := consttimeGt xb xa &&& ~~~masks.2
  let xgt := consttimeGt xa xb &&& ~~~masks.1
  (masks.1 ||| xlt, masks.2 ||| xgt)

/-- The loop of `bn_cmp_ct` over the words below `n`, the highest one first. -/
def bnCmpLoop (a b : List (BitVec 64)) : ℕ → BitVec 64 × BitVec 64 → BitVec 64 × BitVec 64
  | 0, masks => masks
  | i + 1, masks => bnCmpLoop a b i (bnCmpStep (a.getD i 0#64) (b.getD i 0#64) masks)

/-- The word that tells whether a number is not negative. -/
def signWord (neg : Bool) : BitVec 64 := 1#64 - BitVec.ofNat 64 neg.toNat

def bnCmpCt (a b : SignedBignum) : ℤ :=
  let xa := signWord a.neg
  let xb := signWord b.neg
  let masks := bnCmpLoop a.d b.d (max a.top b.top) (consttimeGt xb xa, consttimeGt xa xb)
  let res := ((masks.1 - masks.2).setWidth 32).toInt
  (1 - 2 * ((a.neg && b.neg).toNat : ℤ)) * res

namespace SignedBignum

/-- `bn_t::sign`, which tells zero by the number of words. -/
def sign (a : SignedBignum) : ℤ := if a.top = 0 then 0 else if a.neg then -1 else 1

def checkClosedRange (min x max : SignedBignum) : Outcome Unit :=
  require (decide (¬(bnCmpCt x min < 0 ∨ bnCmpCt x max > 0))) .crypto

def checkRightOpenRange (min x max : SignedBignum) : Outcome Unit :=
  require (decide (¬(bnCmpCt x min < 0 ∨ bnCmpCt x max ≥ 0))) .crypto

def checkOpenRange (min x max : SignedBignum) : Outcome Unit :=
  require (decide (¬(bnCmpCt x min ≤ 0 ∨ bnCmpCt x max ≥ 0))) .crypto

/-- `mod_t::is_in_range` for the modulus `m`. -/
def isInRange (m a : SignedBignum) : Bool := decide (a.sign ≥ 0 ∧ bnCmpCt a m < 0)

end SignedBignum

/-! ## The masks -/

theorem sshiftRight_63 (z : BitVec 64) : z.sshiftRight 63 = WordArray.mask 64 z.msb := by
  ext i hi
  rw [BitVec.getElem_sshiftRight]
  cases hz : z.msb with
  | false =>
    rw [WordArray.mask_false, BitVec.getElem_zero]
    split
    · obtain rfl : i = 0 := by omega
      rwa [BitVec.msb_eq_getLsbD_last, BitVec.getLsbD_eq_getElem (by omega)] at hz
    · rfl
  | true =>
    rw [WordArray.mask_true, BitVec.getElem_allOnes]
    split
    · obtain rfl : i = 0 := by omega
      rwa [BitVec.msb_eq_getLsbD_last, BitVec.getLsbD_eq_getElem (by omega)] at hz
    · rfl

/-- The top bit of the difference is right for words on one side of the middle, and the top bit of
`x` is for others. -/
theorem consttimeGt_eq (x y : BitVec 64) :
    consttimeGt x y = WordArray.mask 64 (decide (y.toNat < x.toNat)) := by
  have hmsb : ∀ v : BitVec 64, v.msb = decide (2 ^ 63 ≤ v.toNat) :=
    fun v => by rw [BitVec.msb_eq_decide]
  have hsub : (y - x).toNat = (2 ^ 64 - x.toNat + y.toNat) % 2 ^ 64 := BitVec.toNat_sub y x
  have hx := x.isLt
  have hy := y.isLt
  rw [consttimeGt, sshiftRight_63, BitVec.msb_xor, BitVec.msb_and, BitVec.msb_xor, BitVec.msb_xor]
  congr 1
  by_cases hsame : x.msb = y.msb
  · rw [hsame, Bool.xor_self, Bool.false_and, Bool.xor_false, hmsb, decide_eq_decide, hsub]
    rw [hmsb, hmsb, decide_eq_decide] at hsame
    omega
  · have hxor : (x.msb ^^ y.msb) = true := by simpa using hsame
    rw [hxor, Bool.true_and, Bool.xor_comm x.msb, ← Bool.xor_assoc, Bool.xor_self, Bool.false_xor,
      hmsb, decide_eq_decide]
    rw [hmsb, hmsb, decide_eq_decide] at hsame
    omega

theorem bnCmpStep_mask (xa xb : BitVec 64) (lt gt : Bool) :
    bnCmpStep xa xb (WordArray.mask 64 lt, WordArray.mask 64 gt) =
      (WordArray.mask 64 (lt || (decide (xa.toNat < xb.toNat) && !gt)),
        WordArray.mask 64 (gt || (decide (xb.toNat < xa.toNat) && !lt))) := by
  simp only [bnCmpStep, consttimeGt_eq, WordArray.not_mask, WordArray.mask_and, WordArray.mask_or]

/-! ## The loop -/

/-- What the words below `n` stand for. -/
def low (n : ℕ) (xs : List (BitVec 64)) : ℕ := value xs % 2 ^ (64 * n)

theorem low_lt (n : ℕ) (xs : List (BitVec 64)) : low n xs < 2 ^ (64 * n) :=
  Nat.mod_lt _ (Nat.two_pow_pos _)

theorem low_succ (n : ℕ) (xs : List (BitVec 64)) :
    low (n + 1) xs = (xs.getD n 0#64).toNat * 2 ^ (64 * n) + low n xs := by
  have hword : (xs.getD n 0#64).toNat = value xs / 2 ^ (64 * n) % 2 ^ 64 := by
    rw [← value_drop]
    cases hdrop : xs.drop n with
    | nil =>
      rw [List.getD_eq_default _ _ (List.drop_eq_nil_iff.mp hdrop)]
      rfl
    | cons x rest =>
      have hget : xs.getD n 0#64 = x := by
        rw [List.getD_eq_getElem?_getD, ← List.head?_drop, hdrop]
        rfl
      rw [hget, value_cons, Nat.add_mul_mod_self_left, Nat.mod_eq_of_lt x.isLt]
  rw [low, low, hword, Nat.mul_add, mul_one, pow_add, Nat.mod_mul, add_comm, mul_comm]

theorem low_of_le {n : ℕ} {xs : List (BitVec 64)} (h : xs.length ≤ n) : low n xs = value xs :=
  Nat.mod_eq_of_lt (lt_of_lt_of_le (value_lt xs)
    (Nat.pow_le_pow_right two_pos (Nat.mul_le_mul_left 64 h)))

/-- Once a mask is set, the loop leaves both alone. -/
theorem bnCmpLoop_decided (a b : List (BitVec 64)) (n : ℕ) {lt gt : Bool} (h : (lt ^^ gt) = true) :
    bnCmpLoop a b n (WordArray.mask 64 lt, WordArray.mask 64 gt) =
      (WordArray.mask 64 lt, WordArray.mask 64 gt) := by
  induction n with
  | zero => rfl
  | succ n ih =>
    rw [bnCmpLoop, bnCmpStep_mask]
    cases lt with
    | false =>
      obtain rfl : gt = true := by rwa [Bool.false_xor] at h
      simpa only [Bool.not_true, Bool.and_false, Bool.or_false, Bool.true_or] using ih
    | true =>
      obtain rfl : gt = false := by rwa [Bool.true_xor, Bool.not_eq_true'] at h
      simpa only [Bool.not_true, Bool.and_false, Bool.or_false, Bool.true_or] using ih

/-- With no mask set, the loop compares what the words below `n` stand for. -/
theorem bnCmpLoop_open (a b : List (BitVec 64)) (n : ℕ) :
    bnCmpLoop a b n (WordArray.mask 64 false, WordArray.mask 64 false) =
      (WordArray.mask 64 (decide (low n a < low n b)),
        WordArray.mask 64 (decide (low n b < low n a))) := by
  induction n with
  | zero => simp [bnCmpLoop, low, Nat.mod_one]
  | succ n ih =>
    have hless : ∀ xs ys : List (BitVec 64), (xs.getD n 0#64).toNat < (ys.getD n 0#64).toNat →
        low (n + 1) xs < low (n + 1) ys := by
      intro xs ys h
      have hmul := Nat.mul_le_mul_right (2 ^ (64 * n)) (Nat.succ_le_of_lt h)
      have hlow := low_lt n xs
      rw [Nat.succ_mul] at hmul
      rw [low_succ, low_succ]
      omega
    rw [bnCmpLoop, bnCmpStep_mask, Bool.false_or, Bool.false_or, Bool.not_false, Bool.and_true,
      Bool.and_true]
    rcases lt_trichotomy (a.getD n 0#64).toNat (b.getD n 0#64).toNat with h | h | h
    · have hlow := hless a b h
      rw [decide_eq_true h, decide_eq_false h.not_gt, bnCmpLoop_decided a b n rfl,
        decide_eq_true hlow, decide_eq_false hlow.not_gt]
    · rw [h, decide_eq_false (lt_irrefl _), ih, low_succ, low_succ, h]
      simp only [Nat.add_lt_add_iff_left]
    · have hlow := hless b a h
      rw [decide_eq_true h, decide_eq_false h.not_gt, bnCmpLoop_decided a b n rfl,
        decide_eq_true hlow, decide_eq_false hlow.not_gt]

/-- The loop starts at the longer number, so all words of both take part. -/
theorem bnCmpLoop_eq (a b : List (BitVec 64)) :
    bnCmpLoop a b (max a.length b.length) (WordArray.mask 64 false, WordArray.mask 64 false) =
      (WordArray.mask 64 (decide (value a < value b)),
        WordArray.mask 64 (decide (value b < value a))) := by
  rw [bnCmpLoop_open, low_of_le (le_max_left _ _), low_of_le (le_max_right _ _)]

/-! ## The order -/

theorem signWord_toNat (neg : Bool) : (signWord neg).toNat = (!neg).toNat := by cases neg <;> rfl

/-- The result of the masks, before it is turned around. -/
theorem masks_toInt (lt gt : Bool) :
    ((WordArray.mask 64 lt - WordArray.mask 64 gt).setWidth 32).toInt =
      (gt.toNat : ℤ) - lt.toNat := by
  cases lt <;> cases gt <;> rfl

namespace SignedBignum

variable {a b : SignedBignum}

theorem toInt_neg_of_neg (h : a.neg = true) : a.toInt < 0 := by
  have hpos : 0 < value a.d := by
    by_contra hzero
    exact absurd (a.zero_not_neg (by omega)) (by rw [h]; exact Bool.true_eq_false.mp)
  rw [toInt, if_pos h]
  omega

theorem toInt_nonneg (h : a.neg = false) : 0 ≤ a.toInt := by
  rw [toInt, h, if_neg Bool.false_ne_true]
  exact Int.natCast_nonneg _

end SignedBignum

/-- The comparison by cases of the two signs, and of the words where they agree. -/
theorem bnCmpCt_eq (a b : SignedBignum) :
    bnCmpCt a b =
      ((decide (b.toInt < a.toInt)).toNat : ℤ) - (decide (a.toInt < b.toInt)).toNat := by
  rw [bnCmpCt, consttimeGt_eq, consttimeGt_eq, signWord_toNat, signWord_toNat]
  cases ha : a.neg with
  | false =>
    cases hb : b.neg with
    | false =>
      have hloop := bnCmpLoop_eq a.d b.d
      simp only [SignedBignum.top, SignedBignum.toInt, ha, hb, Bool.not_false, lt_irrefl,
        decide_false, hloop, masks_toInt, if_neg Bool.false_ne_true,
        Int.ofNat_lt, Bool.and_self, Bool.toNat_false, Nat.cast_zero, mul_zero, sub_zero, one_mul]
    | true =>
      have hless := lt_of_lt_of_le (SignedBignum.toInt_neg_of_neg hb) (SignedBignum.toInt_nonneg ha)
      rw [decide_eq_true hless, decide_eq_false hless.not_gt]
      simp only [Bool.not_false, Bool.not_true]
      rw [bnCmpLoop_decided a.d b.d _ rfl, masks_toInt]
      rfl
  | true =>
    cases hb : b.neg with
    | false =>
      have hless := lt_of_lt_of_le (SignedBignum.toInt_neg_of_neg ha) (SignedBignum.toInt_nonneg hb)
      rw [decide_eq_true hless, decide_eq_false hless.not_gt]
      simp only [Bool.not_false, Bool.not_true]
      rw [bnCmpLoop_decided a.d b.d _ rfl, masks_toInt]
      rfl
    | true =>
      have hloop := bnCmpLoop_eq a.d b.d
      simp only [SignedBignum.top, SignedBignum.toInt, ha, hb, Bool.not_true, lt_irrefl,
        decide_false, hloop, masks_toInt, if_true, neg_lt_neg_iff, Int.ofNat_lt, Bool.and_self,
        Bool.toNat_true]
      ring

section Order

variable (a b : SignedBignum)

theorem bnCmpCt_of_lt {a b : SignedBignum} (h : a.toInt < b.toInt) : bnCmpCt a b = -1 := by
  rw [bnCmpCt_eq, decide_eq_true h, decide_eq_false h.not_gt]
  rfl

theorem bnCmpCt_of_eq {a b : SignedBignum} (h : a.toInt = b.toInt) : bnCmpCt a b = 0 := by
  rw [bnCmpCt_eq, h, decide_eq_false (lt_irrefl _), sub_self]

theorem bnCmpCt_of_gt {a b : SignedBignum} (h : b.toInt < a.toInt) : bnCmpCt a b = 1 := by
  rw [bnCmpCt_eq, decide_eq_true h, decide_eq_false h.not_gt]
  rfl

/-- Each order of the integers has its own result. -/
theorem bnCmpCt_cases : (a.toInt < b.toInt ∧ bnCmpCt a b = -1) ∨
    (a.toInt = b.toInt ∧ bnCmpCt a b = 0) ∨
    (b.toInt < a.toInt ∧ bnCmpCt a b = 1) := by
  rcases lt_trichotomy a.toInt b.toInt with h | h | h
  · exact .inl ⟨h, bnCmpCt_of_lt h⟩
  · exact .inr (.inl ⟨h, bnCmpCt_of_eq h⟩)
  · exact .inr (.inr ⟨h, bnCmpCt_of_gt h⟩)

theorem bnCmpCt_neg_iff : bnCmpCt a b < 0 ↔ a.toInt < b.toInt := by
  rcases bnCmpCt_cases a b with ⟨h, hcmp⟩ | ⟨h, hcmp⟩ | ⟨h, hcmp⟩ <;> omega

theorem bnCmpCt_pos_iff : bnCmpCt a b > 0 ↔ b.toInt < a.toInt := by
  rcases bnCmpCt_cases a b with ⟨h, hcmp⟩ | ⟨h, hcmp⟩ | ⟨h, hcmp⟩ <;> omega

theorem bnCmpCt_nonneg_iff : bnCmpCt a b ≥ 0 ↔ b.toInt ≤ a.toInt := by
  rw [ge_iff_le, ← not_lt, bnCmpCt_neg_iff, not_lt]

theorem bnCmpCt_nonpos_iff : bnCmpCt a b ≤ 0 ↔ a.toInt ≤ b.toInt := by
  rw [← not_lt, ← gt_iff_lt, bnCmpCt_pos_iff, not_lt]

end Order

namespace SignedBignum

variable (min x max : SignedBignum)

theorem checkClosedRange_ok_iff : checkClosedRange min x max = .ok () ↔ min.toInt ≤ x.toInt ∧
    x.toInt ≤ max.toInt := by
  rw [checkClosedRange, require_ok_iff, decide_eq_true_eq, bnCmpCt_neg_iff, bnCmpCt_pos_iff, not_or,
    not_lt, not_lt]

/-- On integers the check is the one of the protocols. -/
theorem checkRightOpenRange_eq :
    checkRightOpenRange min x max = CbMpc.checkRightOpenRange min.toInt x.toInt max.toInt := by
  simp only [checkRightOpenRange, CbMpc.checkRightOpenRange, bnCmpCt_neg_iff,
    bnCmpCt_nonneg_iff, ge_iff_le]

theorem checkOpenRange_eq :
    checkOpenRange min x max = CbMpc.checkOpenRange min.toInt x.toInt max.toInt := by
  simp only [checkOpenRange, CbMpc.checkOpenRange, bnCmpCt_nonpos_iff,
    bnCmpCt_nonneg_iff, ge_iff_le]

/-- A number with words is taken as positive by `sign`, which does not matter for a range that
starts at zero. -/
theorem sign_nonneg_iff (a : SignedBignum) : a.sign ≥ 0 ↔ 0 ≤ a.toInt := by
  cases hneg : a.neg with
  | false =>
    have hnonneg := toInt_nonneg hneg
    rw [sign, hneg, if_neg Bool.false_ne_true]
    split <;> omega
  | true =>
    have hlt := toInt_neg_of_neg hneg
    have htop : a.top ≠ 0 := by
      intro htop
      rw [toInt, if_pos hneg, List.length_eq_zero_iff.mp htop, value_nil] at hlt
      exact lt_irrefl _ hlt
    rw [sign, hneg, if_neg htop, if_pos rfl]
    omega

theorem isInRange_eq (m a : SignedBignum) :
    isInRange m a = decide (0 ≤ a.toInt ∧ a.toInt < m.toInt) := by
  rw [isInRange, decide_eq_decide, sign_nonneg_iff, bnCmpCt_neg_iff]

end SignedBignum

/-- `bn_cmp_ct` is the order of the integers, and the range checks decide their intervals. -/
theorem bnCmpCt_order :
    (∀ a b : SignedBignum, bnCmpCt a b = if a.toInt < b.toInt then -1 else
      if a.toInt = b.toInt then 0 else 1) ∧
    (∀ min x max : SignedBignum,
      (SignedBignum.checkClosedRange min x max = .ok () ↔
        min.toInt ≤ x.toInt ∧ x.toInt ≤ max.toInt) ∧
      (SignedBignum.checkRightOpenRange min x max = .ok () ↔
        min.toInt ≤ x.toInt ∧ x.toInt < max.toInt) ∧
      (SignedBignum.checkOpenRange min x max = .ok () ↔
        min.toInt < x.toInt ∧ x.toInt < max.toInt)) ∧
    ∀ m a : SignedBignum, SignedBignum.isInRange m a = true ↔ 0 ≤ a.toInt ∧ a.toInt < m.toInt := by
  refine ⟨fun a b => ?_, fun min x max => ⟨SignedBignum.checkClosedRange_ok_iff min x max, ?_, ?_⟩,
    fun m a => ?_⟩
  · rcases bnCmpCt_cases a b with ⟨h, hcmp⟩ | ⟨h, hcmp⟩ | ⟨h, hcmp⟩
    · rw [hcmp, if_pos h]
    · rw [hcmp, if_neg h.not_lt, if_pos h]
    · rw [hcmp, if_neg h.not_gt, if_neg h.ne']
  · rw [SignedBignum.checkRightOpenRange_eq, checkRightOpenRange_ok_iff]
  · rw [SignedBignum.checkOpenRange_eq, checkOpenRange_ok_iff]
  · rw [SignedBignum.isInRange_eq, decide_eq_true_eq]

/-- Two negative numbers, one of them with a zero word on top. -/
example : bnCmpCt ⟨true, [5#64, 0#64], by decide⟩ ⟨true, [7#64], by decide⟩ = 1 := by decide

end CbMpc
