import Mathlib.Data.Nat.Digits.Defs
import Mathlib.Data.Nat.Size
import Mathlib.Data.Int.ModEq
import Mathlib.Tactic.Ring
import Mathlib.Tactic.LinearCombination

/-!
# Natural numbers in arrays of machine words

An array of words is a list whose first word is the lowest one. Sums and differences run
over the words of two arrays of one length with a carry between neighbours, halves run from
the top word down, and products are cut off at the length of the result.
-/
namespace WordArray

variable {w : ℕ}

/-- The number that an array of words stands for. -/
def value (xs : List (BitVec w)) : ℕ := Nat.ofDigits (2 ^ w) (xs.map BitVec.toNat)

/-- The lowest `n` words of a number. -/
def ofNat (w : ℕ) : ℕ → ℕ → List (BitVec w)
  | 0, _ => []
  | n + 1, x => BitVec.ofNat w x :: ofNat w n (x / 2 ^ w)

/-- The least number of words that hold a number. -/
def wordCount (w x : ℕ) : ℕ := (x.size + (w - 1)) / w

/-- A word of a sum, and the carry into the next word. -/
def addx (x y : BitVec w) (carry : Bool) : BitVec w × Bool :=
  (BitVec.ofNat w (x.toNat + y.toNat + carry.toNat),
    decide (2 ^ w ≤ x.toNat + y.toNat + carry.toNat))

/-- A word of a difference, and the borrow from the next word. -/
def subx (x y : BitVec w) (borrow : Bool) : BitVec w × Bool :=
  (BitVec.ofNat w (2 ^ w + x.toNat - (y.toNat + borrow.toNat)),
    decide (x.toNat < y.toNat + borrow.toNat))

/-- The sum of two arrays of one length, with the carry out of the top word. -/
def add : List (BitVec w) → List (BitVec w) → Bool → List (BitVec w) × Bool
  | x :: xs, y :: ys, carry =>
    ((addx x y carry).1 :: (add xs ys (addx x y carry).2).1, (add xs ys (addx x y carry).2).2)
  | _, _, carry => ([], carry)

/-- The difference of two arrays of one length, with the borrow out of the top word. -/
def sub : List (BitVec w) → List (BitVec w) → Bool → List (BitVec w) × Bool
  | x :: xs, y :: ys, borrow =>
    ((subx x y borrow).1 :: (sub xs ys (subx x y borrow).2).1, (sub xs ys (subx x y borrow).2).2)
  | _, _, borrow => ([], borrow)

/-- Half of an array from the top word down, with the bit shifted out as the top bit of a word. -/
def half : List (BitVec w) → List (BitVec w) × BitVec w
  | [] => ([], 0#w)
  | x :: xs => (((x >>> 1) ||| (half xs).2) :: (half xs).1, x <<< (w - 1))

/-- All bits of a word set, or none. -/
def mask (w : ℕ) (flag : Bool) : BitVec w := 0#w - BitVec.ofNat w flag.toNat

/-- The words of an array, or zeros. -/
def masked (flag : Bool) (xs : List (BitVec w)) : List (BitVec w) := xs.map (· &&& mask w flag)

/-- The words of an array, or their complements. -/
def flipped (flag : Bool) (xs : List (BitVec w)) : List (BitVec w) := xs.map (· ^^^ mask w flag)

/-- Two arrays, exchanged under a mask. -/
def swapped (flag : Bool) (xs ys : List (BitVec w)) : List (BitVec w) × List (BitVec w) :=
  (List.zipWith (fun x y => x ^^^ ((x ^^^ y) &&& mask w flag)) xs ys,
    List.zipWith (fun x y => y ^^^ ((x ^^^ y) &&& mask w flag)) xs ys)

/-- The words of the first array, or those of the second one. -/
def selected (flag : Bool) (xs ys : List (BitVec w)) : List (BitVec w) :=
  List.zipWith (fun x y => (x &&& mask w flag) ||| (y &&& ~~~mask w flag)) xs ys

/-- The first `n` words, with zeros where there are none. -/
def resized (n : ℕ) (xs : List (BitVec w)) : List (BitVec w) :=
  xs.take n ++ List.replicate (n - xs.length) 0#w

/-- A row of a product: `u * v` is added to the words at hand, and the last carry is stored
behind them unless the result ends there. -/
def mulRow (v : BitVec w) : List (BitVec w) → List (BitVec w) → BitVec w → List (BitVec w)
  | _, [], _ => []
  | [], _ :: rs, carry => carry :: rs
  | u :: us, r :: rs, carry =>
    BitVec.ofNat w (u.toNat * v.toNat + r.toNat + carry.toNat) ::
      mulRow v us rs (BitVec.ofNat w ((u.toNat * v.toNat + r.toNat + carry.toNat) / 2 ^ w))

/-- The rows of a product, each one word further up than the one before. -/
def mulRows (u : List (BitVec w)) : List (BitVec w) → List (BitVec w) → List (BitVec w)
  | [], rs => rs
  | v :: vs, rs =>
    match mulRow v u rs 0#w with
    | [] => []
    | r :: rs' => r :: mulRows u vs rs'

/-- The lowest `n` words of a product. -/
def mulLow (n : ℕ) (u v : List (BitVec w)) : List (BitVec w) := mulRows u v (List.replicate n 0#w)

@[simp] theorem value_nil : value ([] : List (BitVec w)) = 0 := rfl

@[simp] theorem value_cons (x : BitVec w) (xs : List (BitVec w)) :
    value (x :: xs) = x.toNat + 2 ^ w * value xs := by
  simp [value, Nat.ofDigits_cons]

theorem value_append (xs ys : List (BitVec w)) :
    value (xs ++ ys) = value xs + 2 ^ (w * xs.length) * value ys := by
  rw [value, List.map_append, Nat.ofDigits_append, List.length_map, ← pow_mul, value, value]

theorem value_lt (xs : List (BitVec w)) : value xs < 2 ^ (w * xs.length) := by
  induction xs with
  | nil => simp
  | cons x xs ih =>
    have hx := x.isLt
    have hle : 2 ^ w * (value xs + 1) ≤ 2 ^ w * 2 ^ (w * xs.length) := Nat.mul_le_mul_left _ ih
    rw [value_cons, List.length_cons, Nat.mul_succ, Nat.add_comm (w * xs.length), pow_add]
    rw [Nat.mul_add] at hle
    omega

/-- Arrays of one length with one value are equal. -/
theorem eq_of_value {xs ys : List (BitVec w)} (hlen : xs.length = ys.length)
    (h : value xs = value ys) : xs = ys := by
  induction xs generalizing ys with
  | nil => exact (List.length_eq_zero_iff.mp hlen.symm).symm
  | cons x xs ih =>
    cases ys with
    | nil => simp at hlen
    | cons y ys =>
      rw [value_cons, value_cons] at h
      have hmod : x.toNat = y.toNat := by
        have := congrArg (· % 2 ^ w) h
        simpa [Nat.add_mul_mod_self_left, Nat.mod_eq_of_lt x.isLt,
          Nat.mod_eq_of_lt y.isLt] using this
      have hrest : value xs = value ys := by
        rw [hmod] at h
        exact Nat.eq_of_mul_eq_mul_left (Nat.two_pow_pos w) (Nat.add_left_cancel h)
      rw [BitVec.eq_of_toNat_eq hmod, ih (by simpa using hlen) hrest]

@[simp] theorem length_ofNat (n x : ℕ) : (ofNat w n x).length = n := by
  induction n generalizing x with
  | zero => rfl
  | succ n ih => rw [ofNat, List.length_cons, ih]

theorem value_ofNat (n x : ℕ) : value (ofNat w n x) = x % 2 ^ (w * n) := by
  induction n generalizing x with
  | zero => simp [ofNat, Nat.mod_one]
  | succ n ih =>
    rw [ofNat, value_cons, ih, BitVec.toNat_ofNat, Nat.mul_succ, Nat.add_comm,
      Nat.add_comm (w * n), pow_add, Nat.mod_mul, Nat.add_comm]

theorem value_ofNat_of_lt {n x : ℕ} (h : x < 2 ^ (w * n)) : value (ofNat w n x) = x := by
  rw [value_ofNat, Nat.mod_eq_of_lt h]

@[simp] theorem value_replicate (n : ℕ) : value (List.replicate n 0#w) = 0 := by
  induction n with
  | zero => rfl
  | succ n ih => rw [List.replicate_succ, value_cons, ih]; simp

theorem value_take (n : ℕ) (xs : List (BitVec w)) : value (xs.take n) = value xs % 2 ^ (w * n) := by
  by_cases hle : xs.length ≤ n
  · have hlt := lt_of_lt_of_le (value_lt xs)
      (Nat.pow_le_pow_right (by norm_num) (Nat.mul_le_mul_left w hle))
    rw [List.take_of_length_le hle, Nat.mod_eq_of_lt hlt]
  · have hsplit := value_append (xs.take n) (xs.drop n)
    have hlt := value_lt (xs.take n)
    have hlen : (xs.take n).length = n := List.length_take_of_le (by omega)
    rw [List.take_append_drop, hlen] at hsplit
    rw [hlen] at hlt
    rw [hsplit, Nat.add_mul_mod_self_left, Nat.mod_eq_of_lt hlt]

theorem value_drop (n : ℕ) (xs : List (BitVec w)) : value (xs.drop n) = value xs / 2 ^ (w * n) := by
  by_cases hle : xs.length ≤ n
  · have hlt := lt_of_lt_of_le (value_lt xs)
      (Nat.pow_le_pow_right (by norm_num) (Nat.mul_le_mul_left w hle))
    rw [List.drop_eq_nil_of_le hle, Nat.div_eq_of_lt hlt, value_nil]
  · have hsplit := value_append (xs.take n) (xs.drop n)
    have hlt := value_lt (xs.take n)
    have hlen : (xs.take n).length = n := List.length_take_of_le (by omega)
    rw [List.take_append_drop, hlen] at hsplit
    rw [hlen] at hlt
    rw [hsplit, Nat.add_mul_div_left _ _ (Nat.two_pow_pos _), Nat.div_eq_of_lt hlt, zero_add]

/-- The word at the top of an array. -/
theorem toNat_getD {n : ℕ} {xs : List (BitVec w)} (hlen : xs.length = n + 1) :
    (xs.getD n 0#w).toNat = value xs / 2 ^ (w * n) := by
  have hdrop : xs.drop n = [xs.getD n 0#w] := by
    rw [List.drop_eq_getElem_cons (by omega : n < xs.length),
      List.drop_eq_nil_of_le (by omega), List.getD,
      List.getElem?_eq_getElem (by omega : n < xs.length), Option.getD_some]
  rw [← value_drop, hdrop, value_cons, value_nil, mul_zero, add_zero]

theorem length_resized (n : ℕ) (xs : List (BitVec w)) : (resized n xs).length = n := by
  rw [resized, List.length_append, List.length_take, List.length_replicate]
  omega

theorem value_resized (n : ℕ) (xs : List (BitVec w)) :
    value (resized n xs) = value xs % 2 ^ (w * n) := by
  rw [resized, value_append, value_replicate, mul_zero, add_zero, value_take]

/-- A number fits into its words, and no fewer hold it. -/
theorem lt_two_pow_wordCount (hw : 0 < w) (x : ℕ) : x < 2 ^ (w * wordCount w x) := by
  refine lt_of_lt_of_le (Nat.lt_size_self x) (Nat.pow_le_pow_right (by norm_num) ?_)
  have := Nat.div_add_mod (x.size + (w - 1)) w
  have := Nat.mod_lt (x.size + (w - 1)) hw
  unfold wordCount
  omega

theorem two_pow_le_of_wordCount (hw : 0 < w) {x n : ℕ}
    (h : wordCount w x = n + 1) : 2 ^ (w * n) ≤ x := by
  rw [← Nat.lt_size]
  have hdiv := Nat.div_mul_le_self (x.size + (w - 1)) w
  have hcomm := Nat.mul_comm (n + 1) w
  rw [wordCount] at h
  rw [h, Nat.mul_comm, Nat.mul_succ] at hdiv
  omega

theorem wordCount_le (hw : 0 < w) {x n : ℕ} (h : x < 2 ^ (w * n)) : wordCount w x ≤ n := by
  have hsize := Nat.size_le.mpr h
  rw [wordCount, Nat.div_le_iff_le_mul_add_pred hw]
  omega

theorem addx_spec (x y : BitVec w) (carry : Bool) :
    (addx x y carry).1.toNat + 2 ^ w * (addx x y carry).2.toNat =
      x.toNat + y.toNat + carry.toNat := by
  have hx := x.isLt
  have hy := y.isLt
  have hc := Bool.toNat_le carry
  simp only [addx, BitVec.toNat_ofNat]
  by_cases h : 2 ^ w ≤ x.toNat + y.toNat + carry.toNat
  · rw [Nat.mod_eq_sub_mod h, Nat.mod_eq_of_lt (by omega)]
    simp only [h, decide_true, Bool.toNat_true]
    omega
  · rw [Nat.mod_eq_of_lt (by omega)]
    simp [h]

theorem subx_spec (x y : BitVec w) (borrow : Bool) :
    (subx x y borrow).1.toNat + y.toNat + borrow.toNat =
      x.toNat + 2 ^ w * (subx x y borrow).2.toNat := by
  have hx := x.isLt
  have hy := y.isLt
  have hb := Bool.toNat_le borrow
  simp only [subx, BitVec.toNat_ofNat]
  by_cases h : x.toNat < y.toNat + borrow.toNat
  · rw [Nat.mod_eq_of_lt (by omega)]
    simp only [h, decide_true, Bool.toNat_true]
    omega
  · rw [Nat.mod_eq_sub_mod (by omega), Nat.mod_eq_of_lt (by omega)]
    simp only [h, decide_false, Bool.toNat_false]
    omega

theorem length_add {xs ys : List (BitVec w)} (hlen : xs.length = ys.length) (carry : Bool) :
    (add xs ys carry).1.length = xs.length := by
  induction xs generalizing ys carry with
  | nil => simp [add]
  | cons x xs ih =>
    cases ys with
    | nil => simp at hlen
    | cons y ys =>
      simp only [add, List.length_cons, ih (by simpa using hlen : xs.length = ys.length)]

theorem value_add {xs ys : List (BitVec w)} (hlen : xs.length = ys.length) (carry : Bool) :
    value (add xs ys carry).1 + 2 ^ (w * xs.length) * (add xs ys carry).2.toNat =
      value xs + value ys + carry.toNat := by
  induction xs generalizing ys carry with
  | nil => simp [add, List.length_eq_zero_iff.mp hlen.symm]
  | cons x xs ih =>
    cases ys with
    | nil => simp at hlen
    | cons y ys =>
      have hword := addx_spec x y carry
      have hrest := ih (by simpa using hlen : xs.length = ys.length) (addx x y carry).2
      simp only [add, value_cons, List.length_cons, Nat.mul_succ, Nat.pow_add]
      linear_combination hword + 2 ^ w * hrest

theorem length_sub {xs ys : List (BitVec w)} (hlen : xs.length = ys.length) (borrow : Bool) :
    (sub xs ys borrow).1.length = xs.length := by
  induction xs generalizing ys borrow with
  | nil => simp [sub]
  | cons x xs ih =>
    cases ys with
    | nil => simp at hlen
    | cons y ys =>
      simp only [sub, List.length_cons, ih (by simpa using hlen : xs.length = ys.length)]

theorem value_sub {xs ys : List (BitVec w)} (hlen : xs.length = ys.length) (borrow : Bool) :
    value (sub xs ys borrow).1 + value ys + borrow.toNat =
      value xs + 2 ^ (w * xs.length) * (sub xs ys borrow).2.toNat := by
  induction xs generalizing ys borrow with
  | nil => simp [sub, List.length_eq_zero_iff.mp hlen.symm]
  | cons x xs ih =>
    cases ys with
    | nil => simp at hlen
    | cons y ys =>
      have hword := subx_spec x y borrow
      have hrest := ih (by simpa using hlen : xs.length = ys.length) (subx x y borrow).2
      simp only [sub, value_cons, List.length_cons, Nat.mul_succ, Nat.pow_add]
      linear_combination hword + 2 ^ w * hrest

/-- A difference borrows exactly when it is negative. -/
theorem sub_borrow {xs ys : List (BitVec w)} (hlen : xs.length = ys.length) :
    (sub xs ys false).2 = decide (value xs < value ys) := by
  have h := value_sub hlen false
  have hx := value_lt xs
  have hr := value_lt (sub xs ys false).1
  rw [length_sub hlen] at hr
  cases hb : (sub xs ys false).2 with
  | true =>
    rw [hb] at h
    simp only [Bool.toNat_true, Bool.toNat_false, mul_one, add_zero] at h
    rw [eq_comm, decide_eq_true_iff]
    omega
  | false =>
    rw [hb] at h
    simp only [Bool.toNat_false, mul_zero, add_zero] at h
    rw [eq_comm, decide_eq_false_iff_not]
    omega

theorem value_sub_of_le {xs ys : List (BitVec w)} (hlen : xs.length = ys.length)
    (h : value ys ≤ value xs) :
    value (sub xs ys false).1 = value xs - value ys := by
  have hv := value_sub hlen false
  rw [sub_borrow hlen, decide_eq_false (by omega : ¬value xs < value ys)] at hv
  simp only [Bool.toNat_false, mul_zero, add_zero] at hv
  omega

theorem value_sub_of_lt {xs ys : List (BitVec w)} (hlen : xs.length = ys.length)
    (h : value xs < value ys) :
    value (sub xs ys false).1 = value xs + 2 ^ (w * xs.length) - value ys := by
  have hv := value_sub hlen false
  rw [sub_borrow hlen, decide_eq_true h] at hv
  simp only [Bool.toNat_false, Bool.toNat_true, mul_one, add_zero] at hv
  omega

/-- A difference is one modulo the length of the arrays. -/
theorem value_sub_modEq {xs ys : List (BitVec w)} (hlen : xs.length = ys.length) :
    value (sub xs ys false).1 + value ys ≡ value xs [MOD 2 ^ (w * xs.length)] := by
  have hv := value_sub hlen false
  rw [Bool.toNat_false, add_zero] at hv
  rw [hv]
  exact Nat.add_mul_mod_self_left _ _ _

/-- A sum drops its carry. -/
theorem value_add_mod {xs ys : List (BitVec w)} (hlen : xs.length = ys.length) :
    value (add xs ys false).1 = (value xs + value ys) % 2 ^ (w * xs.length) := by
  have hv := value_add hlen false
  have hr := value_lt (add xs ys false).1
  rw [length_add hlen] at hr
  simp only [Bool.toNat_false, add_zero] at hv
  rw [← hv, Nat.add_mul_mod_self_left, Nat.mod_eq_of_lt hr]

theorem half_spec (hw : 0 < w) (xs : List (BitVec w)) :
    value (half xs).1 = value xs / 2 ∧ (half xs).2.toNat = 2 ^ (w - 1) * (value xs % 2) := by
  obtain ⟨k, rfl⟩ : ∃ k, w = k + 1 := ⟨w - 1, by omega⟩
  induction xs with
  | nil => simp [half]
  | cons x xs ih =>
    obtain ⟨hval, hbit⟩ := ih
    have hpow : 2 ^ (k + 1) = 2 * 2 ^ k := pow_succ' 2 k
    have hx : x.toNat / 2 < 2 ^ k := by
      have := x.isLt
      omega
    have hword : ((x >>> 1) ||| (half xs).2).toNat = 2 ^ k * (value xs % 2) + x.toNat / 2 := by
      rw [BitVec.toNat_or, BitVec.toNat_ushiftRight, hbit, Nat.shiftRight_one, Nat.or_comm]
      exact (Nat.two_pow_add_eq_or_of_lt hx _).symm
    simp only [half, value_cons, hword, hval, BitVec.toNat_shiftLeft, Nat.shiftLeft_eq,
      Nat.add_sub_cancel, hpow]
    constructor
    · have hdiv := Nat.div_add_mod (value xs) 2
      rw [Nat.mul_assoc 2, Nat.mul_assoc 2, Nat.add_mul_div_left _ _ (by norm_num)]
      linear_combination 2 ^ k * hdiv
    · rw [Nat.mul_comm 2, Nat.mul_comm x.toNat, Nat.mul_mod_mul_left, Nat.mul_assoc,
        Nat.mul_comm (2 ^ k) (2 * _), Nat.mul_assoc, Nat.add_mul_mod_self_left]

theorem length_half (xs : List (BitVec w)) : (half xs).1.length = xs.length := by
  induction xs with
  | nil => rfl
  | cons x xs ih => rw [half, List.length_cons, List.length_cons, ih]

theorem value_half (hw : 0 < w) (xs : List (BitVec w)) :
    value (half xs).1 = value xs / 2 := (half_spec hw xs).1

/-- The lowest bit of the first word is the parity of the array. -/
theorem value_mod_two (hw : 0 < w) (x : BitVec w) (xs : List (BitVec w)) :
    value (x :: xs) % 2 = x.toNat % 2 := by
  obtain ⟨k, rfl⟩ : ∃ k, w = k + 1 := ⟨w - 1, by omega⟩
  rw [value_cons, pow_succ', Nat.mul_assoc, Nat.add_mul_mod_self_left]

@[simp] theorem mask_false : mask w false = 0#w := by simp [mask]

@[simp] theorem mask_true : mask w true = BitVec.allOnes w := by
  simp [mask, BitVec.neg_one_eq_allOnes]

theorem mask_and (a b : Bool) : mask w a &&& mask w b = mask w (a && b) := by
  cases a with
  | false => rw [mask_false, BitVec.zero_and, Bool.false_and, mask_false]
  | true => rw [mask_true, BitVec.allOnes_and, Bool.true_and]

theorem mask_or (a b : Bool) : mask w a ||| mask w b = mask w (a || b) := by
  cases a with
  | false => rw [mask_false, BitVec.zero_or, Bool.false_or]
  | true => rw [mask_true, BitVec.allOnes_or, Bool.true_or, mask_true]

theorem not_mask (a : Bool) : ~~~mask w a = mask w (!a) := by
  cases a with
  | false => rw [mask_false, BitVec.not_zero, Bool.not_false, mask_true]
  | true => rw [mask_true, BitVec.not_allOnes, Bool.not_true, mask_false]

@[simp] theorem masked_true (xs : List (BitVec w)) : masked true xs = xs := by
  simp [masked]

@[simp] theorem masked_false (xs : List (BitVec w)) :
    masked false xs = List.replicate xs.length 0#w := by
  simp [masked, List.map_const']

@[simp] theorem length_masked (flag : Bool) (xs : List (BitVec w)) :
    (masked flag xs).length = xs.length :=
  List.length_map _

theorem value_masked (flag : Bool) (xs : List (BitVec w)) :
    value (masked flag xs) = flag.toNat * value xs := by
  cases flag <;> simp

@[simp] theorem flipped_false (xs : List (BitVec w)) : flipped false xs = xs := by
  simp [flipped]

@[simp] theorem length_flipped (flag : Bool) (xs : List (BitVec w)) :
    (flipped flag xs).length = xs.length :=
  List.length_map _

theorem value_flipped (xs : List (BitVec w)) :
    value (flipped true xs) + value xs + 1 = 2 ^ (w * xs.length) := by
  induction xs with
  | nil => simp [flipped]
  | cons x xs ih =>
    have hx := x.isLt
    have hword : (x ^^^ mask w true).toNat + x.toNat + 1 = 2 ^ w := by
      rw [mask_true, BitVec.xor_allOnes, BitVec.toNat_not]
      omega
    simp only [flipped, List.map_cons, value_cons, List.length_cons, Nat.mul_succ, pow_add] at ih ⊢
    rw [← ih]
    linear_combination hword

theorem swapped_eq {xs ys : List (BitVec w)} (hlen : xs.length = ys.length) (flag : Bool) :
    swapped flag xs ys = if flag then (ys, xs) else (xs, ys) := by
  induction xs generalizing ys with
  | nil => cases flag <;> simp [swapped, List.length_eq_zero_iff.mp hlen.symm]
  | cons x xs ih =>
    cases ys with
    | nil => simp at hlen
    | cons y ys =>
      have hrest := ih (by simpa using hlen : xs.length = ys.length)
      have hword : x ^^^ (x ^^^ y) = y := by
        rw [← BitVec.xor_assoc, BitVec.xor_self, BitVec.zero_xor]
      have hword' : y ^^^ (x ^^^ y) = x := by
        rw [BitVec.xor_comm x, ← BitVec.xor_assoc, BitVec.xor_self, BitVec.zero_xor]
      cases flag <;> simp_all [swapped]

theorem selected_eq {xs ys : List (BitVec w)} (hlen : xs.length = ys.length) (flag : Bool) :
    selected flag xs ys = if flag then xs else ys := by
  induction xs generalizing ys with
  | nil => cases flag <;> simp [selected, List.length_eq_zero_iff.mp hlen.symm]
  | cons x xs ih =>
    cases ys with
    | nil => simp at hlen
    | cons y ys =>
      have hrest := ih (by simpa using hlen : xs.length = ys.length)
      cases flag <;> simp_all [selected]

/-- The words from the `n`-th on are zero. -/
def ZeroFrom (n : ℕ) (rs : List (BitVec w)) : Prop := ∀ r ∈ rs.drop n, r = 0#w

theorem length_mulRow (v : BitVec w) (us rs : List (BitVec w)) (carry : BitVec w) :
    (mulRow v us rs carry).length = rs.length := by
  induction rs generalizing us carry with
  | nil => cases us <;> rfl
  | cons r rs ih =>
    cases us with
    | nil => rfl
    | cons u us => rw [mulRow, List.length_cons, List.length_cons, ih]

/-- A row leaves the words behind its last carry. -/
theorem drop_mulRow (v : BitVec w) (us rs : List (BitVec w)) (carry : BitVec w) :
    (mulRow v us rs carry).drop (us.length + 1) = rs.drop (us.length + 1) := by
  induction rs generalizing us carry with
  | nil => cases us <;> simp [mulRow]
  | cons r rs ih =>
    cases us with
    | nil => simp [mulRow]
    | cons u us => simpa [mulRow] using ih us _

/-- The sum in a row fits into two words. -/
theorem mulRow_carry_lt (u v r carry : BitVec w) :
    (u.toNat * v.toNat + r.toNat + carry.toNat) / 2 ^ w < 2 ^ w := by
  have hu := u.isLt
  have hv := v.isLt
  have hr := r.isLt
  have hc := carry.isLt
  obtain ⟨B, hB⟩ : ∃ B, 2 ^ w = B + 1 := ⟨2 ^ w - 1, by have := Nat.two_pow_pos w; omega⟩
  rw [hB] at hu hv hr hc ⊢
  have hmul : u.toNat * v.toNat ≤ B * B := Nat.mul_le_mul (by omega) (by omega)
  rw [Nat.div_lt_iff_lt_mul (by omega), Nat.succ_mul, Nat.mul_succ]
  omega

theorem value_mulRow (v : BitVec w) (us rs : List (BitVec w)) (carry : BitVec w)
    (hz : ZeroFrom us.length rs) :
    value (mulRow v us rs carry) ≡
      value us * v.toNat + value rs + carry.toNat [MOD 2 ^ (w * rs.length)] := by
  induction us generalizing rs carry with
  | nil =>
    cases rs with
    | nil => simp [mulRow, Nat.modEq_one]
    | cons r rs =>
      have hr : r = 0#w := hz r (by simp)
      rw [mulRow, value_cons, value_cons, value_nil, hr, BitVec.toNat_zero]
      exact congrArg (· % 2 ^ (w * (0#w :: rs).length)) (by ring)
  | cons u us ih =>
    cases rs with
    | nil => simp [mulRow, Nat.modEq_one]
    | cons r rs =>
      have hrest := ih rs (BitVec.ofNat w ((u.toNat * v.toNat + r.toNat + carry.toNat) / 2 ^ w))
        (fun x hx => hz x (by simpa using hx))
      rw [BitVec.toNat_ofNat, Nat.mod_eq_of_lt (mulRow_carry_lt u v r carry)] at hrest
      have hdiv := Nat.div_add_mod (u.toNat * v.toNat + r.toNat + carry.toNat) (2 ^ w)
      rw [mulRow, value_cons, value_cons, value_cons, BitVec.toNat_ofNat, List.length_cons,
        Nat.mul_succ, Nat.add_comm (w * rs.length), pow_add]
      have hsum : (u.toNat * v.toNat + r.toNat + carry.toNat) % 2 ^ w +
          2 ^ w * (value us * v.toNat + value rs +
          (u.toNat * v.toNat + r.toNat + carry.toNat) / 2 ^ w) =
          (u.toNat + 2 ^ w * value us) * v.toNat + (r.toNat + 2 ^ w * value rs) + carry.toNat := by
        linear_combination hdiv
      rw [← hsum]
      exact (hrest.mul_left' (2 ^ w)).add_left _

theorem value_mulRows (u v rs : List (BitVec w)) (hz : ZeroFrom u.length rs) :
    (mulRows u v rs).length = rs.length ∧
      value (mulRows u v rs) ≡ value u * value v + value rs [MOD 2 ^ (w * rs.length)] := by
  induction v generalizing rs with
  | nil => simp [mulRows, Nat.ModEq.refl]
  | cons v vs ih =>
    have hlen := length_mulRow v u rs 0#w
    have hdrop := drop_mulRow v u rs 0#w
    have hrow := value_mulRow v u rs 0#w hz
    rw [mulRows]
    cases hm : mulRow v u rs 0#w with
    | nil =>
      rw [hm, List.length_nil] at hlen
      simp [List.length_eq_zero_iff.mp hlen.symm, Nat.modEq_one]
    | cons r rs' =>
      rw [hm] at hlen hdrop hrow
      rw [List.length_cons] at hlen
      have hz' : ZeroFrom u.length rs' := by
        intro x hx
        rw [List.drop_succ_cons] at hdrop
        rw [hdrop, ← List.tail_drop] at hx
        exact hz x (List.mem_of_mem_tail hx)
      obtain ⟨hlen', hval⟩ := ih rs' hz'
      simp only
      refine ⟨by rw [List.length_cons, hlen', hlen], ?_⟩
      rw [← hlen, Nat.mul_succ, Nat.add_comm (w * rs'.length), pow_add] at hrow ⊢
      rw [value_cons, BitVec.toNat_zero] at hrow
      rw [value_cons, value_cons]
      calc r.toNat + 2 ^ w * value (mulRows u vs rs')
          ≡ r.toNat + 2 ^ w * (value u * value vs + value rs') [MOD 2 ^ w * 2 ^ (w * rs'.length)] :=
            (hval.mul_left' (2 ^ w)).add_left _
        _ = r.toNat + 2 ^ w * value rs' + 2 ^ w * (value u * value vs) := by ring
        _ ≡ value u * v.toNat + value rs + 0 +
            2 ^ w * (value u * value vs) [MOD 2 ^ w * 2 ^ (w * rs'.length)] :=
            hrow.add_right _
        _ = value u * (v.toNat + 2 ^ w * value vs) + value rs := by ring

theorem length_mulLow (n : ℕ) (u v : List (BitVec w)) : (mulLow n u v).length = n := by
  have h := value_mulRows u v (List.replicate n 0#w) (fun _ h =>
    List.eq_of_mem_replicate (List.mem_of_mem_drop h))
  rw [mulLow, h.1, List.length_replicate]

theorem value_mulLow (n : ℕ) (u v : List (BitVec w)) :
    value (mulLow n u v) = value u * value v % 2 ^ (w * n) := by
  have h := value_mulRows u v (List.replicate n 0#w) (fun _ h =>
    List.eq_of_mem_replicate (List.mem_of_mem_drop h))
  have hlt := value_lt (mulLow n u v)
  rw [length_mulLow] at hlt
  rw [value_replicate, List.length_replicate, add_zero, ← mulLow] at h
  exact (Nat.mod_eq_of_lt hlt).symm.trans h.2

end WordArray
