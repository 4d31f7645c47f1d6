import CbMpc.EdwardsProjective
import CbMpc.FieldWords
import CbMpc.LucasTest
import CbMpc.Reconstruct
import Mathlib.NumberTheory.LegendreSymbol.QuadraticReciprocity

/-!
# Inverses and square roots of Ed25519

The addition chains of `fe_t::invert`, `fe_t::pow22523` and `fe_t::sqrt_ext`, each step by the power
that it stands for. The modulus is 5 modulo 8, so 2 is no square, and a power of twice a square is a
root of `-1`.
-/
namespace CbMpc

open WordArray Uint256 LucasTest

/-! ## The prime -/

/-- The prime factors that the certificates start from. -/
def smallFactors : List ℕ :=
  [2, 3, 5, 7, 13, 19, 31, 47, 97, 103, 107, 127, 223, 353, 419, 991, 1723, 2437, 4153, 57467,
    65147, 75707, 132049, 1923133]

def fieldCertificates : List Certificate :=
  [⟨430751, 17, [2, 5, 5, 5, 1723]⟩,
    ⟨31757755568855353, 10, [2, 2, 2, 3, 31, 107, 223, 4153, 430751]⟩,
    ⟨569003, 2, [2, 7, 97, 419]⟩,
    ⟨2773320623, 5, [2, 2437, 569003]⟩,
    ⟨72106336199, 7, [2, 13, 2773320623]⟩,
    ⟨8574133, 2, [2, 2, 3, 7, 103, 991]⟩,
    ⟨1919519569386763, 2, [2, 3, 7, 19, 47, 47, 127, 8574133]⟩,
    ⟨75445702479781427272750846543864801, 7,
    [2, 2, 2, 2, 2, 3, 3, 5, 5, 75707, 72106336199, 1919519569386763]⟩,
    ⟨74058212732561358302231226437062788676166966415465897661863160754340907, 2,
      [2, 3, 353, 57467, 132049, 1923133, 31757755568855353, 75445702479781427272750846543864801]⟩,
    ⟨fieldPrime, 2, [2, 2, 3, 65147,
    74058212732561358302231226437062788676166966415465897661863160754340907]⟩]

theorem smallFactors_prime : ∀ r ∈ smallFactors, r.Prime := by
  simp only [smallFactors, List.forall_mem_cons]
  norm_num

theorem fieldPrime_prime : fieldPrime.Prime := by
  have hchecks : checks 256 smallFactors fieldCertificates = true := by decide +kernel
  have hmem : fieldPrime ∈ fieldCertificates.map Certificate.p := by simp [fieldCertificates]
  obtain ⟨c, hc, hp⟩ := List.mem_map.mp hmem
  exact hp ▸ prime_of_checks smallFactors_prime hchecks c hc

instance factFieldPrime : Fact fieldPrime.Prime := ⟨fieldPrime_prime⟩

/-! ## The operations of `fe_t` -/

namespace Fe

def zero : Uint256 := ⟨0, 0, 0, 0⟩

def one : Uint256 := ⟨1, 0, 0, 0⟩

/-- `fe_t::operator==`. -/
def eq (a b : Uint256) : Bool := decide (feFreeze a = feFreeze b)

/-- `fe_t::is_zero`. -/
def isZero (a : Uint256) : Bool := decide (feFreeze a = zero)

/-- `fe_t::is_odd`. -/
def isOdd (a : Uint256) : Bool := (feFreeze a).isOdd

/-- `fe_t::operator-`. -/
def neg (a : Uint256) : Uint256 := feSub zero a

/-- `fe_t::xsquare`, and the loops of squarings in the chains. -/
def xsquare (a : Uint256) (n : ℕ) : Uint256 := feSquareNoasm^[n] a

/-- `fe_t::invert`. -/
def invert (x : Uint256) : Uint256 :=
  let z2 := feSquareNoasm x
  let t := xsquare z2 2
  let z9 := feMulNoasm t x
  let z11 := feMulNoasm z9 z2
  let t := feSquareNoasm z11
  let z2_5_0 := feMulNoasm t z9
  let z2_10_0 := feMulNoasm (xsquare z2_5_0 5) z2_5_0
  let z2_20_0 := feMulNoasm (xsquare z2_10_0 10) z2_10_0
  let t := feMulNoasm (xsquare z2_20_0 20) z2_20_0
  let z2_50_0 := feMulNoasm (xsquare t 10) z2_10_0
  let z2_100_0 := feMulNoasm (xsquare z2_50_0 50) z2_50_0
  let t := feMulNoasm (xsquare z2_100_0 100) z2_100_0
  let t := feMulNoasm (xsquare t 50) z2_50_0
  feMulNoasm (xsquare t 5) z11

/-- `fe_t::pow22523`. -/
def pow22523 (z : Uint256) : Uint256 :=
  let t0 := feSquareNoasm z
  let t1 := feMulNoasm z (xsquare t0 2)
  let t0 := feSquareNoasm (feMulNoasm t0 t1)
  let t0 := feMulNoasm t1 t0
  let t0 := feMulNoasm (xsquare t0 5) t0
  let t1 := feMulNoasm (xsquare t0 10) t0
  let t1 := feMulNoasm (xsquare t1 20) t1
  let t0 := feMulNoasm (xsquare t1 10) t0
  let t1 := feMulNoasm (xsquare t0 50) t0
  let t1 := feMulNoasm (xsquare t1 100) t1
  let t0 := feMulNoasm (xsquare t1 50) t0
  feMulNoasm (xsquare t0 2) z

/-- The window of the exponent's tail that the loop of `sqrt_ext` reads. -/
def sqrtWindow (i : ℕ) : ℕ := ((0x1ffffffffffffffd#64 >>> (10 - 2 * i)) &&& 3#64).toNat

/-- The loop of `sqrt_ext`. -/
def sqrtLoop (window : List Uint256) (b : Uint256) : Uint256 :=
  (List.range 6).foldl (fun b i =>
    let b := feSquareNoasm (feSquareNoasm b)
    if sqrtWindow i = 0 then b else feMulNoasm b (window.getD (sqrtWindow i - 1) zero)) b

/-- The power of `sqrt_ext` with the exponent `(p - 5) / 8`. -/
def sqrtPower (z : Uint256) : Uint256 :=
  let z2 := feSquareNoasm z
  let z3 := feMulNoasm z2 z
  let zp4 := feMulNoasm (xsquare z3 2) z3
  let zp5 := feMulNoasm (feSquareNoasm zp4) z
  let zp15 := feMulNoasm (xsquare (feMulNoasm (xsquare zp5 5) zp5) 5) zp5
  let zp30 := feMulNoasm (xsquare zp15 15) zp15
  let zp60 := feMulNoasm (xsquare zp30 30) zp30
  let zp120 := feMulNoasm (xsquare zp60 60) zp60
  let zp240 := feMulNoasm (xsquare zp120 120) zp120
  sqrtLoop [z, z2, z3] zp240

/-- `fe_t::sqrt_ext`. -/
def sqrtExt (a : Uint256) : Uint256 × Bool :=
  let z := feAdd a a
  let b := sqrtPower z
  let c := feMulNoasm z (feSquareNoasm b)
  let isUnit := eq c one || eq c (neg one)
  let cAdjusted := cndAssign isUnit c ⟨3, 0, 0, 0⟩
  let y := feMulNoasm (feMulNoasm a b) (feSub cAdjusted one)
  let y := feFreeze y
  let y := cndAssign y.isOdd y (neg y)
  (y, eq (feSquareNoasm y) a)

/-- `fe_t::sqrt`. -/
def sqrt (a : Uint256) : Uint256 × Bool :=
  let s := sqrtExt a
  if s.2 then (s.1, true) else (zero, false)

theorem feVal_zero : feVal zero = 0 := by
  have h : value zero.words = 0 := by decide
  rw [feVal, h, Nat.cast_zero]

theorem feVal_one : feVal one = 1 := by
  have h : value one.words = 1 := by decide
  rw [feVal, h, Nat.cast_one]

theorem feVal_neg (a : Uint256) : feVal (neg a) = -feVal a := by
  rw [neg, feVal_feSub, feVal_zero, zero_sub]

theorem feVal_xsquare (a : Uint256) (n : ℕ) : feVal (xsquare a n) = feVal a ^ 2 ^ n := by
  induction n with
  | zero => simp [xsquare]
  | succ n ih =>
    rw [xsquare, Function.iterate_succ_apply', feVal_feSquareNoasm, ← xsquare, ih, ← pow_add,
      pow_succ, mul_two]

theorem words_injective {a b : Uint256} (h : value a.words = value b.words) : a = b := by
  have hwords : a.words = b.words := eq_of_value rfl h
  obtain ⟨a0, a1, a2, a3⟩ := a
  obtain ⟨b0, b1, b2, b3⟩ := b
  simp only [words, List.cons.injEq, and_true] at hwords
  obtain ⟨rfl, rfl, rfl, rfl⟩ := hwords
  rfl

theorem feFreeze_eq_iff (a b : Uint256) : feFreeze a = feFreeze b ↔ feVal a = feVal b := by
  rw [feVal, feVal, ZMod.natCast_eq_natCast_iff', ← value_feFreeze, ← value_feFreeze]
  exact ⟨fun h => congrArg (fun x => value x.words) h, words_injective⟩

theorem eq_iff (a b : Uint256) : eq a b = true ↔ feVal a = feVal b := by
  rw [eq, decide_eq_true_iff, feFreeze_eq_iff]

theorem isZero_iff (a : Uint256) : isZero a = true ↔ feVal a = 0 := by
  have hzero : feFreeze zero = zero := by decide
  rw [isZero, decide_eq_true_iff, ← feVal_zero, ← feFreeze_eq_iff, hzero]

/-- `y` stands for the power of `x` with the exponent `e`. -/
def IsPow (x y : Uint256) (e : ℕ) : Prop := feVal y = feVal x ^ e

variable {x y z : Uint256} {e f : ℕ}

theorem IsPow.self (x : Uint256) : IsPow x x 1 := (pow_one _).symm

theorem IsPow.mul (hy : IsPow x y e) (hz : IsPow x z f) : IsPow x (feMulNoasm y z) (e + f) := by
  rw [IsPow, feVal_feMulNoasm, hy, hz, pow_add]

theorem IsPow.sqr (hy : IsPow x y e) : IsPow x (feSquareNoasm y) (2 * e) := by
  rw [IsPow, feVal_feSquareNoasm, hy, two_mul, pow_add]

theorem IsPow.xsquare (hy : IsPow x y e) (n : ℕ) : IsPow x (xsquare y n) (e * 2 ^ n) := by
  rw [IsPow, feVal_xsquare, hy, pow_mul]

theorem IsPow.of_eq (hy : IsPow x y e) (h : e = f) : IsPow x y f := h ▸ hy

theorem isPow_invert (x : Uint256) : IsPow x (invert x) (fieldPrime - 2) := by
  have hx := IsPow.self x
  have h9 := (hx.sqr.xsquare 2).mul hx
  have h11 := h9.mul hx.sqr
  have h5 := h11.sqr.mul h9
  have h10 := (h5.xsquare 5).mul h5
  have h20 := (h10.xsquare 10).mul h10
  have h40 := (h20.xsquare 20).mul h20
  have h50 := (h40.xsquare 10).mul h10
  have h100 := (h50.xsquare 50).mul h50
  have h200 := (h100.xsquare 100).mul h100
  have h250 := (h200.xsquare 50).mul h50
  exact ((h250.xsquare 5).mul h11).of_eq (by norm_num [fieldPrime])

theorem isPow_pow22523 (x : Uint256) : IsPow x (pow22523 x) (2 ^ 252 - 3) := by
  have hx := IsPow.self x
  have h9 := hx.mul (hx.sqr.xsquare 2)
  have h11 := hx.sqr.mul h9
  have h5 := h9.mul h11.sqr
  have h10 := (h5.xsquare 5).mul h5
  have h20 := (h10.xsquare 10).mul h10
  have h40 := (h20.xsquare 20).mul h20
  have h50 := (h40.xsquare 10).mul h10
  have h100 := (h50.xsquare 50).mul h50
  have h200 := (h100.xsquare 100).mul h100
  have h250 := (h200.xsquare 50).mul h50
  exact ((h250.xsquare 2).mul hx).of_eq (by norm_num)

theorem sqrtWindow_le (i : ℕ) : sqrtWindow i ≤ 3 := by
  rw [sqrtWindow, BitVec.toNat_and]
  exact Nat.and_le_right

/-- A round of the loop: two bits of the exponent. -/
theorem IsPow.window (hy : IsPow x y e) (i : ℕ) :
    IsPow x (if sqrtWindow i = 0 then feSquareNoasm (feSquareNoasm y) else
      feMulNoasm (feSquareNoasm (feSquareNoasm y))
      ([x, feSquareNoasm x, feMulNoasm (feSquareNoasm x) x].getD (sqrtWindow i - 1) zero))
        (4 * e + sqrtWindow i) := by
  have hx := IsPow.self x
  have hle := sqrtWindow_le i
  have hy4 := hy.sqr.sqr.of_eq (by ring : 2 * (2 * e) = 4 * e)
  generalize sqrtWindow i = k at hle
  interval_cases k
  · exact hy4
  · exact hy4.mul hx
  · exact hy4.mul hx.sqr
  · exact hy4.mul (hx.sqr.mul hx)

theorem isPow_sqrtLoop (hy : IsPow x y e) :
    IsPow x (sqrtLoop [x, feSquareNoasm x, feMulNoasm (feSquareNoasm x) x] y)
    (4 ^ 6 * e + 4093) := by
  have hwindows : (List.range 6).map sqrtWindow = [3, 3, 3, 3, 3, 1] := by decide
  have hrun : ∀ is : List ℕ, IsPow x (is.foldl (fun b i =>
      if sqrtWindow i = 0 then feSquareNoasm (feSquareNoasm b) else
        feMulNoasm (feSquareNoasm (feSquareNoasm b))
        ([x, feSquareNoasm x, feMulNoasm (feSquareNoasm x) x].getD (sqrtWindow i - 1) zero)) y)
      ((is.map sqrtWindow).foldl (fun e k => 4 * e + k) e) := by
    intro is
    induction is generalizing y e with
    | nil => exact hy
    | cons i is ih => exact ih (hy.window i)
  refine (hrun (List.range 6)).of_eq ?_
  rw [hwindows]
  simp only [List.foldl_cons, List.foldl_nil]
  ring

theorem isPow_sqrtPower (x : Uint256) : IsPow x (sqrtPower x) (2 ^ 252 - 3) := by
  have hx := IsPow.self x
  have h3 := hx.sqr.mul hx
  have h4 := (h3.xsquare 2).mul h3
  have h5 := h4.sqr.mul hx
  have h15 := (((h5.xsquare 5).mul h5).xsquare 5).mul h5
  have h30 := (h15.xsquare 15).mul h15
  have h60 := (h30.xsquare 30).mul h30
  have h120 := (h60.xsquare 60).mul h60
  have h240 := (h120.xsquare 120).mul h120
  exact (isPow_sqrtLoop h240).of_eq (by norm_num)

theorem fieldPrime_odd : fieldPrime % 2 = 1 := by norm_num [fieldPrime]

theorem two_not_square : ¬IsSquare (2 : ZMod fieldPrime) := by
  rw [ZMod.exists_sq_eq_two_iff (by norm_num [fieldPrime])]
  norm_num [fieldPrime]

theorem neg_one_square : IsSquare (-1 : ZMod fieldPrime) :=
  ZMod.exists_sq_eq_neg_one_iff.mpr (by norm_num [fieldPrime])

theorem two_ne_zero_field : (2 : ZMod fieldPrime) ≠ 0 := fun h => two_not_square (h ▸ IsSquare.zero)

/-- The square of twice a number times the square of the power in `sqrt_ext`, by whether the number
is a square. -/
theorem sqrt_unit {a : ZMod fieldPrime} (ha : a ≠ 0) :
    (2 * a * ((2 * a) ^ (2 ^ 252 - 3)) ^ 2) ^ 2 = if IsSquare a then -1 else 1 := by
  have hhalf : fieldPrime / 2 = 2 + 4 * (2 ^ 252 - 3) := by norm_num [fieldPrime]
  have hpow : (2 * a * ((2 * a) ^ (2 ^ 252 - 3)) ^ 2) ^ 2 =
      2 ^ (fieldPrime / 2) * a ^ (fieldPrime / 2) := by
    rw [hhalf, ← mul_pow]
    generalize 2 ^ 252 - 3 = e
    ring
  have htwo : (2 : ZMod fieldPrime) ^ (fieldPrime / 2) = -1 :=
    (ZMod.pow_div_two_eq_neg_one_or_one fieldPrime two_ne_zero_field).resolve_left
      fun h => two_not_square ((ZMod.euler_criterion fieldPrime two_ne_zero_field).mpr h)
  rw [hpow, htwo]
  split_ifs with hsq
  · rw [(ZMod.euler_criterion fieldPrime ha).mp hsq, mul_one]
  · have hneg := (ZMod.pow_div_two_eq_neg_one_or_one fieldPrime ha).resolve_left
      fun h => hsq ((ZMod.euler_criterion fieldPrime ha).mpr h)
    rw [hneg, neg_one_mul, neg_neg]

/-- What `sqrt_ext` computes before it picks the even root: the number is a square or it is not, and
twice its square is the number's double up to sign. -/
theorem feVal_sqrtExt_sq (a : Uint256) :
    feVal (sqrtExt a).1 ^ 2 = feVal a ∨
      (¬IsSquare (feVal a) ∧ (feVal (sqrtExt a).1 ^ 2 = 2 * feVal a ∨
        feVal (sqrtExt a).1 ^ 2 = -(2 * feVal a))) := by
  have hz : feVal (feAdd a a) = 2 * feVal a := by rw [feVal_feAdd, two_mul]
  have hb := isPow_sqrtPower (feAdd a a)
  rw [IsPow, hz] at hb
  have hc : feVal (feMulNoasm (feAdd a a) (feSquareNoasm (sqrtPower (feAdd a a)))) =
      2 * feVal a * feVal (sqrtPower (feAdd a a)) ^ 2 := by
    rw [feVal_feMulNoasm, feVal_feSquareNoasm, hz, sq]
  have hthree : feVal ⟨3, 0, 0, 0⟩ = 3 := by
    have h : value (Uint256.mk 3 0 0 0).words = 3 := by decide
    rw [feVal, h, Nat.cast_ofNat]
  have hsign : ∀ y : Uint256, feVal (cndAssign y.isOdd y (neg y)) ^ 2 = feVal y ^ 2 := by
    intro y
    unfold cndAssign
    split_ifs
    · rw [feVal_neg, neg_sq]
    · rfl
  simp only [sqrtExt]
  rw [hsign, feVal_feFreeze, feVal_feMulNoasm, feVal_feMulNoasm, feVal_feSub, feVal_one]
  by_cases ha : feVal a = 0
  · left
    rw [ha]
    ring
  · have hunit := sqrt_unit ha
    rw [← hb] at hunit
    generalize sqrtPower (feAdd a a) = b at *
    by_cases hsq : IsSquare (feVal a)
    · left
      rw [if_pos hsq] at hunit
      have hnot : (eq (feMulNoasm (feAdd a a) (feSquareNoasm b)) one ||
          eq (feMulNoasm (feAdd a a) (feSquareNoasm b)) (neg one)) = false := by
        rw [Bool.or_eq_false_iff, ← Bool.not_eq_true, ← Bool.not_eq_true, eq_iff, eq_iff, hc,
          feVal_neg, feVal_one]
        have hne : (1 : ZMod fieldPrime) ≠ -1 := fun h =>
          two_ne_zero_field (by linear_combination h)
        constructor
        · intro h
          rw [h, one_pow] at hunit
          exact hne hunit
        · intro h
          rw [h, neg_one_sq] at hunit
          exact hne hunit
      rw [hnot, cndAssign, if_neg Bool.false_ne_true, hc]
      linear_combination (feVal a ^ 2 * feVal b ^ 2 - feVal a) * hunit
    · right
      refine ⟨hsq, ?_⟩
      rw [if_neg hsq] at hunit
      have hpm := mul_self_eq_one_iff.mp ((sq _).symm.trans hunit)
      have hflag : (eq (feMulNoasm (feAdd a a) (feSquareNoasm b)) one ||
          eq (feMulNoasm (feAdd a a) (feSquareNoasm b)) (neg one)) = true := by
        rwa [Bool.or_eq_true, eq_iff, eq_iff, hc, feVal_neg, feVal_one]
      rw [hflag, cndAssign, if_pos rfl, hthree]
      rcases hpm with h | h
      · left
        linear_combination 2 * feVal a * h
      · right
        linear_combination 2 * feVal a * h

theorem sqrtExt_ok_eq (a : Uint256) : (sqrtExt a).2 = eq (feSquareNoasm (sqrtExt a).1) a := rfl

/-- The flag of `sqrt_ext` says whether the number is a square. -/
theorem sqrtExt_ok_iff (a : Uint256) : (sqrtExt a).2 = true ↔ IsSquare (feVal a) := by
  rw [sqrtExt_ok_eq, eq_iff, feVal_feSquareNoasm]
  constructor
  · intro h
    exact ⟨_, h.symm⟩
  · intro hsq
    rcases feVal_sqrtExt_sq a with h | ⟨hnot, -⟩
    · rw [← h, sq]
    · exact absurd hsq hnot

theorem sqrtExt_sq {a : Uint256} (h : IsSquare (feVal a)) : feVal (sqrtExt a).1 ^ 2 = feVal a :=
  (feVal_sqrtExt_sq a).resolve_right fun hnot => hnot.1 h

theorem sqrt_snd (a : Uint256) : (sqrt a).2 = (sqrtExt a).2 := by
  rw [sqrt]
  split_ifs with h
  · exact h.symm
  · exact (Bool.eq_false_iff.mpr h).symm

theorem sqrt_sq {a : Uint256} (h : (sqrt a).2 = true) : feVal (sqrt a).1 ^ 2 = feVal a := by
  rw [sqrt_snd] at h
  rw [sqrt, if_pos h]
  exact sqrtExt_sq ((sqrtExt_ok_iff a).mp h)

/-- The root is even in its canonical form. -/
theorem sqrtExt_even (a : Uint256) : value (feFreeze (sqrtExt a).1).words % 2 = 0 := by
  have hp := fieldPrime_odd
  have hpick : ∀ y : Uint256,
      value (feFreeze (cndAssign (feFreeze y).isOdd (feFreeze y) (neg (feFreeze y)))).words % 2 =
        0 := by
    intro y
    have hlt : value (feFreeze y).words < fieldPrime := by
      rw [value_feFreeze]
      exact Nat.mod_lt _ fieldPrime_prime.pos
    rw [isOdd_eq, isOddWords_eq, value_feFreeze, cndAssign]
    by_cases hodd : value (feFreeze y).words % 2 = 1
    · have hneg : ((value (neg (feFreeze y)).words : ℕ) : ZMod fieldPrime) =
          ((fieldPrime - value (feFreeze y).words : ℕ) : ZMod fieldPrime) := by
        rw [Nat.cast_sub hlt.le, ZMod.natCast_self, zero_sub]
        exact feVal_neg (feFreeze y)
      rw [ZMod.natCast_eq_natCast_iff',
        Nat.mod_eq_of_lt (by omega : fieldPrime - value (feFreeze y).words < fieldPrime)] at hneg
      rw [decide_eq_true hodd, if_pos rfl, hneg]
      omega
    · rw [decide_eq_false hodd, if_neg Bool.false_ne_true, Nat.mod_eq_of_lt hlt]
      omega
  exact hpick _

/-- Fermat's inverse. -/
theorem pow_sub_two_eq_inv (a : ZMod fieldPrime) : a ^ (fieldPrime - 2) = a⁻¹ := by
  by_cases ha : a = 0
  · rw [ha, inv_zero, zero_pow (by norm_num [fieldPrime])]
  · have hcard := ZMod.pow_card_sub_one_eq_one ha
    have hsplit : fieldPrime - 1 = fieldPrime - 2 + 1 := by norm_num [fieldPrime]
    rw [hsplit, pow_succ] at hcard
    exact eq_inv_of_mul_eq_one_left hcard

theorem inv_eq (x : Uint256) : feVal (invert x) = (feVal x)⁻¹ := by
  rw [isPow_invert x, pow_sub_two_eq_inv]

theorem feVal_feHalf (x : Uint256) : feVal (feHalf x) = feVal x / 2 := by
  have h := congrArg (Nat.cast : ℕ → ZMod fieldPrime) (two_mul_value_feHalf x)
  rw [Nat.cast_mul, Nat.cast_add, Nat.cast_mul, ZMod.natCast_self, zero_mul, add_zero,
    Nat.cast_ofNat] at h
  rw [eq_div_iff two_ne_zero_field, mul_comm]
  exact h

end Fe

/-- The field arithmetic is exact on all 256-bit inputs. -/
theorem fieldWords_exact (x y : Uint256) :
    value (feFreeze x).words = value x.words % fieldPrime ∧
    feVal (feAdd x y) = feVal x + feVal y ∧ feVal (feSub x y) = feVal x - feVal y ∧
    feVal (feHalf x) = feVal x / 2 ∧
    feVal (feSquareNoasm x) = feVal x ^ 2 ∧ feVal (feMulNoasm x y) = feVal x * feVal y ∧
    feVal (Fe.invert x) = feVal x ^ (fieldPrime - 2) ∧
    feVal (Fe.pow22523 x) = feVal x ^ (2 ^ 252 - 3) ∧
    ((Fe.sqrtExt x).2 = true ↔ IsSquare (feVal x)) ∧
    ((Fe.sqrtExt x).2 = true →
      feVal (Fe.sqrtExt x).1 ^ 2 = feVal x ∧ value (feFreeze (Fe.sqrtExt x).1).words % 2 = 0) := by
  have hsquare : feVal (feSquareNoasm x) = feVal x ^ 2 := (feVal_feSquareNoasm x).trans (sq _).symm
  refine ⟨value_feFreeze x, feVal_feAdd x y, feVal_feSub x y, Fe.feVal_feHalf x, hsquare,
    feVal_feMulNoasm x y, Fe.isPow_invert x, Fe.isPow_pow22523 x, Fe.sqrtExt_ok_iff x, fun hok =>
      ⟨?_, Fe.sqrtExt_even x⟩⟩
  exact Fe.sqrtExt_sq ((Fe.sqrtExt_ok_iff x).mp hok)

end CbMpc
