import Mathlib.Algebra.BigOperators.Fin
import Mathlib.Data.ZMod.Basic
import Mathlib.Tactic.Ring
import CbMpc.NthResidues

/-!
# Fractions that agree digit by digit

An unknown residue is bounded by several fractions with small numerators and denominators. They
are equal as fractions of integers when the modulus is large, and so is the fraction of the two
numbers whose digits they are.
-/
namespace CommonFraction

open NthResidues

/-- The digit `i` of `e`, for digits below `2 ^ k`. -/
def digit (k e i : ℕ) : ℕ := e / 2 ^ (k * i) % 2 ^ k

theorem digit_lt (k e i : ℕ) : digit k e i < 2 ^ k := Nat.mod_lt _ (Nat.two_pow_pos k)

/-- The number with the digits `v`. -/
def ofDigits {t : ℕ} (k : ℕ) (v : Fin t → ℤ) : ℤ := ∑ i, v i * 2 ^ (k * (i : ℕ))

theorem ofDigits_digit {k t e : ℕ} (he : e < 2 ^ (k * t)) :
    ofDigits k (fun i : Fin t => (digit k e i : ℤ)) = e := by
  have hmod : ∀ t : ℕ, ofDigits k (fun i : Fin t => (digit k e i : ℤ)) = (e % 2 ^ (k * t) : ℕ) := by
    intro t
    induction t with
    | zero => simp [ofDigits, Nat.mod_one]
    | succ t ih =>
      have hstep : e % 2 ^ (k * (t + 1)) = e % 2 ^ (k * t) + 2 ^ (k * t) * digit k e t := by
        rw [digit, mul_add, mul_one, pow_add, Nat.mod_mul]
      rw [ofDigits, Fin.sum_univ_castSucc, hstep, Nat.cast_add, ← ih]
      simp only [ofDigits, Fin.val_castSucc, Fin.val_last]
      push_cast
      ring
  rw [hmod, Nat.mod_eq_of_lt he]

theorem ofDigits_sub {t : ℕ} (k : ℕ) (v w : Fin t → ℤ) :
    ofDigits k v - ofDigits k w = ofDigits k fun i => v i - w i := by
  rw [ofDigits, ofDigits, ofDigits, ← Finset.sum_sub_distrib]
  exact Finset.sum_congr rfl fun i _ => (sub_mul _ _ _).symm

theorem ofDigits_mul_add {t : ℕ} (k : ℕ) (x : ℤ) (v w : Fin t → ℤ) :
    ofDigits k (fun i => v i * x + w i) = ofDigits k v * x + ofDigits k w := by
  rw [ofDigits, ofDigits, ofDigits, Finset.sum_mul, ← Finset.sum_add_distrib]
  exact Finset.sum_congr rfl fun i _ => by ring

/-- Two different numbers differ in a digit. -/
theorem exists_digit_ne {k t e e' : ℕ} (he : e < 2 ^ (k * t))
    (he' : e' < 2 ^ (k * t)) (hne : e ≠ e') :
    ∃ i : Fin t, digit k e i ≠ digit k e' i := by
  by_contra hall
  rw [not_exists] at hall
  apply hne
  have hfun : (fun i : Fin t => (digit k e i : ℤ)) = fun i : Fin t => (digit k e' i : ℤ) :=
    funext fun i => congrArg Nat.cast (not_not.mp (hall i))
  have hcast : (e : ℤ) = e' := by rw [← ofDigits_digit he, ← ofDigits_digit he', hfun]
  exact_mod_cast hcast

/-- An integer below the modulus that vanishes modulo it is zero. -/
theorem eq_of_cast_eq {N : ℕ} {a b : ℤ} (h : (a : ZMod N) = b) (hlt : |a - b| < N) : a = b := by
  have hdvd : (N : ℤ) ∣ a - b :=
    (ZMod.intCast_zmod_eq_zero_iff_dvd _ _).mp (by rw [Int.cast_sub, h, sub_self])
  exact sub_eq_zero.mp (Int.eq_zero_of_abs_lt_dvd hdvd hlt)

/-- Two fractions of one residue. -/
theorem cross_eq {N : ℕ} {m a b v w A B : ℤ} (ha : |a| < A) (hb : |b| < A) (hv : |v| < B)
    (hw : |w| < B) (hN : 2 * (A * B) ≤ N) (h : ((a * m : ℤ) : ZMod N) = v)
    (h' : ((b * m : ℤ) : ZMod N) = w) : a * w = b * v := by
  have hprod : ∀ {x y : ℤ}, |x| < A → |y| < B → |x * y| < A * B := fun hx hy => by
    rw [abs_mul]
    exact mul_lt_mul'' hx hy (abs_nonneg _) (abs_nonneg _)
  apply eq_of_cast_eq (N := N)
  · rw [Int.cast_mul, Int.cast_mul, ← h, ← h']
    push_cast
    ring
  · have h1 := hprod ha hw
    have h2 := hprod hb hv
    have htri := abs_sub (a * w) (b * v)
    omega

/-- The fraction of the numbers is the fraction of each pair of digits. -/
theorem ofDigits_cross {t k : ℕ} {a v : Fin t → ℤ} {j : Fin t} (h : ∀ i, a i * v j = a j * v i) :
    ofDigits k a * v j = a j * ofDigits k v := by
  rw [ofDigits, ofDigits, Finset.sum_mul, Finset.mul_sum]
  refine Finset.sum_congr rfl fun i _ => ?_
  rw [mul_right_comm, h i, mul_assoc]

/-- Two answers to one mask `T` give a fraction of the integer that `c` stands for. -/
theorem fraction_of_answers {N : ℕ} (hN : N ≠ 0) (hcop : N.Coprime N.totient)
    {c T D D' : ZMod (N * N)} {m d d' : ℤ} {k k' : ℕ} (hm : IsPlain N c m) (hD : IsUnit D)
    (hD' : IsUnit D') (h : c ^ k * T = D ^ N * (1 + d * N))
    (h' : c ^ k' * T = D' ^ N * (1 + d' * N)) :
    ((((k : ℤ) - k') * m : ℤ) : ZMod N) = (d - d' : ℤ) := by
  have hanswer : ∀ {D : ZMod (N * N)} {d : ℤ}, IsUnit D → IsPlain N (D ^ N * (1 + d * N)) d := by
    intro D d hD
    have hplain := (IsPlain.pow_modulus hD).mul (IsPlain.one_add (N := N) d)
    rwa [zero_add] at hplain
  have hT : IsUnit T := by
    have hunit := (hanswer (d := d) hD).1
    rw [← h] at hunit
    exact (IsUnit.mul_iff.mp hunit).2
  obtain ⟨τ, hτ⟩ := exists_isPlain hN hcop hT
  have hrow := ((hm.pow k).mul hτ).unique hN hcop (h ▸ hanswer hD)
  have hrow' := ((hm.pow k').mul hτ).unique hN hcop (h' ▸ hanswer hD')
  calc ((((k : ℤ) - k') * m : ℤ) : ZMod N) =
      ((k * m + τ : ℤ) : ZMod N) - ((k' * m + τ : ℤ) : ZMod N) := by
        push_cast
        ring
    _ = (d - d' : ℤ) := by rw [hrow, hrow', Int.cast_sub]

end CommonFraction
