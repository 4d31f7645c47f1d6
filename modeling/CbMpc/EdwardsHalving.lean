import Mathlib.GroupTheory.OrderOfElement
import Mathlib.NumberTheory.LegendreSymbol.QuadraticChar.Basic
import CbMpc.EdwardsCurve

/-!
# Halving a point of an Edwards curve

A point is halved in the coordinates `u = (-1 - d) * (1 + y) / (1 - y)` and `w = 2 / x` of its
Montgomery form, where the double of a point has a square for `u` and each point with a square for
`u` is a double. Points of order two and eight then tell which points are multiples of eight.
-/
namespace Edwards

variable {K : Type*} [Field K] {d : K}

/-- The coefficient of `u` does not vanish. -/
theorem Complete.coeff_ne_zero [hd : Complete d] : -1 - d ≠ 0 := by
  intro h
  apply hd.mul_sq_add_one_ne_zero 1
  linear_combination -h

/-- In a finite field two nonsquares have a square for product. -/
theorem isSquare_mul_of_not_isSquare [Finite K] {a b : K} (ha : ¬IsSquare a)
    (hb : ¬IsSquare b) : IsSquare (a * b) := by
  classical
  have : Fintype K := Fintype.ofFinite K
  have ha0 : a ≠ 0 := fun h => ha (h ▸ IsSquare.zero)
  have hb0 : b ≠ 0 := fun h => hb (h ▸ IsSquare.zero)
  rw [← quadraticChar_one_iff_isSquare (mul_ne_zero ha0 hb0), map_mul,
    quadraticChar_neg_one_iff_not_isSquare.mpr ha, quadraticChar_neg_one_iff_not_isSquare.mpr hb]
  decide

namespace Point

theorem one_sub_y_sq (Q : Point d) : 1 - Q.y ^ 2 = -Q.x ^ 2 * (d * Q.y ^ 2 + 1) := by
  linear_combination -Q.onCurve

theorem one_sub_y_sq_ne_zero [hd : Complete d] {Q : Point d} (h : Q.x ≠ 0) :
    (1 - Q.y) * (1 + Q.y) ≠ 0 := by
  have hfactor : (1 - Q.y) * (1 + Q.y) = -Q.x ^ 2 * (d * Q.y ^ 2 + 1) := by
    linear_combination one_sub_y_sq Q
  rw [hfactor]
  exact mul_ne_zero (neg_ne_zero.mpr (pow_ne_zero 2 h)) (hd.mul_sq_add_one_ne_zero Q.y)

/-- The coordinate `u` of the Montgomery form. -/
def montU (Q : Point d) : K := (-1 - d) * (1 + Q.y) / (1 - Q.y)

/-- The slope of the Montgomery form: the other coordinate divided by `u`. -/
def montW (Q : Point d) : K := (1 + 1) / Q.x

theorem montW_eq (Q : Point d) : Q.montW = 2 / Q.x := by rw [montW, one_add_one_eq_two]

/-- The point of order two. -/
def two : Point d := ⟨0, -1, by ring⟩

theorem eq_zero_or_two {Q : Point d} (h : Q.x = 0) : Q = 0 ∨ Q = two := by
  have hy : (Q.y - 1) * (Q.y + 1) = 0 := by
    have hcurve := Q.onCurve
    rw [h] at hcurve
    linear_combination hcurve
  rcases mul_eq_zero.mp hy with hone | hneg
  · exact Or.inl (Point.ext h (sub_eq_zero.mp hone))
  · exact Or.inr (Point.ext h (eq_neg_of_add_eq_zero_left hneg))

variable [hd : Complete d]

theorem montU_ne_zero {Q : Point d} (h : Q.x ≠ 0) : Q.montU ≠ 0 := by
  have hy := one_sub_y_sq_ne_zero h
  exact div_ne_zero (mul_ne_zero hd.coeff_ne_zero (right_ne_zero_of_mul hy))
    (left_ne_zero_of_mul hy)

/-- The equation of the curve in its Montgomery form. -/
theorem mont_equation {Q : Point d} (h : Q.x ≠ 0) :
    Q.montW ^ 2 * Q.montU = Q.montU ^ 2 + 2 * (d - 1) * Q.montU + (-1 - d) ^ 2 := by
  have hy := left_ne_zero_of_mul (one_sub_y_sq_ne_zero h)
  rw [montU, montW_eq]
  field_simp
  linear_combination 4 * (-1 - d) * one_sub_y_sq Q

/-- The two candidates for the first coordinate on the isogenous curve. -/
theorem mont_candidates {Q : Point d} (h : Q.x ≠ 0) {r : K} (hr : r ^ 2 = 4 * Q.montU) :
    (2 * Q.montU + 2 * (d - 1) - Q.montW * r) * (2 * Q.montU + 2 * (d - 1) - Q.montW * -r) =
      -16 * d := by
  linear_combination -Q.montW ^ 2 * hr - 4 * mont_equation h

variable [Finite K]

theorem montW_ne_zero {Q : Point d} (h : Q.x ≠ 0) : Q.montW ≠ 0 :=
  montW_eq Q ▸ div_ne_zero hd.two_ne_zero h

theorem ext_mont {Q R : Point d} (hQ : Q.x ≠ 0) (hR : R.x ≠ 0) (hu : Q.montU = R.montU)
    (hw : Q.montW = R.montW) : Q = R := by
  have hyQ := left_ne_zero_of_mul (one_sub_y_sq_ne_zero hQ)
  have hyR := left_ne_zero_of_mul (one_sub_y_sq_ne_zero hR)
  apply Point.ext
  · rw [montW_eq, montW_eq, div_eq_div_iff hQ hR] at hw
    exact (mul_left_cancel₀ hd.two_ne_zero hw).symm
  · rw [montU, montU, div_eq_div_iff hyQ hyR] at hu
    apply mul_left_cancel₀ (mul_ne_zero hd.coeff_ne_zero hd.two_ne_zero)
    linear_combination hu

/-- The double of a point has a square for `u`. -/
theorem montU_double {Q : Point d} (h : Q.x ≠ 0) :
    (Q.add Q).montU = ((-1 - d) * (Q.x * Q.y) / (1 - Q.y ^ 2)) ^ 2 := by
  have hy := one_sub_y_sq_ne_zero h
  have hsq : 1 - Q.y ^ 2 ≠ 0 := fun hz => hy (by linear_combination hz)
  have hden := Q.one_sub_cross_ne_zero Q
  have hcross : 1 - Q.cross Q = 2 + Q.x ^ 2 - Q.y ^ 2 := by
    rw [cross]
    linear_combination Q.onCurve
  have hydbl : (Q.add Q).y = (Q.y * Q.y + Q.x * Q.x) / (1 - Q.cross Q) := rfl
  rw [hcross] at hden hydbl
  have hminus : 1 - (Q.add Q).y = 2 * (1 - Q.y ^ 2) / (2 + Q.x ^ 2 - Q.y ^ 2) := by
    rw [hydbl]
    field_simp
    ring
  have hplus : 1 + (Q.add Q).y = 2 * (1 + Q.x ^ 2) / (2 + Q.x ^ 2 - Q.y ^ 2) := by
    rw [hydbl]
    field_simp
    ring
  have htwo : (2 : K) ≠ 0 := hd.two_ne_zero
  rw [montU, hminus, hplus]
  field_simp
  linear_combination (-1 - d) * one_sub_y_sq Q

/-- The slopes of a point and its double. -/
theorem montW_double {Q : Point d} (hx : Q.x ≠ 0) (hy : Q.y ≠ 0) :
    (Q.add Q).montW * (-2 * ((-1 - d) * (Q.x * Q.y) / (1 - Q.y ^ 2))) = 2 * (Q.add Q).montU +
      2 * (d - 1) - Q.montW ^ 2 := by
  have hsq : 1 - Q.y ^ 2 ≠ 0 := fun hz => one_sub_y_sq_ne_zero hx (by linear_combination hz)
  have hden := Q.one_add_cross_ne_zero Q
  have hcross : 1 + Q.cross Q = Q.y ^ 2 - Q.x ^ 2 := by
    rw [cross]
    linear_combination -Q.onCurve
  have hxdbl : (Q.add Q).x = (Q.x * Q.y + Q.y * Q.x) / (1 + Q.cross Q) := rfl
  have htwo : (2 : K) ≠ 0 := hd.two_ne_zero
  rw [montU_double hx, montW_eq, montW_eq, hxdbl, hcross]
  rw [hcross] at hden
  have hxx : Q.x * Q.y + Q.y * Q.x = 2 * (Q.x * Q.y) := by ring
  rw [hxx]
  field_simp
  linear_combination ((-1 - d) * Q.x ^ 2 + 2 * (1 - Q.y ^ 2)) * one_sub_y_sq Q

/-- Halving a point: a root `r` of `4 * u` leads to a point of the isogenous curve, and a root of
that point's first coordinate to a half of the point. -/
theorem exists_half {Q : Point d} (hx : Q.x ≠ 0) {r v : K} (hr : r ^ 2 = 4 * Q.montU)
    (hv : v ^ 2 = 2 * Q.montU + 2 * (d - 1) - Q.montW * r) :
    ∃ R : Point d, R.add R = Q ∧ R.x ≠ 0 ∧ R.montW = v ∧
    2 * R.montU = v ^ 2 - 2 * (d - 1) - v * r := by
  have htwo : (2 : K) ≠ 0 := hd.two_ne_zero
  have hcoeff : -1 - d ≠ 0 := hd.coeff_ne_zero
  have hQ := mont_equation hx
  have hu := montU_ne_zero hx
  -- the square of the slope lies on the isogenous curve
  have hdual : v ^ 2 * r ^ 2 = (v ^ 2 - 2 * (d - 1)) ^ 2 - 4 * (-1 - d) ^ 2 := by
    rw [hr, hv]
    linear_combination -Q.montW ^ 2 * hr - 4 * hQ
  have hvne : v ≠ 0 := by
    rintro rfl
    have hd0 : d = 0 := by
      apply mul_left_cancel₀ (pow_ne_zero 4 htwo)
      linear_combination hdual
    exact hd.ne_zero hd0
  obtain ⟨U, hU⟩ : ∃ U, 2 * U = v ^ 2 - 2 * (d - 1) - v * r := ⟨_, mul_div_cancel₀ _ htwo⟩
  have hroot : U ^ 2 - (v ^ 2 - 2 * (d - 1)) * U + (-1 - d) ^ 2 = 0 := by
    apply mul_left_cancel₀ (pow_ne_zero 2 htwo)
    linear_combination (2 * U - (v ^ 2 - 2 * (d - 1)) - v * r) * hU + hdual
  have hUne : U ≠ 0 := by
    rintro rfl
    apply pow_ne_zero 2 hcoeff
    linear_combination hroot
  have hsum : U + (-1 - d) ≠ 0 := by
    intro hzero
    apply hd.nonsquare
    refine ⟨v / 2, ?_⟩
    have hUeq : U = 1 + d := by linear_combination hzero
    have hprod : (1 + d) * (4 * d - v ^ 2) = 0 := by
      rw [hUeq] at hroot
      linear_combination hroot
    have hone : 1 + d ≠ 0 := fun h => hcoeff (by linear_combination -h)
    have hsq := (mul_eq_zero.mp hprod).resolve_left hone
    field_simp
    linear_combination hsq
  have hcurve : -(2 / v) ^ 2 + ((U - (-1 - d)) / (U + (-1 - d))) ^ 2 =
      1 + d * (2 / v) ^ 2 * ((U - (-1 - d)) / (U + (-1 - d))) ^ 2 := by
    field_simp
    linear_combination 4 * (-1 - d) * hroot
  obtain ⟨R, hRx, hRy⟩ : ∃ R : Point d, R.x = 2 / v ∧ R.y = (U - (-1 - d)) / (U + (-1 - d)) :=
    ⟨⟨_, _, hcurve⟩, rfl, rfl⟩
  have hx' : R.x ≠ 0 := hRx ▸ div_ne_zero htwo hvne
  have hw : R.montW = v := by rw [montW_eq, hRx, div_div_cancel₀ htwo]
  have hminus : 1 - R.y = 2 * (-1 - d) / (U + (-1 - d)) := by
    rw [hRy]
    field_simp
    ring
  have hplus : 1 + R.y = 2 * U / (U + (-1 - d)) := by
    rw [hRy]
    field_simp
    ring
  have hmontU : R.montU = U := by
    rw [montU, hminus, hplus]
    field_simp
  have hslope : -2 * ((-1 - d) * (R.x * R.y) / (1 - R.y ^ 2)) = r := by
    have hfactor : 1 - R.y ^ 2 = 2 * (-1 - d) / (U + (-1 - d)) * (2 * U / (U + (-1 - d))) := by
      rw [← hminus, ← hplus]
      ring
    rw [hfactor, hRx, hRy]
    field_simp
    linear_combination hroot - U * hU
  have hr0 : r ≠ 0 := by
    rintro rfl
    apply mul_ne_zero (mul_ne_zero htwo htwo) hu
    linear_combination -hr
  have hy' : R.y ≠ 0 := by
    intro hzero
    rw [hzero, mul_zero, mul_zero, zero_div, mul_zero] at hslope
    exact hr0 hslope.symm
  have hdouble : (R.add R).montU = Q.montU := by
    rw [montU_double hx']
    apply mul_left_cancel₀ (mul_ne_zero htwo htwo)
    linear_combination (r - 2 * ((-1 - d) * (R.x * R.y) / (1 - R.y ^ 2))) * hslope + hr
  have hdoubleW : (R.add R).montW = Q.montW := by
    have h := montW_double hx' hy'
    rw [hslope, hw, hdouble, hv] at h
    apply mul_right_cancel₀ hr0
    linear_combination h
  refine ⟨R, ext_mont ?_ hx hdouble hdoubleW, hx', hw, hmontU.symm ▸ hU⟩
  intro hzero
  apply montW_ne_zero hx
  rw [← hdoubleW, montW_eq, hzero, div_zero]

theorem double_x_eq_zero {Q : Point d} (h : Q.x = 0) : (Q.add Q).x = 0 := by
  show (Q.x * Q.y + Q.y * Q.x) / (1 + Q.cross Q) = 0
  rw [h, zero_mul, mul_zero, add_zero, zero_div]

/-- The points that are doubles, by a square. -/
theorem isSquare_montU_iff {Q : Point d} (hx : Q.x ≠ 0) :
    IsSquare Q.montU ↔ ∃ R : Point d, R.add R = Q := by
  constructor
  · rintro ⟨s, hs⟩
    have hr : (2 * s) ^ 2 = 4 * Q.montU := by linear_combination -4 * hs
    -- the product of the two candidates is no square, so one of them is
    have hprod := mont_candidates hx hr
    have hnonsquare : ¬IsSquare (-16 * d) := by
      rintro ⟨z, hz⟩
      apply hd.nonsquare
      obtain ⟨i, hi⟩ := hd.neg_one
      have htwo : (2 : K) ≠ 0 := hd.two_ne_zero
      refine ⟨i * z / 2 ^ 2, ?_⟩
      field_simp
      linear_combination z ^ 2 * hi - hz
    have hroot : ∀ r, r ^ 2 = 4 * Q.montU → IsSquare (2 * Q.montU + 2 * (d - 1) - Q.montW * r) →
        ∃ R : Point d, R.add R = Q := by
      rintro r hr ⟨v, hv⟩
      obtain ⟨R, hR, -⟩ := exists_half hx hr ((sq v).trans hv.symm)
      exact ⟨R, hR⟩
    by_cases hfirst : IsSquare (2 * Q.montU + 2 * (d - 1) - Q.montW * (2 * s))
    · exact hroot (2 * s) hr hfirst
    · refine hroot (-(2 * s)) ((neg_sq _).trans hr) ?_
      by_contra hsecond
      exact hnonsquare (hprod ▸ isSquare_mul_of_not_isSquare hfirst hsecond)
  · rintro ⟨R, rfl⟩
    have hR : R.x ≠ 0 := fun h => hx (double_x_eq_zero h)
    rw [montU_double hR]
    exact IsSquare.sq _

/-! ## Torsion -/

/-- Points with one double differ by a point of order two. -/
theorem eq_or_eq_add_two {A B : Point d} (h : A + A = B + B) : A = B ∨ A = B + two := by
  have hdiff : A - B = -(A - B) := by
    rw [eq_neg_iff_add_eq_zero, ← sub_eq_zero.mpr h]
    abel
  have hx : (A - B).x = -(A - B).x := congrArg Point.x hdiff
  have hzero : (A - B).x = 0 := by
    apply (mul_eq_zero.mp _).resolve_left hd.two_ne_zero
    linear_combination hx
  rcases eq_zero_or_two hzero with h0 | h2
  · exact Or.inl (sub_eq_zero.mp h0)
  · exact Or.inr (eq_add_of_sub_eq' h2)

theorem two_add_two : (two : Point d) + two = 0 := by
  apply Point.ext
  · exact double_x_eq_zero rfl
  · show (-1 * -1 + 0 * 0) / (1 - cross two two) = (1 : K)
    simp [cross, two]

/-- A point with `x` or `y` equal to zero, or with `x ^ 2 = -y ^ 2`, is of order at most eight. -/
theorem eight_nsmul_eq_zero {Q : Point d} (h : Q.x = 0 ∨ Q.y = 0 ∨ Q.x ^ 2 = -Q.y ^ 2) :
    8 • Q = 0 := by
  have hdouble : ∀ P : Point d, P.x = 0 → P + P = 0 := by
    intro P hP
    rcases eq_zero_or_two hP with rfl | rfl
    · exact add_zero 0
    · exact two_add_two
  have hquad : ∀ P : Point d, P.y = 0 → (P + P).x = 0 := by
    intro P hP
    show (P.x * P.y + P.y * P.x) / (1 + P.cross P) = 0
    rw [hP, mul_zero, zero_mul, add_zero, zero_div]
  have height : 8 • Q = (Q + Q + (Q + Q)) + (Q + Q + (Q + Q)) := by abel
  rw [height]
  apply hdouble
  rcases h with hx | hy | hxy
  · rw [hdouble Q hx]
    exact double_x_eq_zero rfl
  · exact double_x_eq_zero (hquad Q hy)
  · apply hquad
    show (Q.y * Q.y + Q.x * Q.x) / (1 - Q.cross Q) = 0
    rw [← sq, ← sq, hxy, add_neg_cancel, zero_div]

/-- Where the coefficient of `u` is a square, there is a point of order eight. -/
theorem exists_four_nsmul_eq_two (hcoeff : IsSquare (-1 - d)) : ∃ T : Point d, 4 • T = two := by
  obtain ⟨i, hi⟩ := hd.neg_one
  have hcurve : -i ^ 2 + (0 : K) ^ 2 = 1 + d * i ^ 2 * 0 ^ 2 := by linear_combination hi
  obtain ⟨Q, hQx, hQy⟩ : ∃ Q : Point d, Q.x = i ∧ Q.y = 0 := ⟨⟨_, _, hcurve⟩, rfl, rfl⟩
  have hx : Q.x ≠ 0 := by
    rw [hQx]
    rintro rfl
    rw [mul_zero] at hi
    exact neg_ne_zero.mpr one_ne_zero hi
  have hsq : IsSquare Q.montU := by
    rw [montU, hQy, add_zero, sub_zero, mul_one, div_one]
    exact hcoeff
  obtain ⟨T, hT⟩ := (isSquare_montU_iff hx).mp hsq
  have hfour : 4 • T = (T + T) + (T + T) := by abel
  refine ⟨T, ?_⟩
  rw [hfour]
  show (T.add T).add (T.add T) = two
  rw [hT]
  apply Point.ext
  · show (Q.x * Q.y + Q.y * Q.x) / (1 + Q.cross Q) = 0
    rw [hQy, mul_zero, zero_mul, add_zero, zero_div]
  · show (Q.y * Q.y + Q.x * Q.x) / (1 - Q.cross Q) = -1
    rw [cross, hQx, hQy, mul_zero, mul_zero, sub_zero, div_one]
    linear_combination -hi

/-- Halving a multiple of eight twice: each half is again a multiple of a lower power of two. -/
theorem half_of_multiple (hcoeff : IsSquare (-1 - d)) {A R : Point d} {n : ℕ} (hn : n ∣ 4)
    (h : A + A = (2 * n) • R) :
    ∃ R', A = n • R' := by
  have hhalf : A + A = n • R + n • R := by rw [h, two_mul, add_nsmul]
  rcases eq_or_eq_add_two hhalf with rfl | rfl
  · exact ⟨R, rfl⟩
  · obtain ⟨T, hT⟩ := exists_four_nsmul_eq_two hcoeff
    obtain ⟨m, hm⟩ := hn
    refine ⟨R + m • T, ?_⟩
    rw [nsmul_add, ← mul_nsmul', ← hm, hT]

/-- Even multiples have a square for `u`. -/
theorem isSquare_montU_nsmul {Q R : Point d} (hx : Q.x ≠ 0) {n : ℕ}
    (h : Q = (2 * n) • R) : IsSquare Q.montU := by
  apply (isSquare_montU_iff hx).mpr
  refine ⟨n • R, ?_⟩
  show n • R + n • R = Q
  rw [h, two_mul, add_nsmul]

end Point

/-! ## Multiples by the cofactor -/

/-- In a group where every order divides a product of coprime numbers, one number kills the
multiples of the other. -/
theorem nsmul_eq_zero_iff_exists_nsmul {G : Type*} [AddCommGroup G] {m q : ℕ}
    (hcop : m.Coprime q) (hq : 1 < q) (hexp : ∀ R : G, (m * q) • R = 0) (P : G) :
    q • P = 0 ↔ ∃ R, m • R = P := by
  constructor
  · intro h
    obtain ⟨k, -, hk⟩ := Nat.exists_mul_mod_eq_one_of_coprime hcop hq
    refine ⟨k • P, ?_⟩
    rw [← mul_nsmul', ← Nat.mod_add_div (m * k) q, hk, add_nsmul, one_nsmul, mul_nsmul, h,
      nsmul_zero, add_zero]
  · rintro ⟨R, rfl⟩
    rw [← mul_nsmul', mul_comm, hexp]

/-- A small group with elements of prime order `q` and of order eight. -/
theorem eight_mul_nsmul_eq_zero {G : Type*} [AddCommGroup G] [Finite G] {q : ℕ} (hq : q.Prime)
    (hodd : q ≠ 2) {g t : G} (hg : q • g = 0) (hg0 : g ≠ 0) (ht : 8 • t = 0) (ht4 : 4 • t ≠ 0)
    (hcard : Nat.card G < 16 * q) (R : G) :
    (8 * q) • R = 0 := by
  have hfactq : Fact q.Prime := ⟨hq⟩
  have hfact2 : Fact (Nat.Prime 2) := ⟨Nat.prime_two⟩
  have hordg : addOrderOf g = q := addOrderOf_eq_prime hg hg0
  have hordt : addOrderOf t = 2 ^ (2 + 1) := addOrderOf_eq_prime_pow ht4 ht
  have hcop : Nat.Coprime 8 q :=
    Nat.Coprime.pow_left 3 ((Nat.coprime_primes Nat.prime_two hq).mpr hodd.symm)
  have hdvdt := addOrderOf_dvd_natCard t
  have hdvdg := addOrderOf_dvd_natCard g
  rw [hordt] at hdvdt
  rw [hordg] at hdvdg
  obtain ⟨k, hk⟩ := hcop.mul_dvd_of_dvd_of_dvd hdvdt hdvdg
  have hpos : 0 < Nat.card G := Nat.card_pos
  have hlow : 0 < k := Nat.pos_of_ne_zero fun h => by
    rw [hk, h, mul_zero] at hpos; exact lt_irrefl 0 hpos
  have hhigh : k < 2 := by
    rw [hk] at hcard
    by_contra hle
    have hmul := Nat.mul_le_mul_left (8 * q) (not_lt.mp hle)
    omega
  obtain rfl : k = 1 := by omega
  rw [mul_one] at hk
  rw [← hk]
  exact card_nsmul_eq_zero'

end Edwards
