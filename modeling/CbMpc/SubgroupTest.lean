import CbMpc.Ed25519Group

/-!
# The subgroup test of Ed25519

`is_in_subgroup` halves the point twice and asks whether the second half is a double. The state of
its loop stands for the coordinates `u` and `w` of a point over a common factor `e`.
-/
namespace CbMpc

open WordArray Uint256 Edwards

/-- `bn_t::jacobi`, over the symbol of the big-number library. -/
def jacobi (kronecker : ℤ → ℤ → ℤ) (a b : ℤ) : ℤ := if b ≤ 0 then -2 else kronecker a b

/-- `sqrt_m1`, unreduced as in the source. -/
def sqrtM1 : Uint256 := ⟨0xc4ee1b274a0ea09d#64, 0x2f431806ad2fe478#64, 0x2b4d00993dfbd7a7#64,
      0xab8324804fc1df0b#64⟩

/-- `sqrt_2BP0`. -/
def sqrt2BP0 : Uint256 :=
  ⟨0x1a9f3ec897eb404c#64, 0xdcbe48eefe58e409#64, 0xeccfa7e460864b8d#64, 0x184e375b980a76df#64⟩

/-- `A`. -/
def curveA : Uint256 := Fe.neg Fe.one

/-- `A_minus_D`. -/
def curveAMinusD : Uint256 := feSub curveA feOps.d

/-- `A0`. -/
def curveA0 : Uint256 := feAdd (feAdd curveA feOps.d) (feAdd curveA feOps.d)

/-- `AP0`. -/
def curveAP0 : Uint256 := Fe.neg (feAdd curveA0 curveA0)

/-- The variables of the loop. -/
structure HalvingState where
  e : Uint256
  u : Uint256
  w : Uint256

/-- The first values of the variables. -/
def halvingStart (P : ProjectivePoint Uint256) : HalvingState :=
  let e := feMulNoasm P.x (feSub P.z P.y)
  let u := feMulNoasm (feMulNoasm (feMulNoasm curveAMinusD (feAdd P.z P.y)) P.x) e
  let w := feMulNoasm P.z (feSub P.z P.y)
  ⟨e, u, feAdd w w⟩

/-- `u` at the end of a turn. -/
def halvedU (e w wPrime : Uint256) : Uint256 :=
  feHalf (feSub (feSub (feSquareNoasm w) (feMulNoasm curveA0 (feSquareNoasm e)))
    (feMulNoasm w wPrime))

/-- `u_prime`. -/
def halvingUPrime (s : HalvingState) (uScaled wPrime : Uint256) : Uint256 :=
  feHalf (feSub (feSub uScaled (feMulNoasm (feMulNoasm curveAP0 s.e) s.e))
    (feMulNoasm wPrime (feAdd s.w s.w)))

/-- A turn of the loop. Without a value the function returns `false`. -/
def halve (s : HalvingState) : Option HalvingState :=
  let uScaled := feAdd s.u s.u
  let uScaled := feAdd uScaled uScaled
  let root := Fe.sqrt uScaled
  if root.2 then
    let wPrime := root.1
    let uPrime := halvingUPrime s uScaled wPrime
    let t := Fe.sqrtExt uPrime
    if t.2 then some ⟨s.e, halvedU s.e t.1 wPrime, t.1⟩
    else
      let t := if Fe.eq (feSquareNoasm t.1) (Fe.neg (feAdd uPrime uPrime)) then
        feMulNoasm t.1 sqrtM1 else t.1
      let wPrime := feMulNoasm wPrime t
      let w := feMulNoasm sqrt2BP0 (feSquareNoasm s.e)
      let e := feMulNoasm s.e t
      some ⟨e, halvedU e w wPrime, Fe.neg w⟩
  else none

/-- `is_in_subgroup`. -/
def isInSubgroup (kronecker : ℤ → ℤ → ℤ) (P : ProjectivePoint Uint256) : Bool :=
  if P.isInfinity feOps then true
  else if !P.isOnCurve feOps then false
  else
    let iy := feMulNoasm P.y sqrtM1
    if Fe.isZero P.x || Fe.isZero P.y || Fe.eq iy P.x || Fe.eq iy (Fe.neg P.x) then false
    else
      match halve (halvingStart P) >>= halve with
      | none => false
      | some s => decide (jacobi kronecker (value (feFreeze s.u).words) fieldPrime = 1)

/-! ## The constants -/

theorem feVal_sqrtM1 : feVal sqrtM1 ^ 2 = -1 := by
  have hdvd : ((value sqrtM1.words ^ 2 + 1 : ℕ) : ZMod fieldPrime) = 0 := by
    rw [ZMod.natCast_eq_zero_iff]
    decide
  rw [feVal, eq_neg_iff_add_eq_zero, ← Nat.cast_pow, ← Nat.cast_one, ← Nat.cast_add]
  exact hdvd

theorem feVal_sqrt2BP0 : feVal sqrt2BP0 ^ 2 = -(32 * edD) := by
  have hdvd : ((value sqrt2BP0.words ^ 2 + 32 * curveD : ℕ) : ZMod fieldPrime) = 0 := by
    rw [ZMod.natCast_eq_zero_iff]
    decide
  rw [feVal, edD, eq_neg_iff_add_eq_zero]
  push_cast at hdvd
  exact hdvd

theorem feVal_curveA : feVal curveA = -1 := by rw [curveA, Fe.feVal_neg, Fe.feVal_one]

theorem feVal_curveAMinusD : feVal curveAMinusD = -1 - edD := by
  rw [curveAMinusD, feVal_feSub, feVal_curveA, feOps_lawful.d_eq]

theorem feVal_curveA0 : feVal curveA0 = 2 * (edD - 1) := by
  rw [curveA0, feVal_feAdd, feVal_feAdd, feVal_curveA, feOps_lawful.d_eq]
  ring

theorem feVal_curveAP0 : feVal curveAP0 = -(4 * (edD - 1)) := by
  rw [curveAP0, Fe.feVal_neg, feVal_feAdd, feVal_curveA0]
  ring

/-! ## A turn of the loop -/

/-- The variables stand for a point. -/
structure HalvingOf (s : HalvingState) (Q : Point edD) : Prop where
  x_ne : Q.x ≠ 0
  e_ne : feVal s.e ≠ 0
  w_eq : feVal s.w = Q.montW * feVal s.e
  u_eq : feVal s.u = Q.montU * feVal s.e ^ 2

theorem halvingOf_start {P : ProjectivePoint Uint256} {Q : Point edD}
    (h : Represents feVal P Q) (hx : Q.x ≠ 0) :
    HalvingOf (halvingStart P) Q := by
  obtain ⟨hz, hPx, hPy⟩ := h
  have hy : 1 - Q.y ≠ 0 := left_ne_zero_of_mul (Point.one_sub_y_sq_ne_zero hx)
  have he : feVal (halvingStart P).e = Q.x * (1 - Q.y) * feVal P.z ^ 2 := by
    simp only [halvingStart]
    rw [feVal_feMulNoasm, feVal_feSub, hPx, hPy]
    ring
  refine ⟨hx, ?_, ?_, ?_⟩
  · rw [he]
    exact mul_ne_zero (mul_ne_zero hx hy) (pow_ne_zero 2 hz)
  · rw [he, Point.montW_eq]
    simp only [halvingStart]
    rw [feVal_feAdd, feVal_feMulNoasm, feVal_feSub, hPy]
    field_simp
    ring
  · have hu : feVal (halvingStart P).u = (-1 - edD) * (feVal P.z + feVal P.y) * feVal P.x *
        feVal (halvingStart P).e := by
      simp only [halvingStart]
      rw [feVal_feMulNoasm, feVal_feMulNoasm, feVal_feMulNoasm, feVal_curveAMinusD, feVal_feAdd]
    rw [hu, he, hPx, hPy, Point.montU]
    field_simp

theorem feVal_halvedU (e w wPrime : Uint256) :
    2 * feVal (halvedU e w wPrime) = feVal w ^ 2 - 2 * (edD - 1) *
      feVal e ^ 2 - feVal w * feVal wPrime := by
  rw [halvedU, Fe.feVal_feHalf, feVal_feSub, feVal_feSub, feVal_feSquareNoasm, feVal_feMulNoasm,
    feVal_curveA0, feVal_feSquareNoasm, feVal_feMulNoasm, mul_div_cancel₀ _ Fe.two_ne_zero_field]
  ring

theorem feVal_halvingUPrime {s : HalvingState} {Q : Point edD} (h : HalvingOf s Q)
    {uScaled wPrime : Uint256} {r : ZMod fieldPrime} (hu : feVal uScaled = 4 * feVal s.u)
    (hr : feVal wPrime = r * feVal s.e) :
    feVal (halvingUPrime s uScaled wPrime) =
      (2 * Q.montU + 2 * (edD - 1) - Q.montW * r) * feVal s.e ^ 2 := by
  apply mul_left_cancel₀ Fe.two_ne_zero_field
  rw [halvingUPrime, Fe.feVal_feHalf, mul_div_cancel₀ _ Fe.two_ne_zero_field, feVal_feSub,
    feVal_feSub, feVal_feMulNoasm, feVal_feMulNoasm, feVal_feMulNoasm, feVal_feAdd, feVal_curveAP0,
    hu, hr, h.w_eq, h.u_eq]
  ring

/-- A half of the point, with its coordinates over a factor. -/
theorem exists_halvingOf {Q : Point edD} (hx : Q.x ≠ 0) {e w wPrime : Uint256}
    {r v : ZMod fieldPrime} (he : feVal e ≠ 0) (hr : r ^ 2 = 4 * Q.montU)
    (hv : v ^ 2 = 2 * Q.montU + 2 * (edD - 1) - Q.montW * r) {w' : Uint256}
    (hw' : feVal w' = v * feVal e) (hw : feVal w ^ 2 = feVal w' ^ 2)
    (hprod : feVal w * feVal wPrime = v * r * feVal e ^ 2) :
    ∃ R : Point edD, R.add R = Q ∧ HalvingOf ⟨e, halvedU e w wPrime, w'⟩ R := by
  obtain ⟨R, hR, hRx, hRw, hRu⟩ := Point.exists_half hx hr hv
  refine ⟨R, hR, hRx, he, ?_, ?_⟩
  · rw [hRw]
    exact hw'
  · apply mul_left_cancel₀ Fe.two_ne_zero_field
    show 2 * feVal (halvedU e w wPrime) = 2 * (R.montU * feVal e ^ 2)
    rw [feVal_halvedU, hw, hprod, hw', ← mul_assoc, hRu]
    ring

/-- The root of twice a nonsquare that the loop takes. -/
theorem adjustedRoot_sq {a : Uint256} (h : (Fe.sqrtExt a).2 = false) :
    feVal (if Fe.eq (feSquareNoasm (Fe.sqrtExt a).1) (Fe.neg (feAdd a a)) then
      feMulNoasm (Fe.sqrtExt a).1 sqrtM1
      else (Fe.sqrtExt a).1) ^ 2 = 2 * feVal a := by
  have hnot : ¬IsSquare (feVal a) := by rw [← Fe.sqrtExt_ok_iff, h]; exact Bool.false_ne_true
  have hcases := (Fe.feVal_sqrtExt_sq a).resolve_left fun hsq => hnot ⟨_, hsq.symm.trans (sq _)⟩
  split_ifs with heq
  · rw [Fe.eq_iff, feVal_feSquareNoasm, Fe.feVal_neg, feVal_feAdd] at heq
    rw [feVal_feMulNoasm, mul_pow, feVal_sqrtM1, sq, heq]
    ring
  · refine hcases.2.resolve_right fun hneg => heq ?_
    rw [Fe.eq_iff, feVal_feSquareNoasm, Fe.feVal_neg, feVal_feAdd, ← sq, hneg]
    ring

variable {s : HalvingState} {Q : Point edD}

theorem feVal_uScaled (s : HalvingState) :
    feVal (feAdd (feAdd s.u s.u) (feAdd s.u s.u)) = 4 * feVal s.u := by
  rw [feVal_feAdd, feVal_feAdd]
  ring

/-- A turn ends the loop where the point is no double. -/
theorem halve_eq_none_iff (h : HalvingOf s Q) : halve s = none ↔ ¬IsSquare Q.montU := by
  have hsquare : IsSquare (feVal (feAdd (feAdd s.u s.u) (feAdd s.u s.u))) ↔ IsSquare Q.montU := by
    have hscale : Q.montU * (2 * feVal s.e) ^ 2 = 4 * feVal s.u := by
      rw [h.u_eq]
      ring
    rw [feVal_uScaled, ← hscale]
    have hne : (2 * feVal s.e) ^ 2 ≠ 0 := pow_ne_zero 2 (mul_ne_zero Fe.two_ne_zero_field h.e_ne)
    constructor
    · intro hsq
      have hdiv := hsq.div (IsSquare.sq (2 * feVal s.e))
      rwa [mul_div_cancel_right₀ _ hne] at hdiv
    · intro hsq
      exact hsq.mul (IsSquare.sq _)
  rw [← hsquare, ← Fe.sqrtExt_ok_iff, ← Fe.sqrt_snd]
  simp only [halve]
  split_ifs with hroot hok
  · constructor
    · rintro ⟨⟩
    · exact fun hnot => absurd hroot hnot
  · constructor
    · rintro ⟨⟩
    · exact fun hnot => absurd hroot hnot
  · exact ⟨fun _ => hroot, fun _ => rfl⟩

/-- A turn that does not end the loop halves the point. -/
theorem halve_halves (h : HalvingOf s Q) {s' : HalvingState} (hs : halve s = some s') :
    ∃ R : Point edD, R.add R = Q ∧ HalvingOf s' R := by
  simp only [halve] at hs
  have hu := feVal_uScaled s
  generalize feAdd (feAdd s.u s.u) (feAdd s.u s.u) = uScaled at hs hu
  cases hroot : (Fe.sqrt uScaled).2 with
  | false =>
    rw [hroot] at hs
    cases hs
  | true =>
    rw [hroot, if_pos rfl] at hs
    have hsq := Fe.sqrt_sq hroot
    generalize (Fe.sqrt uScaled).1 = wPrime at hs hsq
    obtain ⟨r, hr⟩ : ∃ r, feVal wPrime = r * feVal s.e := ⟨_, (div_mul_cancel₀ _ h.e_ne).symm⟩
    have hr4 : r ^ 2 = 4 * Q.montU := by
      apply mul_right_cancel₀ (pow_ne_zero 2 h.e_ne)
      rw [hr, hu, h.u_eq] at hsq
      linear_combination hsq
    have hprime := feVal_halvingUPrime h hu hr
    generalize halvingUPrime s uScaled wPrime = uPrime at hs hprime
    cases hok : (Fe.sqrtExt uPrime).2 with
    | true =>
      rw [hok, if_pos rfl] at hs
      have ht := Fe.sqrtExt_sq ((Fe.sqrtExt_ok_iff _).mp hok)
      rw [← Option.some.inj hs]
      generalize (Fe.sqrtExt uPrime).1 = t at ht
      obtain ⟨v, hv⟩ : ∃ v, feVal t = v * feVal s.e := ⟨_, (div_mul_cancel₀ _ h.e_ne).symm⟩
      refine exists_halvingOf h.x_ne h.e_ne hr4 ?_ hv rfl ?_
      · apply mul_right_cancel₀ (pow_ne_zero 2 h.e_ne)
        rw [← hprime, ← ht, hv]
        ring
      · rw [hv, hr]
        ring
    | false =>
      rw [hok, if_neg Bool.false_ne_true] at hs
      have ht := adjustedRoot_sq hok
      rw [← Option.some.inj hs]
      generalize (if Fe.eq (feSquareNoasm (Fe.sqrtExt uPrime).1) (Fe.neg (feAdd uPrime uPrime)) then
        feMulNoasm (Fe.sqrtExt uPrime).1 sqrtM1 else (Fe.sqrtExt uPrime).1) = t at ht
      -- the other candidate has a square root, and its point the opposite slope
      have hother := Point.mont_candidates h.x_ne hr4
      have hfirst : 2 * Q.montU + 2 * (edD - 1) - Q.montW * r ≠ 0 := by
        intro hzero
        rw [hzero, zero_mul] at hother
        apply mul_ne_zero (pow_ne_zero 4 Fe.two_ne_zero_field) (Complete.ne_zero (d := edD))
        linear_combination hother
      have ht0 : feVal t ≠ 0 := by
        intro hzero
        rw [hzero, hprime, zero_pow (by decide)] at ht
        exact mul_ne_zero Fe.two_ne_zero_field (mul_ne_zero hfirst (pow_ne_zero 2 h.e_ne)) ht.symm
      have he : feVal (feMulNoasm s.e t) ≠ 0 := by
        rw [feVal_feMulNoasm]
        exact mul_ne_zero h.e_ne ht0
      obtain ⟨v, hv⟩ : ∃ v, v * feVal t = -(feVal sqrt2BP0 * feVal s.e) :=
        ⟨_, div_mul_cancel₀ _ ht0⟩
      refine exists_halvingOf (v := v) h.x_ne he ((neg_sq r).trans hr4) ?_ ?_ ?_ ?_
      · apply mul_right_cancel₀ (pow_ne_zero 2 ht0)
        rw [← mul_pow, hv, ht, hprime]
        linear_combination feVal s.e ^ 2 * feVal_sqrt2BP0 - 2 * feVal s.e ^ 2 * hother
      · rw [Fe.feVal_neg, feVal_feMulNoasm, feVal_feMulNoasm, feVal_feSquareNoasm]
        linear_combination -feVal s.e * hv
      · rw [Fe.feVal_neg, neg_sq]
      · rw [feVal_feMulNoasm, feVal_feMulNoasm, feVal_feMulNoasm, feVal_feSquareNoasm, hr]
        linear_combination r * feVal s.e ^ 2 * feVal t * hv

/-! ## The test -/

theorem jacobi_eq_one_iff {kronecker : ℤ → ℤ → ℤ}
    (hkronecker : ∀ (a : ℤ) (b : ℕ), Odd b → kronecker a b = jacobiSym a b) (u : Uint256) :
    jacobi kronecker (value (feFreeze u).words) fieldPrime = 1 ↔ feVal u ≠ 0 ∧
    IsSquare (feVal u) := by
  have hodd : Odd fieldPrime := Nat.odd_iff.mpr Fe.fieldPrime_odd
  have hpos : ¬((fieldPrime : ℤ) ≤ 0) := by
    rw [Int.natCast_nonpos_iff]
    exact fieldPrime_prime.ne_zero
  have hcast : (((value (feFreeze u).words : ℕ) : ℤ) : ZMod fieldPrime) = feVal u := by
    rw [Int.cast_natCast]
    exact feVal_feFreeze u
  rw [jacobi, if_neg hpos, hkronecker _ _ hodd, ← jacobiSym.legendreSym.to_jacobiSym, ← hcast]
  by_cases hzero : (((value (feFreeze u).words : ℕ) : ℤ) : ZMod fieldPrime) = 0
  · rw [(legendreSym.eq_zero_iff fieldPrime _).mpr hzero]
    exact ⟨fun h => absurd h zero_ne_one, fun h => absurd hzero h.1⟩
  · rw [legendreSym.eq_one_iff fieldPrime hzero]
    exact (and_iff_right hzero).symm

/-- The last question of the test is whether the second half is a double. -/
theorem isSquare_u_iff (h : HalvingOf s Q) :
    feVal s.u ≠ 0 ∧ IsSquare (feVal s.u) ↔ IsSquare Q.montU := by
  have hne : feVal s.u ≠ 0 := by
    rw [h.u_eq]
    exact mul_ne_zero (Point.montU_ne_zero h.x_ne) (pow_ne_zero 2 h.e_ne)
  rw [and_iff_right hne, h.u_eq]
  constructor
  · intro hsq
    have hdiv := hsq.div (IsSquare.sq (feVal s.e))
    rwa [mul_div_cancel_right₀ _ (pow_ne_zero 2 h.e_ne)] at hdiv
  · intro hsq
    exact hsq.mul (IsSquare.sq _)

/-- Two halvings and the last question decide whether the point is a multiple of eight. -/
theorem halvings_iff (h : HalvingOf s Q) :
    (∃ s', (halve s >>= halve) = some s' ∧ feVal s'.u ≠ 0 ∧ IsSquare (feVal s'.u)) ↔ ∃ R,
      8 • R = Q := by
  constructor
  · rintro ⟨s₂, hs, hu⟩
    rw [Option.bind_eq_bind, Option.bind_eq_some_iff] at hs
    obtain ⟨s₁, hs₁, hs₂⟩ := hs
    obtain ⟨Q₁, hQ₁, h₁⟩ := halve_halves h hs₁
    obtain ⟨Q₂, hQ₂, h₂⟩ := halve_halves h₁ hs₂
    obtain ⟨R, hR⟩ := (Point.isSquare_montU_iff h₂.x_ne).mp ((isSquare_u_iff h₂).mp hu)
    refine ⟨R, ?_⟩
    have height : 8 • R = (R + R + (R + R)) + (R + R + (R + R)) := by abel
    rw [height]
    show ((R.add R).add (R.add R)).add ((R.add R).add (R.add R)) = Q
    rw [hR, hQ₂, hQ₁]
  · rintro ⟨R, hR⟩
    have hsome : ∀ {t : HalvingState} {P : Point edD}, HalvingOf t P → IsSquare P.montU → ∃ t',
        halve t = some t' := by
      intro t P ht hsq
      cases hres : halve t with
      | none => exact absurd hsq ((halve_eq_none_iff ht).mp hres)
      | some t' => exact ⟨t', rfl⟩
    have hmul : ∀ (m n : ℕ) (A : Point edD), m = n → m • A = n • A := fun m n A hmn => hmn ▸ rfl
    have hQR : Q = (2 * 4) • R := hR.symm.trans (hmul 8 (2 * 4) R rfl)
    obtain ⟨s₁, hs₁⟩ := hsome h (Point.isSquare_montU_nsmul h.x_ne hQR)
    obtain ⟨Q₁, hQ₁, h₁⟩ := halve_halves h hs₁
    obtain ⟨R₁, hR₁⟩ := Point.half_of_multiple coeff_isSquare dvd_rfl (hQ₁.trans hQR)
    have hQR₁ : Q₁ = (2 * 2) • R₁ := hR₁.trans (hmul 4 (2 * 2) R₁ rfl)
    obtain ⟨s₂, hs₂⟩ := hsome h₁ (Point.isSquare_montU_nsmul h₁.x_ne hQR₁)
    obtain ⟨Q₂, hQ₂, h₂⟩ := halve_halves h₁ hs₂
    obtain ⟨R₂, hR₂⟩ := Point.half_of_multiple coeff_isSquare (by decide) (hQ₂.trans hQR₁)
    have hlast : IsSquare Q₂.montU :=
      Point.isSquare_montU_nsmul h₂.x_ne (hR₂.trans (hmul 2 (2 * 1) R₂ rfl))
    refine ⟨s₂, ?_, (isSquare_u_iff h₂).mpr hlast⟩
    rw [hs₁, Option.bind_eq_bind, Option.bind_some, hs₂]

/-- A point of the subgroup whose order divides eight is the identity. -/
theorem eq_zero_of_nsmul (hq : curveOrder • Q = 0) (h8 : 8 • Q = 0) : Q = 0 := by
  have hcop : Nat.gcd curveOrder 8 = 1 := by norm_num [curveOrder]
  have hdvd := Nat.dvd_gcd (addOrderOf_dvd_of_nsmul_eq_zero hq) (addOrderOf_dvd_of_nsmul_eq_zero h8)
  rw [hcop, Nat.dvd_one] at hdvd
  exact AddMonoid.addOrderOf_eq_one_iff.mp hdvd

/-- What the test excludes before the loop are points whose order divides eight. -/
theorem excluded_iff {P : ProjectivePoint Uint256} (h : Represents feVal P Q) :
    (Fe.isZero P.x || Fe.isZero P.y || Fe.eq (feMulNoasm P.y sqrtM1) P.x ||
      Fe.eq (feMulNoasm P.y sqrtM1) (Fe.neg P.x)) = true ↔
      Q.x = 0 ∨ Q.y = 0 ∨ Q.x ^ 2 = -Q.y ^ 2 := by
  obtain ⟨hz, hx, hy⟩ := h
  have hroots : Q.x ^ 2 = -Q.y ^ 2 ↔ Q.y * feVal sqrtM1 = Q.x ∨ Q.y * feVal sqrtM1 = -Q.x := by
    rw [← sq_eq_sq_iff_eq_or_eq_neg, mul_pow, feVal_sqrtM1, mul_neg_one]
    exact eq_comm
  have hplus : feVal (feMulNoasm P.y sqrtM1) = feVal P.x ↔ Q.y * feVal sqrtM1 = Q.x := by
    rw [feVal_feMulNoasm, hx, hy, mul_right_comm]
    exact mul_left_inj' hz
  have hminus : feVal (feMulNoasm P.y sqrtM1) = feVal (Fe.neg P.x) ↔ Q.y * feVal sqrtM1 = -Q.x := by
    rw [feVal_feMulNoasm, Fe.feVal_neg, hx, hy, mul_right_comm, ← neg_mul]
    exact mul_left_inj' hz
  simp only [Bool.or_eq_true, Fe.isZero_iff, Fe.eq_iff, hplus, hminus, hroots, or_assoc]
  rw [hx, hy, mul_eq_zero, mul_eq_zero, or_iff_left hz, or_iff_left hz]

/-- The subgroup test says whether the multiple of a point by the order of the generator is the
identity, and it rejects what is not on the curve. -/
theorem isInSubgroup_exact {kronecker : ℤ → ℤ → ℤ}
    (hkronecker : ∀ (a : ℤ) (b : ℕ), Odd b → kronecker a b = jacobiSym a b) :
    curveOrder.Prime ∧
    (∀ (P : ProjectivePoint Uint256) (Q : Point edD), Represents feVal P Q →
      (isInSubgroup kronecker P = true ↔ curveOrder • Q = 0)) ∧
    (∀ P : ProjectivePoint Uint256, feVal P.z ≠ 0 → P.isInfinity feOps = false →
      P.isOnCurve feOps = false →
      isInSubgroup kronecker P = false) := by
  refine ⟨curveOrder_prime, ?_, ?_⟩
  · intro P Q hP
    have hcurve : P.isOnCurve feOps = true := (isOnCurve_iff feOps_lawful hP.1).mpr ⟨Q, hP⟩
    rw [isInSubgroup]
    by_cases hinf : P.isInfinity feOps = true
    · rw [if_pos hinf, (isInfinity_iff feOps_lawful hP).mp hinf]
      exact ⟨fun _ => nsmul_zero _, fun _ => rfl⟩
    · have hne : Q ≠ 0 := fun h => hinf ((isInfinity_iff feOps_lawful hP).mpr h)
      rw [if_neg hinf, hcurve, Bool.not_true, if_neg Bool.false_ne_true]
      dsimp only
      split_ifs with hexcluded
      · have h8 := Point.eight_nsmul_eq_zero ((excluded_iff hP).mp hexcluded)
        exact ⟨False.elim, fun hq => absurd (eq_zero_of_nsmul hq h8) hne⟩
      · have hx : Q.x ≠ 0 := fun h => hexcluded ((excluded_iff hP).mpr (Or.inl h))
        rw [order_nsmul_iff, ← halvings_iff (halvingOf_start hP hx)]
        cases halve (halvingStart P) >>= halve with
        | none =>
          constructor
          · intro h
            cases h
          · rintro ⟨s, hs, -⟩
            cases hs
        | some s =>
          show decide _ = true ↔ _
          rw [decide_eq_true_iff, jacobi_eq_one_iff hkronecker]
          constructor
          · intro h
            exact ⟨s, rfl, h⟩
          · rintro ⟨s', hs, h⟩
            rwa [Option.some.inj hs]
  · intro P _ hinf hcurve
    rw [isInSubgroup, hinf, hcurve]
    rfl

theorem isInSubgroup_exact_sample :
    isInSubgroup (fun a b => jacobiSym a b.toNat) generatorPoint = true := by
  obtain ⟨G, hG, -, hq⟩ := exists_generator
  exact ((isInSubgroup_exact fun _ _ _ => rfl).2.1 _ G hG).mpr hq

end CbMpc
