import CbMpc.EdwardsHalving
import CbMpc.PointEncoding

/-!
# The group of Ed25519

The curve has eight times as many points as the generator has multiples. The order of the generator
is prime, and computing that multiple of it gives the identity. A curve over this field has at most
two points for each `y`, so no other multiple of these orders is possible.
-/
namespace CbMpc

open WordArray Uint256 LucasTest Edwards

/-- `curve_t::order`. -/
def curveOrder : ℕ := 0x1000000000000000000000000000000014DEF9DEA2F79CD65812631A5CF5D3ED

def orderFactors : List ℕ :=
  [2, 3, 5, 7, 11, 13, 23, 41, 43, 73, 269, 307, 1361, 2551, 2851, 3797, 5879, 17231, 22111, 30703,
    34123, 82163]

def orderCertificates : List Certificate :=
  [⟨409477, 2, [2, 2, 3, 34123]⟩,
    ⟨14741173, 2, [2, 2, 3, 3, 409477]⟩,
    ⟨58964693, 2, [2, 2, 14741173]⟩,
    ⟨132667, 5, [2, 3, 22111]⟩,
    ⟨137849, 3, [2, 2, 2, 17231]⟩,
    ⟨3044861653679985063343, 5, [2, 3, 11, 30703, 82163, 132667, 137849]⟩,
    ⟨198211423230930754013084525763697, 5, [2, 2, 2, 2, 3, 23, 58964693, 3044861653679985063343]⟩,
    ⟨292386187, 2, [2, 3, 3, 3, 3, 307, 5879]⟩,
    ⟨213441916511, 13, [2, 5, 73, 292386187]⟩,
    ⟨531581, 2, [2, 2, 5, 7, 3797]⟩,
    ⟨1224481, 13, [2, 2, 2, 2, 2, 3, 5, 2551]⟩,
    ⟨1257559732178653, 2, [2, 2, 3, 7, 23, 531581, 1224481]⟩,
    ⟨4434155615661930479, 17, [2, 41, 43, 1257559732178653]⟩,
    ⟨172054593956031949258510691, 2, [2, 5, 1361, 2851, 4434155615661930479]⟩,
    ⟨19757330305831588566944191468367130476339, 2,
    [2, 269, 213441916511, 172054593956031949258510691]⟩,
    ⟨276602624281642239937218680557139826668747, 2,
    [2, 7, 19757330305831588566944191468367130476339]⟩,
    ⟨curveOrder, 2, [2, 2, 3, 11, 198211423230930754013084525763697,
    276602624281642239937218680557139826668747]⟩]

theorem orderFactors_prime : ∀ r ∈ orderFactors, r.Prime := by
  simp only [orderFactors, List.forall_mem_cons]
  norm_num

theorem curveOrder_prime : curveOrder.Prime := by
  have hchecks : checks 256 orderFactors orderCertificates = true := by decide +kernel
  have hmem : curveOrder ∈ orderCertificates.map Certificate.p := by simp [orderCertificates]
  obtain ⟨c, hc, hp⟩ := List.mem_map.mp hmem
  exact hp ▸ prime_of_checks orderFactors_prime hchecks c hc

/-! ## Points over numbers -/

/-- The formulas over numbers modulo the prime, which the kernel computes with. -/
def natOps : FieldOps ℕ where
  zero := 0
  one := 1
  d := curveD
  add a b := (a + b) % fieldPrime
  sub a b := (a + (fieldPrime - b % fieldPrime)) % fieldPrime
  mul a b := a * b % fieldPrime
  sqr a := a * a % fieldPrime
  inv a := powMod fieldPrime 256 a (fieldPrime - 2)
  isZero a := decide (a % fieldPrime = 0)
  eq a b := decide (a % fieldPrime = b % fieldPrime)

theorem natOps_lawful : natOps.Lawful (Nat.cast : ℕ → ZMod fieldPrime) edD where
  zero := Nat.cast_zero
  one := Nat.cast_one
  d_eq := rfl
  add a b := (ZMod.natCast_mod _ _).trans (Nat.cast_add a b)
  sub a b := by
    have hlt : b % fieldPrime < fieldPrime := Nat.mod_lt _ fieldPrime_prime.pos
    show (((a + (fieldPrime - b % fieldPrime)) % fieldPrime : ℕ) : ZMod fieldPrime) = a - b
    rw [ZMod.natCast_mod, Nat.cast_add, Nat.cast_sub hlt.le, ZMod.natCast_self, ZMod.natCast_mod]
    ring
  mul a b := (ZMod.natCast_mod _ _).trans (Nat.cast_mul a b)
  sqr a := (ZMod.natCast_mod _ _).trans ((Nat.cast_mul a a).trans (sq _).symm)
  inv a := by
    show ((powMod fieldPrime 256 a (fieldPrime - 2) : ℕ) : ZMod fieldPrime) =
      (a : ZMod fieldPrime)⁻¹
    rw [cast_powMod fieldPrime (by norm_num [fieldPrime]), Fe.pow_sub_two_eq_inv]
  isZero_iff a := by
    show decide (a % fieldPrime = 0) = true ↔ _
    rw [decide_eq_true_iff, ZMod.natCast_eq_zero_iff, Nat.dvd_iff_mod_eq_zero]
  eq_iff a b := by
    show decide (a % fieldPrime = b % fieldPrime) = true ↔ _
    rw [decide_eq_true_iff, ZMod.natCast_eq_natCast_iff']

/-- A multiple of a point by doubling and adding, over the low bits of the number. -/
def nsmulCore {FE : Type} (F : FieldOps FE) (P : ProjectivePoint FE) : ℕ → ℕ → ProjectivePoint FE
  | 0, _ => ProjectivePoint.infinity F
  | bits + 1, n =>
    if n % 2 = 1 then addCore F (dblCore F (nsmulCore F P bits (n / 2))) P else
      dblCore F (nsmulCore F P bits (n / 2))

theorem nsmulCore_represents {FE K : Type} [Field K] [Finite K] {d : K} [Complete d]
    {F : FieldOps FE} {val : FE → K} (hF : F.Lawful val d) {P : ProjectivePoint FE} {Q : Point d}
    (hP : Represents val P Q) {bits n : ℕ} (hn : n < 2 ^ bits) :
    Represents val (nsmulCore F P bits n) (n • Q) := by
  induction bits generalizing n with
  | zero =>
    obtain rfl : n = 0 := by omega
    rw [zero_nsmul]
    exact represents_infinity hF
  | succ bits ih =>
    have hhalf : n / 2 < 2 ^ bits := by
      rw [pow_succ] at hn
      omega
    have hdbl : Represents val (dblCore F (nsmulCore F P bits (n / 2)))
        ((n / 2) • Q + (n / 2) • Q) :=
      dblCore_represents hF (ih hhalf)
    rw [← two_nsmul, ← mul_nsmul'] at hdbl
    have hdiv := Nat.div_add_mod n 2
    rw [nsmulCore]
    split_ifs with hodd
    · have hadd := addCore_represents hF hdbl hP
      have hsum : (2 * (n / 2)) • Q + Q = n • Q := by rw [← succ_nsmul, ← hodd, hdiv]
      exact hsum ▸ hadd
    · have heven : 2 * (n / 2) = n := by omega
      rwa [heven] at hdbl

/-! ## The generator -/

def generatorX : ℕ := 0x216936D3CD6E53FEC0A4E231FDD6DC5C692CC7609525A7B2C9562D608F25D51A

def generatorY : ℕ := 0x6666666666666666666666666666666666666666666666666666666666666658

/-- `curve_t::generator_point`. -/
def generatorPoint : ProjectivePoint Uint256 := ⟨fromNat generatorX, fromNat generatorY, Fe.one⟩

theorem represents_of_affine {x y : ℕ} (h : (ProjectivePoint.mk x y 1).isOnCurve natOps = true) :
    ∃ Q : Point edD, Q.x = x ∧ Q.y = y ∧
    Represents (Nat.cast : ℕ → ZMod fieldPrime) ⟨x, y, 1⟩ Q := by
  have hone : ((1 : ℕ) : ZMod fieldPrime) ≠ 0 := by
    rw [Nat.cast_one]
    exact one_ne_zero
  obtain ⟨Q, hQ⟩ := (isOnCurve_iff natOps_lawful hone).mp h
  have hQ' := hQ
  obtain ⟨-, hx, hy⟩ := hQ'
  dsimp only at hx hy
  rw [Nat.cast_one, mul_one] at hx hy
  exact ⟨Q, hx.symm, hy.symm, hQ⟩

/-- The generator is a point of the curve whose multiple by the order is the identity. -/
theorem exists_generator : ∃ G : Point edD, Represents feVal generatorPoint G ∧ G ≠ 0 ∧
    curveOrder • G = 0 := by
  have hcurve : (ProjectivePoint.mk generatorX generatorY 1).isOnCurve natOps =
    true := by decide +kernel
  obtain ⟨G, hx, hy, hG⟩ := represents_of_affine hcurve
  have hmul := nsmulCore_represents natOps_lawful hG
    (by norm_num [curveOrder] : curveOrder < 2 ^ 253)
  have hinf : (nsmulCore natOps ⟨generatorX, generatorY, 1⟩ 253 curveOrder).isInfinity natOps =
    true := by decide +kernel
  have hone : ((ProjectivePoint.mk generatorX generatorY 1).isInfinity natOps) = false := by decide
  refine ⟨G, ⟨?_, ?_, ?_⟩, ?_, (isInfinity_iff natOps_lawful hmul).mp hinf⟩
  · show feVal Fe.one ≠ 0
    rw [Fe.feVal_one]
    exact one_ne_zero
  · show feVal (fromNat generatorX) = G.x * feVal Fe.one
    rw [Fe.feVal_one, mul_one, hx, feVal_fromNat (by decide)]
  · show feVal (fromNat generatorY) = G.y * feVal Fe.one
    rw [Fe.feVal_one, mul_one, hy, feVal_fromNat (by decide)]
  · intro hzero
    rw [(isInfinity_iff natOps_lawful hG).mpr hzero] at hone
    cases hone

/-! ## The number of points -/

/-- A point is determined by `y` and the parity of `x`. -/
theorem y_parity_injective :
    Function.Injective fun Q : Point edD => (Q.y, decide (Q.x.val % 2 = 1)) := by
  intro Q R h
  obtain ⟨hy, hpar⟩ := Prod.mk.inj h
  apply encoded_injective
  have hmod : Q.x.val % 2 = R.x.val % 2 := by
    have hiff := decide_eq_decide.mp hpar
    omega
  rw [encoded, encoded, hy, hmod]

instance finitePoint : Finite (Point edD) := Finite.of_injective _ y_parity_injective

theorem card_lt : Nat.card (Point edD) < 16 * curveOrder := by
  have hcard := Nat.card_le_card_of_injective _ y_parity_injective
  have hbool : Nat.card Bool = 2 := by rw [Nat.card_eq_fintype_card, Fintype.card_bool]
  rw [Nat.card_prod, Nat.card_zmod, hbool] at hcard
  have hlt : fieldPrime * 2 < 16 * curveOrder := by norm_num [fieldPrime, curveOrder]
  exact hcard.trans_lt hlt

theorem coeff_isSquare : IsSquare (-1 - edD) := by
  have hcast : -1 - edD = ((fieldPrime - 1 - curveD : ℕ) : ZMod fieldPrime) := by
    rw [edD, Nat.cast_sub (by norm_num [fieldPrime, curveD]),
      Nat.cast_sub (by norm_num [fieldPrime]), ZMod.natCast_self, Nat.cast_one, zero_sub]
  have hjacobi : jacobiSym ((fieldPrime - 1 - curveD : ℕ) : ℤ) fieldPrime = 1 := by
    norm_num [curveD, fieldPrime]
  rw [← jacobiSym.legendreSym.to_jacobiSym, legendreSym.eq_one_iff', ← hcast] at hjacobi
  · exact hjacobi
  · rw [← hcast]
    exact Complete.coeff_ne_zero

/-- Eight times the order kills the curve. -/
theorem cofactor_nsmul (R : Point edD) : (8 * curveOrder) • R = 0 := by
  obtain ⟨G, -, hG0, hG⟩ := exists_generator
  obtain ⟨T, hT⟩ := Point.exists_four_nsmul_eq_two coeff_isSquare
  have htwo : (Point.two : Point edD) ≠ 0 := by
    intro h
    have hy : (-1 : ZMod fieldPrime) = 1 := congrArg Point.y h
    exact Fe.two_ne_zero_field (by linear_combination -hy)
  have height : 8 • T = 0 := by
    have hsplit : 8 • T = 4 • T + 4 • T := by abel
    rw [hsplit, hT]
    exact Point.two_add_two
  exact eight_mul_nsmul_eq_zero curveOrder_prime (by norm_num [curveOrder]) hG hG0 height
    (hT.symm ▸ htwo) card_lt R

/-- The multiples of the generator's order are the multiples of the cofactor. -/
theorem order_nsmul_iff (P : Point edD) : curveOrder • P = 0 ↔ ∃ R, 8 • R = P := by
  apply nsmul_eq_zero_iff_exists_nsmul
  · norm_num [curveOrder]
  · exact curveOrder_prime.one_lt
  · exact cofactor_nsmul

end CbMpc
