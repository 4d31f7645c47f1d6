import CbMpc.ModArith

/-!
# Curve groups of prime order

The points that pass `ecurve_t::check` form a vector space over the scalar
field, and `infinity` is its zero. Scalar multiplication of the generator goes
through a reduction that is not total: on two of the three curve families it
asserts on negative integers and on integers that are too long.
-/
namespace CbMpc

open Interpolation

/-- The number of 64-bit words of a `BIGNUM`, its `top`. -/
def bnTop (x : ℤ) : ℕ := (x.natAbs.size + 63) / 64

/-- `mod_t::MAX_MODULUS_BITS`. -/
def maxModulusBits : ℕ := 8192

/-- `mod_t::_mod` on an operand of at most twice the modulus' words. Inside a
`vartime_scope_t` it is `BN_div`, whose remainder has the sign of its operand. -/
def modWords (vartime : Bool) (m : ℕ) (x : ℤ) : Outcome ℤ :=
  if vartime then .ok (x.tmod m)
  else do
    cbAssert (decide (0 ≤ x))
    .ok (x % m)

/-- `mod_t::_mod`: a longer operand is first reduced modulo the square, whose
`init` asserts a bound on its bits. A modulus above 1 passes that bound within
fourteen squarings. -/
def modReduceAux (vartime : Bool) : ℕ → ℕ → ℤ → Outcome ℤ
  | 0, _, _ => throwing .assertionFailed
  | fuel + 1, m, x =>
    if bnTop x ≤ 2 * bnTop m then modWords vartime m x
    else do
      cbAssert (decide ((m * m).size ≤ maxModulusBits))
      let temp ← modReduceAux vartime fuel (m * m) x
      modWords vartime m temp

/-- `mod_t::mod` outside a `vartime_scope_t`. -/
def modReduce (q : ℕ) (x : ℤ) : Outcome ℤ := modReduceAux false 14 q x

/-- `mod_t::mod` inside a `vartime_scope_t`. -/
def modReduceVartime (q : ℕ) (x : ℤ) : Outcome ℤ := modReduceAux true 14 q x

/-- `ecurve_type_e`. -/
inductive CurveType where
  | ossl | bitcoin | ed25519
  deriving DecidableEq, Repr

/-- A curve: its name, its family and a generator of the group of order `q`. -/
structure Curve (q : ℕ) (E : Type) [AddCommGroup E] where
  name : List (Fin 256)
  type : CurveType
  generator : E
  generator_ne_zero : generator ≠ 0

/-- A point as the codec yields it: `infinity` does not deserialize, and a point of
another curve does. -/
inductive WirePoint (E : Type) where
  | on : E → WirePoint E
  | foreign : ℕ → WirePoint E
  deriving DecidableEq, Encodable

/-- The point of a wire point that has passed `curve.check`. -/
def WirePoint.point {E : Type} [Zero E] : WirePoint E → E
  | .on P => P
  | .foreign _ => 0

variable {q : ℕ} {E : Type} [AddCommGroup E] [Module (ZMod q) E]

/-- `ecurve_t::mul_to_generator` outside a `vartime_scope_t`. -/
def Curve.mulToGenerator (curve : Curve q E) (x : ℤ) : Outcome E :=
  match curve.type with
  | .ossl => .ok ((x : ZMod q) • curve.generator)
  | .bitcoin | .ed25519 => do
    let r ← modReduce q x
    .ok ((r : ZMod q) • curve.generator)

/-- `ecurve_t::mul_to_generator` inside a `vartime_scope_t`. For a negative integer the curve
`bitcoin` multiplies with the magnitude of the remainder, and Ed25519 asserts. -/
def Curve.mulToGeneratorVartime (curve : Curve q E) (x : ℤ) : Outcome E :=
  match curve.type with
  | .ossl => .ok ((x : ZMod q) • curve.generator)
  | .bitcoin => do
    let r ← modReduceVartime q x
    .ok ((r.natAbs : ZMod q) • curve.generator)
  | .ed25519 => do
    let r ← modReduceVartime q x
    cbAssert (decide (0 ≤ r))
    .ok ((r : ZMod q) • curve.generator)

/-- `ecc_point_t::mul`, inside and outside a `vartime_scope_t`. Ed25519 asserts that the scalar
is reduced. -/
def Curve.mul (curve : Curve q E) (x : ℤ) (P : E) : Outcome E :=
  match curve.type with
  | .ossl => .ok ((x : ZMod q) • P)
  | .bitcoin => do
    let r ← modReduce q x
    .ok ((r : ZMod q) • P)
  | .ed25519 => do
    cbAssert (isInRange q x)
    .ok ((x : ZMod q) • P)

/-- `ecurve_t::check`, with and without an `allow_ecc_infinity_t`. -/
def curveCheck [DecidableEq E] (allowInfinity : Bool) (P : WirePoint E) : Outcome E :=
  match P with
  | .foreign _ => fail .crypto
  | .on P => if !allowInfinity && decide (P = 0) then fail .crypto else .ok P

/-- `lagrange_partial_interpolate_exponent` on points of one curve. -/
def lagrangePartialInterpolateExponent (q : ℕ) [Module (ZMod q) E] (x : ℤ) (shares : List E)
    (pidsForShares allPids : List ℤ) : Outcome E := do
  cbAssert (decide (shares.length = pidsForShares.length))
  cbAssert (decide (shares.length ≤ allPids.length))
  cbAssert (decide (0 < shares.length))
  (pidsForShares.zip shares).foldlM (fun R p => do
    let lambda ← lagrangeBasis q x allPids p.1
    .ok (R + (lambda : ZMod q) • p.2)) 0

def lagrangeInterpolateExponent (q : ℕ) [Module (ZMod q) E] (x : ℤ) (shares : List E)
    (pids : List ℤ) : Outcome E := do
  cbAssert (decide (shares.length = pids.length))
  lagrangePartialInterpolateExponent q x shares pids pids

/-- What the reduction returns is the remainder, on every path. -/
theorem modReduceAux_ok {fuel m : ℕ} {x r : ℤ} (h : modReduceAux false fuel m x = .ok r) :
    r = x % m := by
  have hwords : ∀ {m : ℕ} {x r : ℤ}, modWords false m x = .ok r → r = x % m := by
    intro m x r h
    rw [modWords, if_neg Bool.false_ne_true] at h
    obtain ⟨-, h⟩ := cbAssert_bind_ok_iff.mp h
    exact (Except.ok.inj h).symm
  induction fuel generalizing m x r with
  | zero => cases h
  | succ fuel ih =>
    rw [modReduceAux] at h
    split at h
    · exact hwords h
    · obtain ⟨-, h⟩ := cbAssert_bind_ok_iff.mp h
      obtain ⟨temp, htemp, h⟩ := bind_ok_iff.mp h
      rw [hwords h, ih htemp]
      exact Int.emod_emod_of_dvd x ⟨m, by push_cast; rfl⟩

theorem modReduce_ok {m : ℕ} {x r : ℤ} (h : modReduce m x = .ok r) : r = x % m := modReduceAux_ok h

theorem modReduce_cast {q : ℕ} {x r : ℤ} (h : modReduce q x = .ok r) : (r : ZMod q) = x := by
  rw [modReduce_ok h, cast_emod]

theorem modReduce_of_isInRange {q : ℕ} {x : ℤ} (h : isInRange q x = true) :
    modReduce q x = .ok x := by
  rw [isInRange_iff] at h
  have hle : bnTop x ≤ 2 * bnTop q := by
    have hs : x.natAbs.size ≤ (q : ℤ).natAbs.size := Nat.size_le_size (by omega)
    have hd := Nat.div_le_div_right (c := 64) (Nat.add_le_add_right hs 63)
    simp only [bnTop]
    omega
  simp [modReduce, modReduceAux, hle, modWords, h.1, Int.emod_eq_of_lt h.1 h.2]

theorem modWords_eq {m : ℕ} {x : ℤ} (hx : 0 ≤ x) : modWords false m x = .ok (x % m) := by
  simp [modWords, hx]

/-- Both reductions agree on the integers that are not negative. -/
theorem modReduceAux_vartime {fuel m : ℕ} {x : ℤ} (hx : 0 ≤ x) :
    modReduceAux true fuel m x = modReduceAux false fuel m x := by
  have hwords : ∀ {m : ℕ} {x : ℤ}, 0 ≤ x → modWords true m x = modWords false m x := by
    intro m x hx
    rw [modWords_eq hx, modWords, if_pos rfl, Int.tmod_eq_emod_of_nonneg hx]
  induction fuel generalizing m x with
  | zero => rfl
  | succ fuel ih =>
    rw [modReduceAux, modReduceAux, hwords hx, ih hx]
    cases htemp : modReduceAux false fuel (m * m) x with
    | error err => rfl
    | ok temp =>
      have hnonneg : 0 ≤ temp := by
        rw [modReduceAux_ok htemp]
        obtain h | h := eq_or_ne ((m * m : ℕ) : ℤ) 0
        · rw [h, Int.emod_zero]
          exact hx
        · exact Int.emod_nonneg x h
      rw [ok_bind, ok_bind, hwords hnonneg]

theorem size_mul_self_le {m k : ℕ} (h : m.size ≤ k) : (m * m).size ≤ 2 * k := by
  rw [Nat.size_le] at h ⊢
  rw [two_mul, pow_add]
  exact mul_lt_mul'' h h (Nat.zero_le m) (Nat.zero_le m)

/-- The squarings reach an operand of 64 words before the bound on the modulus does. -/
theorem modReduceAux_eq_emod (fuel j : ℕ) {m : ℕ} {x : ℤ} (hx : 0 ≤ x)
    (htop : bnTop x ≤ 64) (hm : 2 ^ 2 ^ j ≤ m) (hj : 12 ≤ j + fuel) :
    modReduceAux false (fuel + 1) m x = .ok (x % m) := by
  induction fuel generalizing j m with
  | zero =>
    have hsize : 2 ^ j < m.size := Nat.lt_size.mpr hm
    have hpow : 2 ^ 12 ≤ 2 ^ j := Nat.pow_le_pow_right (by norm_num) (by omega)
    have hle : bnTop x ≤ 2 * bnTop m := by
      simp only [bnTop, Int.natAbs_natCast] at *
      omega
    rw [modReduceAux, if_pos hle, modWords_eq hx]
  | succ fuel ih =>
    rw [modReduceAux]
    split
    · exact modWords_eq hx
    · rename_i hle
      have hsize : m.size ≤ 1984 := by
        simp only [bnTop, Int.natAbs_natCast] at *
        omega
      have hsq : (m * m).size ≤ maxModulusBits := le_trans (size_mul_self_le hsize) (by decide)
      have hbig : 2 ^ 2 ^ (j + 1) ≤ m * m := by
        rw [pow_succ, pow_mul, sq]
        exact Nat.mul_le_mul hm hm
      rw [ih (j + 1) hbig (by omega)]
      have hnonneg : 0 ≤ x % ((m * m : ℕ) : ℤ) := Int.emod_nonneg x (by
        have : 0 < 2 ^ 2 ^ (j + 1) := by positivity
        omega)
      simp only [hsq, decide_true, cbAssert_true, ok_bind]
      rw [modWords_eq hnonneg, Int.emod_emod_of_dvd]
      exact ⟨m, by push_cast; ring⟩

theorem modReduce_eq_emod {m : ℕ} (hm : 2 ≤ m) {x : ℤ} (hx : 0 ≤ x) (hsize : x < 2 ^ 4096) :
    modReduce m x = .ok (x % m) := by
  refine modReduceAux_eq_emod 13 0 hx ?_ (by simpa using hm) (by norm_num)
  have hnat : x.natAbs < 2 ^ 4096 := by
    zify
    rwa [abs_of_nonneg hx]
  have := Nat.size_le.mpr hnat
  simp only [bnTop]
  omega

variable [hq : Fact q.Prime]

theorem mulToGenerator_of_isInRange (curve : Curve q E) {x : ℤ} (h : isInRange q x = true) :
    curve.mulToGenerator x = .ok ((x : ZMod q) • curve.generator) := by
  cases ht : curve.type <;> simp [Curve.mulToGenerator, ht, modReduce_of_isInRange h]

theorem mulToGenerator_of_lt (curve : Curve q E) {x : ℤ} (h0 : 0 ≤ x) (hx : x < 2 ^ 4096) :
    curve.mulToGenerator x = .ok ((x : ZMod q) • curve.generator) := by
  have hred := modReduce_eq_emod hq.out.two_le h0 hx
  cases ht : curve.type <;> simp [Curve.mulToGenerator, ht, hred]

@[simp] theorem mulToGenerator_residue (curve : Curve q E) (z : ZMod q) :
    curve.mulToGenerator (residue z) = .ok (z • curve.generator) := by
  simp [mulToGenerator_of_isInRange]

theorem mul_of_isInRange (curve : Curve q E) {x : ℤ} (h : isInRange q x = true) (P : E) :
    curve.mul x P = .ok ((x : ZMod q) • P) := by
  cases ht : curve.type <;> simp [Curve.mul, ht, modReduce_of_isInRange h, h]

@[simp] theorem mul_residue (curve : Curve q E) (z : ZMod q) (P : E) :
    curve.mul (residue z) P = .ok (z • P) := by
  simp [mul_of_isInRange]

/-- Whatever integer is multiplied, only its residue class shows in the point. -/
theorem mulToGenerator_ok (curve : Curve q E) {x : ℤ} {P : E} (h : curve.mulToGenerator x = .ok P) :
    P = (x : ZMod q) • curve.generator := by
  cases ht : curve.type with
  | ossl =>
    simp only [Curve.mulToGenerator, ht, Except.ok.injEq] at h
    exact h.symm
  | bitcoin =>
    simp only [Curve.mulToGenerator, ht] at h
    obtain ⟨r, hr, hP⟩ := bind_ok_iff.mp h
    cases hP
    rw [modReduce_cast hr]
  | ed25519 =>
    simp only [Curve.mulToGenerator, ht] at h
    obtain ⟨r, hr, hP⟩ := bind_ok_iff.mp h
    cases hP
    rw [modReduce_cast hr]

/-- Inside a `vartime_scope_t` the point is the same for every integer that is not negative. -/
theorem mulToGeneratorVartime_of_nonneg (curve : Curve q E) {x : ℤ} (h0 : 0 ≤ x) :
    curve.mulToGeneratorVartime x = curve.mulToGenerator x := by
  have hvartime : modReduceVartime q x = modReduce q x := modReduceAux_vartime h0
  have hnonneg {r : ℤ} (hr : modReduce q x = .ok r) : 0 ≤ r := by
    rw [modReduce_ok hr]
    exact Int.emod_nonneg x (by exact_mod_cast hq.out.ne_zero)
  cases ht : curve.type with
  | ossl => simp only [Curve.mulToGeneratorVartime, Curve.mulToGenerator, ht]
  | bitcoin =>
    simp only [Curve.mulToGeneratorVartime, Curve.mulToGenerator, ht, hvartime]
    cases hr : modReduce q x with
    | error err => rfl
    | ok r =>
      have hcast : ((r.natAbs : ℕ) : ZMod q) = (r : ZMod q) := by
        rw [← Int.cast_natCast, Int.natAbs_of_nonneg (hnonneg hr)]
      rw [ok_bind, ok_bind, hcast]
  | ed25519 =>
    simp only [Curve.mulToGeneratorVartime, Curve.mulToGenerator, ht, hvartime]
    cases hr : modReduce q x with
    | error err => rfl
    | ok r => rw [ok_bind, ok_bind, decide_eq_true (hnonneg hr), cbAssert_true, ok_bind]

theorem mul_ok (curve : Curve q E) {x : ℤ} {P R : E} (h : curve.mul x P = .ok R) :
    R = (x : ZMod q) • P := by
  cases ht : curve.type with
  | ossl =>
    simp only [Curve.mul, ht, Except.ok.injEq] at h
    exact h.symm
  | bitcoin =>
    simp only [Curve.mul, ht] at h
    obtain ⟨r, hr, hR⟩ := bind_ok_iff.mp h
    cases hR
    rw [modReduce_cast hr]
  | ed25519 =>
    simp only [Curve.mul, ht, cbAssert_bind_ok_iff] at h
    exact (Except.ok.inj h.2).symm

theorem smul_generator_injective (curve : Curve q E) {a b : ZMod q}
    (h : a • curve.generator = b • curve.generator) : a = b :=
  smul_left_injective (ZMod q) curve.generator_ne_zero h

theorem smul_generator_eq_zero (curve : Curve q E) {a : ZMod q} :
    a • curve.generator = 0 ↔ a = 0 := by
  simp [curve.generator_ne_zero]

theorem curveCheck_smul_generator [DecidableEq E] (curve : Curve q E) (allowInfinity : Bool)
    {w : ZMod q} (hw : w ≠ 0) :
    curveCheck allowInfinity (.on (w • curve.generator)) = .ok (w • curve.generator) := by
  have hne : w • curve.generator ≠ 0 := fun h => hw ((smul_generator_eq_zero curve).mp h)
  simp [curveCheck, hne]

theorem curveCheck_bind_ok_iff [DecidableEq E] {α : Type} {P : E} {f : E → Outcome α} {a : α} :
    (curveCheck false (.on P) >>= f) = .ok a ↔ P ≠ 0 ∧ f P = .ok a := by
  by_cases h : P = 0 <;> simp [curveCheck, h, fail]

theorem eq_of_curveCheck_on [DecidableEq E] {allowInfinity : Bool} {P R : E}
    (h : curveCheck allowInfinity (.on P) = .ok R) :
    R = P := by
  simp only [curveCheck] at h
  split at h
  · simp [fail] at h
  · exact (Except.ok.inj h).symm

theorem lagrangePartialInterpolateExponent_eq (x : ℤ) (allPids : List ℤ)
    (hpos : ∀ p ∈ allPids, 0 < p) (hinj : ∀ p ∈ allPids, ∀ r ∈ allPids, (p : ZMod q) = r → p = r)
    (pts : List (ℤ × E)) (hmem : ∀ p ∈ pts, p.1 ∈ allPids) (hlen : pts.length ≤ allPids.length)
    (hne : 0 < pts.length) :
    lagrangePartialInterpolateExponent q x (pts.map Prod.snd) (pts.map Prod.fst) allPids =
      .ok (pts.map (fun p => weight (nodesOf q allPids) (p.1 : ZMod q) x • p.2)).sum := by
  have hloop : ∀ (l : List (ℤ × E)) (acc : E), (∀ p ∈ l, p.1 ∈ allPids) →
      ((l.map Prod.fst).zip (l.map Prod.snd)).foldlM (fun R p => do
        let lambda ← lagrangeBasis q x allPids p.1
        .ok (R + (lambda : ZMod q) • p.2)) acc =
      Except.ok (ε := Failure)
        (acc + (l.map (fun p => weight (nodesOf q allPids) (p.1 : ZMod q) x • p.2)).sum) := by
    intro l
    induction l with
    | nil =>
      intro acc _
      simp
      rfl
    | cons p l ih =>
      intro acc hl
      have hp : p.1 ∈ allPids := hl p (by simp)
      have hbasis := lagrangeBasis_eq x p.1 allPids hpos (fun r hr h => hinj r hr p.1 hp h)
      rw [List.map_cons, List.map_cons, List.zip_cons_cons, List.foldlM_cons, hbasis]
      simp only [ok_bind, cast_residue]
      rw [ih _ (fun r hr => hl r (by simp [hr])), List.map_cons, List.sum_cons, add_assoc]
  have h := hloop pts 0 hmem
  rw [zero_add] at h
  simp only [lagrangePartialInterpolateExponent, List.length_map, decide_true, hlen, hne,
    cbAssert_true, ok_bind]
  exact h

end CbMpc
