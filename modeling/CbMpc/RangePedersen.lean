import CbMpc.LucasTest
import CbMpc.PrimeOrder
import CbMpc.ZkUnknownOrder

/-!
# Range proofs on Pedersen commitments

`range_pedersen_t` and `range_pedersen_interactive_t`: each repetition masks the committed
integer, and a challenge bit adds the integer to the mask. The verifier squares the first
message instead of testing that it lies in the subgroup, and checks one random combination of
all repetitions.
-/
namespace CbMpc

/-- `pedersen_commitment_params_t`, of which the constructor asserts that `p` and `(p - 1) / 2`
are primes. `sqrt_h` is a hash of the other parameters. -/
structure PedersenParams where
  p : ℕ
  sqrtH : ℤ
  prime_p : p.Prime
  prime_pTag : ((p - 1) / 2).Prime
  sqrtH_range : 0 < sqrtH ∧ sqrtH < p

namespace PedersenParams

def pTag (P : PedersenParams) : ℕ := (P.p - 1) / 2

def sqrtG (_ : PedersenParams) : ℤ := 2

def g (_ : PedersenParams) : ℤ := 4

def h (P : PedersenParams) : ℤ := P.sqrtH * P.sqrtH % P.p

/-- `check_safe_prime_subgroup`. -/
def checkSafePrimeSubgroup (P : PedersenParams) (x : ℤ) : Outcome Unit := do
  let v ← modPow P.p x P.pTag
  require (decide (v = 1)) .crypto

/-- `g.pow(v) * h.pow(s)` inside `MODULO(p)`. -/
def commit (P : PedersenParams) (vartime : Bool) (g h v s : ℤ) : Outcome ℤ := do
  let gv ← modPow P.p g v
  let hs ← modPow P.p h s
  modMul vartime P.p gv hs

end PedersenParams

/-- `q << SEC_P_STAT`. -/
def rangeSlack (q : ℕ) : ℤ := q * 2 ^ secPStat

/-- The masks of the prover, for each repetition one of the integer and one of the randomness. -/
structure RangeMasks (t : ℕ) where
  xi : Fin t → ℤ
  ri : Fin t → ℤ

/-- The answers of the prover to the challenge bits. -/
structure RangeAnswer (t : ℕ) where
  d : Fin t → ℤ
  f : Fin t → ℤ

/-- The first message of both provers. -/
def rangeTildes {t : ℕ} (P : PedersenParams) (ω : RangeMasks t) : Outcome (Fin t → ℤ) :=
  fillArray fun i => P.commit false P.sqrtG P.sqrtH (ω.xi i) (ω.ri i)

/-- The answers of both provers. -/
def rangeAnswers {t : ℕ} (P : PedersenParams) (ω : RangeMasks t) (bit : Fin t → Bool) (x r : ℤ) :
    Outcome (RangeAnswer t) := do
  let f ← fillArray fun i => if bit i then modAdd false P.pTag (ω.ri i) r else .ok (ω.ri i)
  .ok ⟨fun i => if bit i then ω.xi i + x else ω.xi i, f⟩

/-- The running sums `D` and `F` of the verifier and its product `C`. -/
structure RangeSums where
  D : ℤ
  F : ℤ
  C : ℤ

/-- `C *= Ci.pow(rho)`, where the commitment is multiplied to a row whose bit is set. -/
def rangeProduct (P : PedersenParams) (c : ℤ) (bit : Bool) (square rho C : ℤ) : Outcome ℤ := do
  let Ci ← if bit then modMul true P.p square c else .ok square
  let v ← modPow P.p Ci rho
  modMul true P.p C v

/-- `D += d[i] * rho` inside `MODULO(p_tag)`. -/
def rangeSum (P : PedersenParams) (D d rho : ℤ) : Outcome ℤ := do
  let v ← modMul true P.pTag d rho
  modAdd true P.pTag D v

/-- What one repetition adds to the sums. -/
def rangeRow (P : PedersenParams) (c : ℤ) (bit : Bool) (square d f : ℤ) (rho : ℕ)
    (acc : RangeSums) : Outcome RangeSums := do
  let D ← rangeSum P acc.D d rho
  let F ← rangeSum P acc.F f rho
  let C ← rangeProduct P c bit square rho acc.C
  .ok ⟨D, F, C⟩

/-- The loop body of `range_pedersen_t::verify`. -/
def rangeStep {t : ℕ} (P : PedersenParams) (q : ℕ) (c : ℤ) (bit : Fin t → Bool)
    (cTilde : Fin t → ℤ) (a : RangeAnswer t) (rho : Fin t → Fin (2 ^ secPStat)) (acc : RangeSums)
    (i : Fin t) : Outcome RangeSums := do
  checkRightOpenRange 0 (a.d i) (rangeSlack q)
  checkOpenRange 0 (cTilde i) P.p
  let square ← modMul true P.p (cTilde i) (cTilde i)
  rangeRow P c (bit i) square (a.d i) (a.f i) (rho i) acc

/-- The loop body of `range_pedersen_interactive_t::verify`, which leaves the range of the first
message unchecked. -/
def rangeInteractiveStep {t : ℕ} (P : PedersenParams) (q : ℕ) (c : ℤ)
    (bit : Fin t → Bool) (cTilde : Fin t → ℤ) (a : RangeAnswer t) (rho : Fin t → Fin (2 ^ secPStat))
    (acc : RangeSums) (i : Fin t) : Outcome RangeSums := do
  let square ← modMul true P.p (cTilde i) (cTilde i)
  checkRightOpenRange 0 (a.d i) (rangeSlack q)
  rangeRow P c (bit i) square (a.d i) (a.f i) (rho i) acc

/-- The test `C == g.pow(D) * h.pow(F)` at the end of both verifiers. -/
def rangeTest (P : PedersenParams) (acc : RangeSums) : Outcome Unit := do
  let CTest ← P.commit true P.g P.h acc.D acc.F
  require (decide (acc.C = CTest)) .crypto

/-- What is hashed to the challenge of `range_pedersen_t`. -/
structure RangeHash where
  p : ℕ
  q : ℕ
  g : ℤ
  h : ℤ
  c : ℤ
  cTilde : Fin secPCom → ℤ
  sessionId : List (Fin 256)
  aux : ℕ

/-- `ro::hash_string(…).bitlen128()`. -/
abbrev RangeOracle : Type := RangeHash → Fin (bitsToBytes secPCom) → Fin 256

/-- `range_pedersen_t`. -/
structure RangePedersen extends RangeAnswer secPCom where
  e : List (Fin 256)
  cTilde : Fin secPCom → ℤ

/-- `range_pedersen_t::prove` on the masks that it draws. -/
def rangePedersenProve (P : PedersenParams) (O : RangeOracle) (q : ℕ) (c x r : ℤ)
    (sessionId : List (Fin 256)) (aux : ℕ) (ω : RangeMasks secPCom) : Outcome RangePedersen := do
  cbAssert (decide (0 ≤ x ∧ x < q))
  cbAssert (decide (rangeSlack q < P.pTag))
  let cTilde ← rangeTildes P ω
  let e := List.ofFn (O ⟨P.p, q, P.g, P.h, c, cTilde, sessionId, aux⟩)
  let a ← rangeAnswers P ω (fun i => bitsGet e i) x r
  .ok ⟨a, e, cTilde⟩

/-- `range_pedersen_t::verify` on the exponents that it draws. -/
def rangePedersenVerify (P : PedersenParams) (O : RangeOracle) (q : ℕ) (c : ℤ)
    (sessionId : List (Fin 256)) (aux : ℕ) (rho : Fin secPCom → Fin (2 ^ secPStat))
    (π : RangePedersen) : Outcome Unit := do
  require (decide (rangeSlack q * 2 < P.p)) .crypto
  P.checkSafePrimeSubgroup c
  require (decide (π.e = List.ofFn (O ⟨P.p, q, P.g, P.h, c, π.cTilde, sessionId, aux⟩))) .crypto
  let acc ← (List.finRange secPCom).foldlM
    (rangeStep P q c (fun i => bitsGet π.e i) π.cTilde π.toRangeAnswer rho) ⟨0, 0, 1⟩
  rangeTest P acc

/-- `range_pedersen_interactive_t::prover_msg1`, without the commitment to it. -/
def rangeProverMsg1 (P : PedersenParams) (q : ℕ) (ω : RangeMasks secPStatShort) :
    Outcome (Fin secPStatShort → ℤ) := do
  cbAssert (decide (rangeSlack q < P.pTag))
  rangeTildes P ω

/-- `range_pedersen_interactive_t::prover_msg2`. -/
def rangeProverMsg2 (P : PedersenParams) (q e : ℕ) (x r : ℤ) (ω : RangeMasks secPStatShort) :
    Outcome (RangeAnswer secPStatShort) := do
  cbAssert (decide (0 ≤ x))
  cbAssert (decide (x < q))
  rangeAnswers P ω (fun i => e.testBit i) x r

/-- `range_pedersen_interactive_t::verify`, where `comOpen` is the opening of the commitment to the
first message. -/
def rangeInteractiveVerify (P : PedersenParams)
    (comOpen : (Fin secPStatShort → ℤ) → Outcome Unit) (q e : ℕ) (c : ℤ)
    (cTilde : Fin secPStatShort → ℤ) (a : RangeAnswer secPStatShort)
    (rho : Fin secPStatShort → Fin (2 ^ secPStat)) :
    Outcome Unit := do
  comOpen cTilde
  require (decide (rangeSlack q * 2 < P.p)) .crypto
  P.checkSafePrimeSubgroup c
  let acc ← (List.finRange secPStatShort).foldlM
    (rangeInteractiveStep P q c (fun i => e.testBit i) cTilde a rho) ⟨0, 0, 1⟩
  rangeTest P acc

namespace PedersenParams

variable (P : PedersenParams)

instance factPrime : Fact P.p.Prime := ⟨P.prime_p⟩

theorem p_eq : P.p = 2 * P.pTag + 1 := by
  have hodd := P.prime_p.eq_two_or_odd
  have htag := P.prime_pTag.two_le
  unfold pTag
  omega

theorem pTag_prime : P.pTag.Prime := P.prime_pTag

theorem p_pos : 0 < P.p := P.prime_p.pos

theorem pTag_pos : 0 < P.pTag := P.pTag_prime.pos

/-- The committed integer and the randomness, as exponents of the two bases. -/
def opening (v s : ℤ) : ZMod P.p := (P.g : ZMod P.p) ^ v * (P.h : ZMod P.p) ^ s

/-- Squares lie in the subgroup. -/
theorem square_pow_pTag {x : ZMod P.p} (hx : x ≠ 0) : (x * x) ^ P.pTag = 1 := by
  have hexp : P.p - 1 = 2 * P.pTag := by
    have := P.p_eq
    omega
  rw [← pow_two, ← pow_mul, ← hexp]
  exact ZMod.pow_card_sub_one_eq_one hx

theorem cast_ne_zero_of_range {v : ℤ} (hv : 0 < v ∧ v < P.p) : (v : ZMod P.p) ≠ 0 := by
  rw [ne_eq, ZMod.intCast_zmod_eq_zero_iff_dvd]
  intro hdvd
  have := Int.le_of_dvd hv.1 hdvd
  omega

theorem cast_sqrtH_ne_zero : (P.sqrtH : ZMod P.p) ≠ 0 := P.cast_ne_zero_of_range P.sqrtH_range

theorem cast_sqrtG_ne_zero : (P.sqrtG : ZMod P.p) ≠ 0 := by
  have htag := P.pTag_prime.two_le
  have hp := P.p_eq
  exact P.cast_ne_zero_of_range ⟨by norm_num [sqrtG], by rw [sqrtG]; omega⟩

theorem cast_g : (P.g : ZMod P.p) = P.sqrtG * P.sqrtG := by
  rw [g, sqrtG, ← Int.cast_mul]
  norm_num

theorem cast_h : (P.h : ZMod P.p) = P.sqrtH * P.sqrtH := by rw [h, cast_emod, Int.cast_mul]

theorem g_pow_pTag : (P.g : ZMod P.p) ^ P.pTag = 1 := by
  rw [cast_g]
  exact P.square_pow_pTag P.cast_sqrtG_ne_zero

theorem h_pow_pTag : (P.h : ZMod P.p) ^ P.pTag = 1 := by
  rw [cast_h]
  exact P.square_pow_pTag P.cast_sqrtH_ne_zero

theorem g_ne_zero : (P.g : ZMod P.p) ≠ 0 :=
  PrimeOrder.ne_zero_of_pow_eq_one P.pTag_prime P.g_pow_pTag

theorem h_ne_zero : (P.h : ZMod P.p) ≠ 0 :=
  PrimeOrder.ne_zero_of_pow_eq_one P.pTag_prime P.h_pow_pTag

theorem opening_zero : P.opening 0 0 = 1 := by simp [opening]

theorem opening_ne_zero (v s : ℤ) : P.opening v s ≠ 0 :=
  mul_ne_zero (zpow_ne_zero v P.g_ne_zero) (zpow_ne_zero s P.h_ne_zero)

theorem opening_add (v s v' s' : ℤ) :
    P.opening (v + v') (s + s') = P.opening v s * P.opening v' s' := by
  rw [opening, opening, opening, zpow_add₀ P.g_ne_zero, zpow_add₀ P.h_ne_zero]
  ring

theorem opening_mul (k v s : ℤ) : P.opening (k * v) (k * s) = P.opening v s ^ k := by
  rw [opening, opening, mul_zpow, ← zpow_mul, ← zpow_mul, mul_comm k, mul_comm k]

theorem opening_sub (v s v' s' : ℤ) :
    P.opening (v - v') (s - s') = P.opening v s / P.opening v' s' := by
  rw [eq_div_iff (P.opening_ne_zero v' s'), ← opening_add, sub_add_cancel, sub_add_cancel]

theorem opening_pow_pTag (v s : ℤ) : P.opening v s ^ P.pTag = 1 := by
  rw [opening, mul_pow, ← zpow_natCast, ← zpow_natCast, zpow_comm, zpow_comm (P.h : ZMod P.p),
    zpow_natCast, zpow_natCast, P.g_pow_pTag, P.h_pow_pTag, one_zpow, one_zpow, one_mul]

theorem opening_congr {v s v' s' : ℤ} (hv : (v : ZMod P.pTag) = v') (hs : (s : ZMod P.pTag) = s') :
    P.opening v s = P.opening v' s' := by
  rw [opening, opening, PrimeOrder.zpow_congr P.pTag_prime P.g_pow_pTag hv,
    PrimeOrder.zpow_congr P.pTag_prime P.h_pow_pTag hs]

/-- What `commit` computes on exponents that are not negative. -/
theorem commit_eq (vartime : Bool) (g h : ℤ) {v s : ℤ} (hv : 0 ≤ v) (hs : 0 ≤ s) :
    ∃ c, P.commit vartime g h v s = .ok c ∧
    isInRange P.p c = true ∧ (c : ZMod P.p) = (g : ZMod P.p) ^ v * (h : ZMod P.p) ^ s := by
  refine ⟨_, ?_, isInRange_emod P.p_pos (g ^ v.toNat % P.p * (h ^ s.toNat % P.p)), ?_⟩
  · rw [commit, modPow_eq g hv, ok_bind, modPow_eq h hs, ok_bind, modMul,
      modOp_eq_emod _ _ (isInRange_emod P.p_pos _) (isInRange_emod P.p_pos _)]
  · rw [cast_emod, Int.cast_mul, cast_emod, cast_emod, Int.cast_pow, Int.cast_pow, ← zpow_natCast,
      ← zpow_natCast, Int.toNat_of_nonneg hv, Int.toNat_of_nonneg hs]

theorem checkSafePrimeSubgroup_ok_iff {x : ℤ} :
    P.checkSafePrimeSubgroup x = .ok () ↔ (x : ZMod P.p) ^ P.pTag = 1 := by
  have hone : isInRange P.p 1 = true :=
    (isInRange_iff 1).mpr ⟨by norm_num, by exact_mod_cast P.prime_p.one_lt⟩
  rw [checkSafePrimeSubgroup, modPow_eq x (Int.natCast_nonneg _), ok_bind, require_ok_iff,
    decide_eq_true_iff, Int.toNat_natCast]
  constructor
  · intro h
    rw [← Int.cast_pow, ← cast_emod (m := P.p), h, Int.cast_one]
  · intro h
    apply eq_of_isInRange (isInRange_emod P.p_pos _) hone
    rw [cast_emod, Int.cast_pow, h, Int.cast_one]

end PedersenParams

variable {P : PedersenParams} {t : ℕ}

/-- The first message of an honest prover squares to openings of the masks. -/
theorem rangeTildes_eq {ω : RangeMasks t} (hω : ∀ i, 0 ≤ ω.xi i ∧ 0 ≤ ω.ri i) :
    ∃ cTilde, rangeTildes P ω = .ok cTilde ∧
    ∀ i, (0 < cTilde i ∧ cTilde i < P.p) ∧
    (cTilde i : ZMod P.p) * cTilde i = P.opening (ω.xi i) (ω.ri i) := by
  choose cTilde hc hrange hcast using fun i => P.commit_eq false P.sqrtG P.sqrtH (hω i).1 (hω i).2
  refine ⟨cTilde, fillArray_eq hc, fun i => ⟨?_, ?_⟩⟩
  · have h := (isInRange_iff _).mp (hrange i)
    have hne : cTilde i ≠ 0 := by
      intro hzero
      have hcast := hcast i
      rw [hzero, Int.cast_zero] at hcast
      exact mul_ne_zero (zpow_ne_zero _ P.cast_sqrtG_ne_zero)
        (zpow_ne_zero _ P.cast_sqrtH_ne_zero) hcast.symm
    exact ⟨lt_of_le_of_ne h.1 hne.symm, h.2⟩
  · rw [hcast, PedersenParams.opening, P.cast_g, P.cast_h, mul_zpow, mul_zpow]
    ring

/-- The answers of an honest prover open the first message, times the commitment where the bit is
set. -/
theorem rangeAnswers_eq {ω : RangeMasks t} (hω : ∀ i, isInRange P.pTag (ω.ri i) = true)
    (bit : Fin t → Bool) {x r : ℤ} (hr : isInRange P.pTag r = true) :
    ∃ a, rangeAnswers P ω bit x r = .ok a ∧ ∀ i, a.d i = (if bit i then ω.xi i + x else ω.xi i) ∧
      P.opening (a.d i) (a.f i) = P.opening (ω.xi i) (ω.ri i) * if bit i then
        P.opening x r else 1 := by
  have hf : ∀ i, (if bit i then modAdd false P.pTag (ω.ri i) r else .ok (ω.ri i)) =
      .ok (if bit i then (ω.ri i + r) % P.pTag else ω.ri i) := by
    intro i
    split
    · rw [modAdd, modOp_eq_emod _ _ (hω i) hr]
    · rfl
  refine ⟨_, by rw [rangeAnswers, fillArray_eq hf, ok_bind], fun i => ⟨rfl, ?_⟩⟩
  by_cases hbit : bit i = true
  · simp only [hbit, if_true]
    rw [← P.opening_add]
    exact P.opening_congr rfl (cast_emod _)
  · simp only [hbit, Bool.false_eq_true, if_false, mul_one]

/-- What a repetition shows the verifier of the committed value. -/
def rangeValue (P : PedersenParams) (c cTilde : ℤ) (bit : Bool) : ZMod P.p :=
  (cTilde : ZMod P.p) * cTilde * if bit then (c : ZMod P.p) else 1

/-- The sums stand for two elements, and are kept reduced. -/
structure RangeSums.Stand (P : PedersenParams) (acc : RangeSums) (C y : ZMod P.p) : Prop where
  D_range : isInRange P.pTag acc.D = true
  F_range : isInRange P.pTag acc.F = true
  C_range : isInRange P.p acc.C = true
  C_eq : (acc.C : ZMod P.p) = C
  opening_eq : P.opening acc.D acc.F = y

theorem rangeSum_eq (P : PedersenParams) (D d rho : ℤ) :
    rangeSum P D d rho = .ok ((D + d * rho % P.pTag) % P.pTag) := by
  simp only [rangeSum, modMul, modAdd, modOp, if_true, ok_bind]

theorem rangeProduct_eq (P : PedersenParams) (c : ℤ) (bit : Bool) (cTilde C : ℤ) (rho : ℕ) : ∃ v,
    rangeProduct P c bit (cTilde * cTilde % P.p) rho C = .ok v ∧ isInRange P.p v = true ∧
      (v : ZMod P.p) = C * rangeValue P c cTilde bit ^ rho := by
  have hpow : ∀ Ci : ℤ, (Ci : ZMod P.p) = rangeValue P c cTilde bit → ∃ v, (do
      let v ← modPow P.p Ci rho
      modMul true P.p C v : Outcome ℤ) = .ok v ∧ isInRange P.p v = true ∧
        (v : ZMod P.p) = C * rangeValue P c cTilde bit ^ rho := by
    intro Ci hCi
    refine ⟨_, ?_, isInRange_emod P.p_pos (C * (Ci ^ rho % P.p)), ?_⟩
    · simp only [modPow_eq Ci (Int.natCast_nonneg rho), ok_bind, Int.toNat_natCast, modMul,
        modOp, if_true]
    · rw [cast_emod, Int.cast_mul, cast_emod, Int.cast_pow, hCi]
  cases bit with
  | true =>
    apply hpow (cTilde * cTilde % P.p * c % P.p)
    simp only [cast_emod, Int.cast_mul, rangeValue, if_true]
  | false =>
    apply hpow (cTilde * cTilde % P.p)
    simp only [cast_emod, Int.cast_mul, rangeValue, Bool.false_eq_true, if_false, mul_one]

/-- One repetition multiplies the one element by its value and the other by its opening. -/
theorem rangeRow_stand {c cTilde d f : ℤ} {bit : Bool} {rho : ℕ} {acc : RangeSums} {C y : ZMod P.p}
    (hacc : acc.Stand P C y) :
    ∃ acc', rangeRow P c bit (cTilde * cTilde % P.p) d f rho acc = .ok acc' ∧
      acc'.Stand P (C * rangeValue P c cTilde bit ^ rho) (y * P.opening d f ^ rho) := by
  obtain ⟨v, hv, hrange, hcast⟩ := rangeProduct_eq P c bit cTilde acc.C rho
  refine ⟨⟨(acc.D + d * rho % P.pTag) % P.pTag, (acc.F + f * rho % P.pTag) % P.pTag, v⟩, ?_,
    isInRange_emod P.pTag_pos _, isInRange_emod P.pTag_pos _, hrange, by rw [hcast, hacc.C_eq], ?_⟩
  · simp only [rangeRow, rangeSum_eq, ok_bind, hv]
  · have hsum : ∀ a b : ℤ, (((a + b * rho % P.pTag) % P.pTag : ℤ) : ZMod P.pTag) =
        (a + rho * b : ℤ) := by
      intro a b
      rw [cast_emod, Int.cast_add, cast_emod, ← Int.cast_add, mul_comm b]
    rw [P.opening_congr (hsum _ _) (hsum _ _), P.opening_add, P.opening_mul, hacc.opening_eq,
      zpow_natCast]

/-- The loop of a verifier whose turns pass their checks. -/
theorem rangeLoop_stand {step : RangeSums → Fin t → Outcome RangeSums} {c : ℤ}
    {bit : Fin t → Bool} {cTilde : Fin t → ℤ} {a : RangeAnswer t}
    {rho : Fin t → Fin (2 ^ secPStat)} {l : List (Fin t)}
    (hstep : ∀ acc, ∀ i ∈ l, step acc i =
      rangeRow P c (bit i) (cTilde i * cTilde i % P.p) (a.d i) (a.f i) (rho i) acc)
    {acc : RangeSums} {C y : ZMod P.p} (hacc : acc.Stand P C y) :
    ∃ acc', l.foldlM step acc = .ok acc' ∧
      acc'.Stand P (C * (l.map fun i => rangeValue P c (cTilde i) (bit i) ^ (rho i : ℕ)).prod)
        (y * (l.map fun i => P.opening (a.d i) (a.f i) ^ (rho i : ℕ)).prod) := by
  induction l generalizing acc C y with
  | nil => exact ⟨acc, rfl, by simpa using hacc⟩
  | cons i l ih =>
    obtain ⟨next, hnext, hstand⟩ :=
      @rangeRow_stand P c (cTilde i) (a.d i) (a.f i) (bit i) (rho i) acc C y hacc
    obtain ⟨acc', hfold, hacc'⟩ :=
      ih (fun acc i hi => hstep acc i (List.mem_cons_of_mem _ hi)) hstand
    refine ⟨acc', ?_, ?_⟩
    · rw [List.foldlM_cons, hstep acc i (List.mem_cons_self ..), hnext, ok_bind, hfold]
    · rw [List.map_cons, List.map_cons, List.prod_cons, List.prod_cons, ← mul_assoc, ← mul_assoc]
      exact hacc'

theorem RangeSums.Stand.rangeTest_ok_iff {acc : RangeSums} {C y : ZMod P.p}
    (hacc : acc.Stand P C y) :
    rangeTest P acc = .ok () ↔ C = y := by
  obtain ⟨v, hv, hrange, hcast⟩ :=
    P.commit_eq true P.g P.h ((isInRange_iff _).mp hacc.D_range).1
      ((isInRange_iff _).mp hacc.F_range).1
  have hopen : (v : ZMod P.p) = y := hcast.trans hacc.opening_eq
  rw [rangeTest, hv, ok_bind, require_ok_iff, decide_eq_true_iff, ← hacc.C_eq, ← hopen]
  exact ⟨fun h => by rw [h], eq_of_isInRange hacc.C_range hrange⟩

theorem rangeStart_stand (P : PedersenParams) : (⟨0, 0, 1⟩ : RangeSums).Stand P 1 1 where
  D_range := (isInRange_iff 0).mpr ⟨le_rfl, by exact_mod_cast P.pTag_pos⟩
  F_range := (isInRange_iff 0).mpr ⟨le_rfl, by exact_mod_cast P.pTag_pos⟩
  C_range := (isInRange_iff 1).mpr ⟨by norm_num, by exact_mod_cast P.prime_p.one_lt⟩
  C_eq := Int.cast_one
  opening_eq := P.opening_zero

/-- A verifier accepts when all its turns pass their checks and the combination of the repetitions
holds. -/
theorem rangeLoop_ok_iff {step : RangeSums → Fin t → Outcome RangeSums} {Guard : Fin t → Prop}
    {c : ℤ} {bit : Fin t → Bool} {cTilde : Fin t → ℤ} {a : RangeAnswer t}
    {rho : Fin t → Fin (2 ^ secPStat)}
    (hstep : ∀ acc i, Guard i →
      step acc i = rangeRow P c (bit i) (cTilde i * cTilde i % P.p) (a.d i) (a.f i) (rho i) acc)
    (hguard : ∀ acc i next, step acc i = .ok next → Guard i) :
    ((List.finRange t).foldlM step ⟨0, 0, 1⟩ >>= rangeTest P) = .ok () ↔ (∀ i, Guard i) ∧
      ∏ i, rangeValue P c (cTilde i) (bit i) ^ (rho i : ℕ) = ∏ i,
      P.opening (a.d i) (a.f i) ^ (rho i : ℕ) := by
  have hloop : (∀ i, Guard i) → ∃ acc, (List.finRange t).foldlM step ⟨0, 0, 1⟩ = .ok acc ∧
      acc.Stand P (∏ i, rangeValue P c (cTilde i) (bit i) ^ (rho i : ℕ)) (∏ i,
      P.opening (a.d i) (a.f i) ^ (rho i : ℕ)) := by
    intro hall
    obtain ⟨acc, hacc, hstand⟩ :=
      rangeLoop_stand (l := List.finRange t) (fun acc i _ =>
        hstep acc i (hall i)) (rangeStart_stand P)
    rw [one_mul, one_mul, ← Fin.prod_univ_def, ← Fin.prod_univ_def] at hstand
    exact ⟨acc, hacc, hstand⟩
  constructor
  · intro h
    obtain ⟨acc, hacc, htest⟩ := bind_ok_iff.mp h
    have hall : ∀ i, Guard i := fun i => by
      obtain ⟨b, next, hnext⟩ := foldlM_ok_mem hacc i (List.mem_finRange i)
      exact hguard b i next hnext
    obtain ⟨acc', hacc', hstand⟩ := hloop hall
    obtain rfl := Except.ok.inj (hacc.symm.trans hacc')
    exact ⟨hall, hstand.rangeTest_ok_iff.mp htest⟩
  · rintro ⟨hall, heq⟩
    obtain ⟨acc, hacc, hstand⟩ := hloop hall
    rw [hacc, ok_bind]
    exact hstand.rangeTest_ok_iff.mpr heq

/-- What a proof has passed that `range_pedersen_t::verify` accepts. -/
theorem rangePedersenVerify_ok_iff {O : RangeOracle} {q : ℕ} {c : ℤ}
    {sessionId : List (Fin 256)} {aux : ℕ} {rho : Fin secPCom → Fin (2 ^ secPStat)}
    {π : RangePedersen} : rangePedersenVerify P O q c sessionId aux rho π = .ok () ↔
      rangeSlack q * 2 < P.p ∧ (c : ZMod P.p) ^ P.pTag = 1 ∧
      π.e = List.ofFn (O ⟨P.p, q, P.g, P.h, c, π.cTilde, sessionId, aux⟩) ∧
      (∀ i, (0 ≤ π.d i ∧ π.d i < rangeSlack q) ∧ 0 < π.cTilde i ∧ π.cTilde i < P.p) ∧
      ∏ i, rangeValue P c (π.cTilde i) (bitsGet π.e i) ^ (rho i : ℕ) = ∏ i,
      P.opening (π.d i) (π.f i) ^ (rho i : ℕ) := by
  rw [rangePedersenVerify, require_bind_ok_iff, decide_eq_true_iff, unit_bind_ok_iff,
    P.checkSafePrimeSubgroup_ok_iff, require_bind_ok_iff, decide_eq_true_iff]
  refine and_congr_right' (and_congr_right' (and_congr_right' ?_))
  apply rangeLoop_ok_iff
  · rintro acc i ⟨hd, hc⟩
    simp only [rangeStep, checkRightOpenRange_ok_iff.mpr hd, checkOpenRange_ok_iff.mpr hc, ok_bind,
      modMul, modOp, if_true]
  · intro acc i next h
    obtain ⟨hd, h⟩ := unit_bind_ok_iff.mp h
    obtain ⟨hc, -⟩ := unit_bind_ok_iff.mp h
    exact ⟨checkRightOpenRange_ok_iff.mp hd, checkOpenRange_ok_iff.mp hc⟩

/-- The same for `range_pedersen_interactive_t::verify`. -/
theorem rangeInteractiveVerify_ok_iff {comOpen : (Fin secPStatShort → ℤ) → Outcome Unit}
    {q e : ℕ} {c : ℤ} {cTilde : Fin secPStatShort → ℤ} {a : RangeAnswer secPStatShort}
    {rho : Fin secPStatShort → Fin (2 ^ secPStat)} :
    rangeInteractiveVerify P comOpen q e c cTilde a rho = .ok () ↔ comOpen cTilde = .ok () ∧
    rangeSlack q * 2 < P.p ∧
      (c : ZMod P.p) ^ P.pTag = 1 ∧ (∀ i, 0 ≤ a.d i ∧ a.d i < rangeSlack q) ∧
      ∏ i, rangeValue P c (cTilde i) (e.testBit i) ^ (rho i : ℕ) = ∏ i,
      P.opening (a.d i) (a.f i) ^ (rho i : ℕ) := by
  rw [rangeInteractiveVerify, unit_bind_ok_iff, require_bind_ok_iff, decide_eq_true_iff,
    unit_bind_ok_iff, P.checkSafePrimeSubgroup_ok_iff]
  refine and_congr_right' (and_congr_right' (and_congr_right' ?_))
  apply rangeLoop_ok_iff
  · intro acc i hd
    simp only [rangeInteractiveStep, checkRightOpenRange_ok_iff.mpr hd, ok_bind, modMul,
      modOp, if_true]
  · intro acc i next h
    obtain ⟨square, -, h⟩ := bind_ok_iff.mp h
    obtain ⟨hd, -⟩ := unit_bind_ok_iff.mp h
    exact checkRightOpenRange_ok_iff.mp hd

/-- What the honest prover draws. -/
def RangeMasks.Drawn (P : PedersenParams) (q : ℕ) (ω : RangeMasks t) : Prop :=
  ∀ i, (0 ≤ ω.xi i ∧ ω.xi i < rangeSlack q) ∧ isInRange P.pTag (ω.ri i) = true

/-- The masks of the repetitions whose bit is set leave room for the committed integer. -/
def RangeMasks.Fits (q : ℕ) (ω : RangeMasks t) (bit : Fin t → Bool) (x : ℤ) : Prop :=
  ∀ i, bit i = true → ω.xi i + x < rangeSlack q

/-- The honest messages, the equation of each repetition and the range of each answer. -/
theorem range_honest {q : ℕ} {ω : RangeMasks t} (hω : ω.Drawn P q) {x r c : ℤ} (hx : 0 ≤ x)
    (hr : isInRange P.pTag r = true) (hc : P.commit false P.g P.h x r = .ok c) :
    (c : ZMod P.p) ^ P.pTag = 1 ∧ ∃ cTilde, rangeTildes P ω = .ok cTilde ∧
      (∀ i, 0 < cTilde i ∧ cTilde i < P.p) ∧ ∀ bit : Fin t → Bool, ∃ a,
        rangeAnswers P ω bit x r = .ok a ∧
        (∀ i, rangeValue P c (cTilde i) (bit i) = P.opening (a.d i) (a.f i)) ∧
        ((∀ i, 0 ≤ a.d i ∧ a.d i < rangeSlack q) ↔ ω.Fits q bit x) := by
  have hri : ∀ i, 0 ≤ ω.ri i := fun i => ((isInRange_iff _).mp (hω i).2).1
  obtain ⟨c', hc', -, hopen⟩ := P.commit_eq false P.g P.h hx ((isInRange_iff r).mp hr).1
  obtain rfl := Except.ok.inj (hc.symm.trans hc')
  have hcast : (c : ZMod P.p) = P.opening x r := hopen
  obtain ⟨cTilde, htildes, hspec⟩ := rangeTildes_eq (P := P) fun i => ⟨(hω i).1.1, hri i⟩
  refine ⟨by rw [hcast, P.opening_pow_pTag], cTilde, htildes, fun i => (hspec i).1, fun bit => ?_⟩
  obtain ⟨a, ha, hanswer⟩ := rangeAnswers_eq (P := P) (fun i => (hω i).2) bit (x := x) hr
  refine ⟨a, ha, fun i => ?_, ?_⟩
  · rw [rangeValue, (hspec i).2, hcast, (hanswer i).2]
  · constructor
    · intro h i hbit
      have hd := (h i).2
      rwa [(hanswer i).1, if_pos hbit] at hd
    · intro h i
      have hxi := (hω i).1
      rw [(hanswer i).1]
      split
      · exact ⟨by omega, h i ‹_›⟩
      · exact hxi

theorem rangeSlack_room {q : ℕ} (h : rangeSlack q < P.pTag) : rangeSlack q * 2 < P.p := by
  have hp := P.p_eq
  omega

/-- An honest proof and when it is accepted. -/
theorem rangePedersen_honest {q : ℕ} (hq : rangeSlack q < P.pTag) {x r c : ℤ} (hx : 0 ≤ x ∧ x < q)
    (hr : isInRange P.pTag r = true) (hc : P.commit false P.g P.h x r = .ok c) (O : RangeOracle)
    (sessionId : List (Fin 256)) (aux : ℕ) {ω : RangeMasks secPCom} (hω : ω.Drawn P q) :
    ∃ π, rangePedersenProve P O q c x r sessionId aux ω = .ok π ∧
      rangeTildes P ω = .ok π.cTilde ∧
      π.e = List.ofFn (O ⟨P.p, q, P.g, P.h, c, π.cTilde, sessionId, aux⟩) ∧ ∀ rho,
        (rangePedersenVerify P O q c sessionId aux rho π = .ok () ↔
          ω.Fits q (fun i => bitsGet π.e i) x) := by
  obtain ⟨hsub, cTilde, htildes, hrange, hanswers⟩ := range_honest hω hx.1 hr hc
  let e := List.ofFn (O ⟨P.p, q, P.g, P.h, c, cTilde, sessionId, aux⟩)
  obtain ⟨a, ha, hvalue, hfits⟩ := hanswers fun i => bitsGet e i
  refine ⟨⟨a, e, cTilde⟩, ?_, htildes, rfl, fun rho => ?_⟩
  · rw [rangePedersenProve, decide_eq_true hx, cbAssert_true, ok_bind, decide_eq_true hq,
      cbAssert_true, ok_bind, htildes, ok_bind]
    change rangeAnswers P ω (fun i => bitsGet e i) x r >>= _ = _
    rw [ha, ok_bind]
  · rw [rangePedersenVerify_ok_iff, ← hfits]
    constructor
    · rintro ⟨-, -, -, hd, -⟩ i
      exact (hd i).1
    · intro hd
      exact ⟨rangeSlack_room hq, hsub, rfl, fun i => ⟨hd i, hrange i⟩,
        Finset.prod_congr rfl fun i _ => by rw [hvalue i]⟩

/-- The same for the interactive proof. -/
theorem rangeInteractive_honest {q : ℕ} (hq : rangeSlack q < P.pTag)
    {x r c : ℤ} (hx : 0 ≤ x ∧ x < q) (hr : isInRange P.pTag r = true)
    (hc : P.commit false P.g P.h x r = .ok c) (e : ℕ) {ω : RangeMasks secPStatShort}
    (hω : ω.Drawn P q) : ∃ cTilde a, rangeProverMsg1 P q ω = .ok cTilde ∧
    rangeProverMsg2 P q e x r ω = .ok a ∧
      ∀ comOpen, comOpen cTilde = .ok () → ∀ rho,
        (rangeInteractiveVerify P comOpen q e c cTilde a rho = .ok () ↔
          ω.Fits q (fun i => e.testBit i) x) := by
  obtain ⟨hsub, cTilde, htildes, -, hanswers⟩ := range_honest hω hx.1 hr hc
  obtain ⟨a, ha, hvalue, hfits⟩ := hanswers fun i => e.testBit i
  refine ⟨cTilde, a, ?_, ?_, fun comOpen hopen rho => ?_⟩
  · rw [rangeProverMsg1, decide_eq_true hq, cbAssert_true, ok_bind, htildes]
  · rw [rangeProverMsg2, decide_eq_true hx.1, cbAssert_true, ok_bind, decide_eq_true hx.2,
      cbAssert_true, ok_bind, ha]
  · rw [rangeInteractiveVerify_ok_iff, ← hfits]
    constructor
    · rintro ⟨-, -, -, hd, -⟩
      exact hd
    · intro hd
      exact ⟨hopen, rangeSlack_room hq, hsub, hd, Finset.prod_congr rfl fun i _ => by rw [hvalue i]⟩

/-- An honest proof is accepted exactly when every masked answer stays below the bound of the
verifier. -/
theorem rangePedersen_complete (P : PedersenParams) {q : ℕ} (hq : rangeSlack q < P.pTag)
    {x r c : ℤ} (hx : 0 ≤ x ∧ x < q) (hr : isInRange P.pTag r = true)
    (hc : P.commit false P.g P.h x r = .ok c) :
    (∀ (O : RangeOracle) (sessionId : List (Fin 256)) (aux : ℕ) (ω : RangeMasks secPCom),
      ω.Drawn P q →
      ∃ π, rangePedersenProve P O q c x r sessionId aux ω = .ok π ∧ ∀ rho,
        (rangePedersenVerify P O q c sessionId aux rho π = .ok () ↔
          ω.Fits q (fun i => bitsGet π.e i) x)) ∧
    ∀ (e : ℕ) (ω : RangeMasks secPStatShort), ω.Drawn P q → ∃ cTilde a,
      rangeProverMsg1 P q ω = .ok cTilde ∧
      rangeProverMsg2 P q e x r ω = .ok a ∧ ∀ comOpen, comOpen cTilde = .ok () → ∀ rho,
        (rangeInteractiveVerify P comOpen q e c cTilde a rho = .ok () ↔
          ω.Fits q (fun i => e.testBit i) x) := by
  constructor
  · intro O sessionId aux ω hω
    obtain ⟨π, hπ, -, -, hverify⟩ := rangePedersen_honest hq hx hr hc O sessionId aux hω
    exact ⟨π, hπ, hverify⟩
  · intro e ω hω
    exact rangeInteractive_honest hq hx hr hc e hω

/-- A verifier accepts under two vectors of exponents that differ in the repetition `j` only. Where
it does not, all but one of the exponents of `j` make it reject, whatever the others are. -/
def AcceptedAt (verify : (Fin t → Fin (2 ^ secPStat)) → Outcome Unit) (j : Fin t) : Prop :=
  ∃ rho rho', verify rho = .ok () ∧ verify rho' = .ok () ∧
    (∀ i, i ≠ j → rho i = rho' i) ∧ rho j ≠ rho' j

/-- The equation of a repetition follows from two combinations. Nothing is asked of the first
message: its square lies in the subgroup. -/
theorem rangeValue_eq {q : ℕ} (hq : 0 < q) (hroom : rangeSlack q * 2 < P.p) {c : ℤ}
    (hc : (c : ZMod P.p) ^ P.pTag = 1) {bit : Fin t → Bool} {cTilde : Fin t → ℤ} {a : RangeAnswer t}
    {j : Fin t} {rho rho' : Fin t → Fin (2 ^ secPStat)}
    (hoff : ∀ i, i ≠ j → rho i = rho' i) (hne : rho j ≠ rho' j)
    (h : ∏ i, rangeValue P c (cTilde i) (bit i) ^ (rho i : ℕ) = ∏ i,
      P.opening (a.d i) (a.f i) ^ (rho i : ℕ))
    (h' : ∏ i, rangeValue P c (cTilde i) (bit i) ^ (rho' i : ℕ) = ∏ i,
      P.opening (a.d i) (a.f i) ^ (rho' i : ℕ)) :
    rangeValue P c (cTilde j) (bit j) = P.opening (a.d j) (a.f j) := by
  wlog hle : (rho' j : ℕ) ≤ rho j generalizing rho rho'
  · exact this (fun i hi => (hoff i hi).symm) hne.symm h' h (le_of_not_ge hle)
  have hrow : rangeValue P c (cTilde j) (bit j) ^ ((rho j : ℕ) - rho' j) =
      P.opening (a.d j) (a.f j) ^ ((rho j : ℕ) - rho' j) :=
    @PrimeOrder.row_of_prod_pow _ _ _ _ _ (fun i => rangeValue P c (cTilde i) (bit i)) (fun i =>
      P.opening (a.d i) (a.f i))
      (fun i => P.opening_ne_zero _ _) (fun i => rho i) (fun i => rho' i) j (fun i hi =>
        congrArg Fin.val (hoff i hi)) hle h h'
  have hbig : 2 ^ secPStat ≤ P.pTag := by
    have hp := P.p_eq
    have hmul : (1 : ℤ) * 2 ^ secPStat ≤ rangeSlack q := by
      rw [rangeSlack]
      exact mul_le_mul_of_nonneg_right (by exact_mod_cast hq) (by positivity)
    zify
    omega
  have hk : ¬P.pTag ∣ (rho j : ℕ) - rho' j := by
    intro hdvd
    have hval : (rho j : ℕ) ≠ rho' j := fun hval => hne (Fin.ext hval)
    have := Nat.le_of_dvd (by omega) hdvd
    have := (rho j).isLt
    omega
  have hx : rangeValue P c (cTilde j) (bit j) ^ P.pTag = 1 := by
    have hvalue : rangeValue P c (cTilde j) (bit j) ≠ 0 := by
      intro hzero
      rw [hzero, zero_pow (by omega)] at hrow
      exact pow_ne_zero _ (P.opening_ne_zero _ _) hrow.symm
    have hsquare := P.square_pow_pTag (left_ne_zero_of_mul (left_ne_zero_of_mul hvalue))
    rw [rangeValue, mul_pow, hsquare, one_mul]
    split
    · exact hc
    · exact one_pow _
  exact PrimeOrder.eq_of_pow_eq P.pTag_prime hx (P.opening_pow_pTag _ _) hk hrow

/-- Two answers to one repetition of the first message open the commitment. -/
theorem range_extract {q : ℕ} {c cTilde d d' f f' : ℤ} (hd : 0 ≤ d ∧ d < rangeSlack q)
    (hd' : 0 ≤ d' ∧ d' < rangeSlack q) (h : rangeValue P c cTilde true = P.opening d f)
    (h' : rangeValue P c cTilde false = P.opening d' f') :
    |d - d'| < rangeSlack q ∧ (c : ZMod P.p) = P.opening (d - d') (f - f') := by
  constructor
  · rw [abs_lt]
    omega
  · simp only [rangeValue, if_true, Bool.false_eq_true, if_false, mul_one] at h h'
    rw [P.opening_sub, eq_div_iff (P.opening_ne_zero d' f'), ← h, ← h']
    ring

/-- The equation of a repetition whose combination was accepted under two exponents. -/
theorem rangePedersen_row {O : RangeOracle} {q : ℕ} (hq : 0 < q) {c : ℤ}
    {sessionId : List (Fin 256)} {aux : ℕ} {π : RangePedersen} {j : Fin secPCom}
    (hacc : AcceptedAt (fun rho => rangePedersenVerify P O q c sessionId aux rho π) j) :
    (0 ≤ π.d j ∧ π.d j < rangeSlack q) ∧
    rangeValue P c (π.cTilde j) (bitsGet π.e j) = P.opening (π.d j) (π.f j) := by
  obtain ⟨rho, rho', h, h', hoff, hne⟩ := hacc
  obtain ⟨hroom, hsub, -, hrange, heq⟩ := rangePedersenVerify_ok_iff.mp h
  obtain ⟨-, -, -, -, heq'⟩ := rangePedersenVerify_ok_iff.mp h'
  exact ⟨(hrange j).1, @rangeValue_eq P _ q hq hroom c hsub (fun i => bitsGet π.e i) _ _
    j _ _ hoff hne heq heq'⟩

theorem rangeInteractive_row {comOpen : (Fin secPStatShort → ℤ) → Outcome Unit}
    {q e : ℕ} (hq : 0 < q) {c : ℤ} {cTilde : Fin secPStatShort → ℤ}
    {a : RangeAnswer secPStatShort} {j : Fin secPStatShort}
    (hacc : AcceptedAt (fun rho => rangeInteractiveVerify P comOpen q e c cTilde a rho) j) :
    (0 ≤ a.d j ∧ a.d j < rangeSlack q) ∧
    rangeValue P c (cTilde j) (e.testBit j) = P.opening (a.d j) (a.f j) := by
  obtain ⟨rho, rho', h, h', hoff, hne⟩ := hacc
  obtain ⟨-, hroom, hsub, hrange, heq⟩ := rangeInteractiveVerify_ok_iff.mp h
  obtain ⟨-, -, -, -, heq'⟩ := rangeInteractiveVerify_ok_iff.mp h'
  exact ⟨hrange j, @rangeValue_eq P _ q hq hroom c hsub (fun i => e.testBit i) _ _
    j _ _ hoff hne heq heq'⟩

/-- Two accepted proofs with one first message and different bits open the commitment to an integer
below the bound. -/
theorem rangePedersen_sound (P : PedersenParams) {q : ℕ} (hq : 0 < q) (c : ℤ) :
    (∀ (O O' : RangeOracle) (sessionId sessionId' : List (Fin 256)) (aux aux' : ℕ)
      (π π' : RangePedersen) (j : Fin secPCom),
      AcceptedAt (fun rho => rangePedersenVerify P O q c sessionId aux rho π) j →
      AcceptedAt (fun rho => rangePedersenVerify P O' q c sessionId' aux' rho π') j →
      π.cTilde j = π'.cTilde j → bitsGet π.e j = true → bitsGet π'.e j = false →
      |π.d j - π'.d j| < rangeSlack q ∧
        (c : ZMod P.p) = P.opening (π.d j - π'.d j) (π.f j - π'.f j)) ∧
    ∀ (comOpen comOpen' : (Fin secPStatShort → ℤ) → Outcome Unit) (e e' : ℕ)
      (cTilde cTilde' : Fin secPStatShort → ℤ)
      (a a' : RangeAnswer secPStatShort) (j : Fin secPStatShort),
      AcceptedAt (fun rho => rangeInteractiveVerify P comOpen q e c cTilde a rho) j →
      AcceptedAt (fun rho => rangeInteractiveVerify P comOpen' q e' c cTilde' a' rho) j →
      cTilde j = cTilde' j → e.testBit j = true → e'.testBit j = false →
      |a.d j - a'.d j| < rangeSlack q ∧
      (c : ZMod P.p) = P.opening (a.d j - a'.d j) (a.f j - a'.f j) := by
  constructor
  · intro O O' sessionId sessionId' aux aux' π π' j hacc hacc' htilde hbit hbit'
    obtain ⟨hd, hv⟩ := rangePedersen_row hq hacc
    obtain ⟨hd', hv'⟩ := rangePedersen_row hq hacc'
    rw [hbit, htilde] at hv
    rw [hbit'] at hv'
    exact range_extract hd hd' hv hv'
  · intro comOpen comOpen' e e' cTilde cTilde' a a' j hacc hacc' htilde hbit hbit'
    obtain ⟨hd, hv⟩ := rangeInteractive_row hq hacc
    obtain ⟨hd', hv'⟩ := rangeInteractive_row hq hacc'
    rw [hbit, htilde] at hv
    rw [hbit'] at hv'
    exact range_extract hd hd' hv hv'

/-- The smaller prime of a sample safe prime. -/
theorem samplePTag_prime : (845 * 2 ^ 231 + 1).Prime := by
  apply LucasTest.prime_of_powMod 256 3 ([5, 13, 13] ++ List.replicate 231 2)
  · intro r hr
    rcases List.mem_append.mp hr with hr | hr
    · simp only [List.mem_cons, List.not_mem_nil, or_false] at hr
      rcases hr with rfl | rfl | rfl <;> norm_num
    · rw [List.eq_of_mem_replicate hr]
      exact Nat.prime_two
  all_goals decide +kernel

theorem sampleP_prime : (845 * 2 ^ 232 + 3).Prime := by
  apply LucasTest.prime_of_powMod 256 2 [2, 845 * 2 ^ 231 + 1]
  · intro r hr
    simp only [List.mem_cons, List.not_mem_nil, or_false] at hr
    rcases hr with rfl | rfl
    · exact Nat.prime_two
    · exact samplePTag_prime
  all_goals decide +kernel

/-- A safe prime of 242 bits. -/
@[irreducible] def samplePedersenParams : PedersenParams where
  p := 845 * 2 ^ 232 + 3
  sqrtH := 3
  prime_p := sampleP_prime
  prime_pTag := samplePTag_prime
  sqrtH_range := by decide

theorem samplePedersenParams_p : samplePedersenParams.p = 845 * 2 ^ 232 + 3 := by
  unfold samplePedersenParams
  rfl

theorem samplePedersenParams_pTag : samplePedersenParams.pTag = 845 * 2 ^ 231 + 1 := by
  rw [PedersenParams.pTag, samplePedersenParams_p]
  norm_num

theorem sampleRange_room : rangeSlack 1009 < samplePedersenParams.pTag := by
  rw [rangeSlack, samplePedersenParams_pTag, secPStat]
  norm_num

theorem sampleRange_randomness : isInRange samplePedersenParams.pTag 7 = true := by
  rw [isInRange_iff, samplePedersenParams_pTag]
  norm_num

theorem sampleRange_witness : (0 : ℤ) ≤ 5 ∧ (5 : ℤ) < (1009 : ℕ) := by norm_num

theorem zero_lt_secPCom : 0 < secPCom := by decide

/-- Masks that are all zero. -/
theorem zeroMasks_drawn :
    (⟨fun _ => 0, fun _ => 0⟩ : RangeMasks t).Drawn samplePedersenParams 1009 := by
  intro i
  rw [isInRange_iff, samplePedersenParams_pTag, rangeSlack, secPStat]
  norm_num

theorem zeroMasks_fit (bit : Fin t → Bool) :
    (⟨fun _ => 0, fun _ => 0⟩ : RangeMasks t).Fits 1009 bit 5 := by
  intro i _
  rw [rangeSlack, secPStat]
  norm_num

/-- A proof of five is accepted whatever the verifier draws. -/
theorem rangePedersen_complete_sample :
    ∃ c π, samplePedersenParams.commit false samplePedersenParams.g
      samplePedersenParams.h 5 7 = .ok c ∧
    rangePedersenProve samplePedersenParams (fun _ _ => 255) 1009 c 5 7 [] 0
      ⟨fun _ => 0, fun _ => 0⟩ = .ok π ∧
      ∀ rho, rangePedersenVerify samplePedersenParams (fun _ _ => 255) 1009 c [] 0 rho π =
        .ok () := by
  obtain ⟨c, hc, -, -⟩ := samplePedersenParams.commit_eq false
    samplePedersenParams.g samplePedersenParams.h
    (by norm_num : (0 : ℤ) ≤ 5) (by norm_num : (0 : ℤ) ≤ 7)
  obtain ⟨hproof, -⟩ := rangePedersen_complete samplePedersenParams
    sampleRange_room sampleRange_witness
    sampleRange_randomness hc
  obtain ⟨π, hπ, hverify⟩ := hproof (fun _ _ => 255) [] 0 ⟨fun _ => 0, fun _ => 0⟩ zeroMasks_drawn
  exact ⟨c, π, hc, hπ, fun rho => (hverify rho).mpr (zeroMasks_fit _)⟩

/-- Two proofs of five open its commitment. -/
theorem rangePedersen_sound_sample : ∃ (c : ℤ) (π π' : RangePedersen) (j : Fin secPCom),
    AcceptedAt (fun rho => rangePedersenVerify samplePedersenParams
      (fun _ _ => 255) 1009 c [] 0 rho π) j ∧
    AcceptedAt (fun rho => rangePedersenVerify samplePedersenParams
      (fun _ _ => 0) 1009 c [] 0 rho π') j ∧
      |π.d j - π'.d j| < rangeSlack 1009 ∧
      (c : ZMod samplePedersenParams.p) =
        samplePedersenParams.opening (π.d j - π'.d j) (π.f j - π'.f j) := by
  obtain ⟨c, hc, -, -⟩ := samplePedersenParams.commit_eq false
    samplePedersenParams.g samplePedersenParams.h
    (by norm_num : (0 : ℤ) ≤ 5) (by norm_num : (0 : ℤ) ≤ 7)
  have hproof : ∀ O : RangeOracle, ∃ π,
      rangeTildes samplePedersenParams (⟨fun _ => 0, fun _ => 0⟩ : RangeMasks secPCom) =
        .ok π.cTilde ∧
      π.e = List.ofFn (O ⟨samplePedersenParams.p, 1009, samplePedersenParams.g,
      samplePedersenParams.h, c, π.cTilde, [], 0⟩) ∧
      AcceptedAt (fun rho => rangePedersenVerify samplePedersenParams O 1009 c [] 0 rho π)
        ⟨0, zero_lt_secPCom⟩ := by
    intro O
    obtain ⟨π, -, htildes, he, hverify⟩ := rangePedersen_honest sampleRange_room sampleRange_witness
      sampleRange_randomness hc O [] 0 zeroMasks_drawn
    refine ⟨π, htildes, he, fun _ => 0, fun i => if i = ⟨0, zero_lt_secPCom⟩ then 1 else
      0, (hverify _).mpr (zeroMasks_fit _), (hverify _).mpr (zeroMasks_fit _), fun i hi => ?_, ?_⟩
    · simp [hi]
    · decide
  obtain ⟨π, htildes, he, hacc⟩ := hproof fun _ _ => 255
  obtain ⟨π', htildes', he', hacc'⟩ := hproof fun _ _ => 0
  have htilde : π.cTilde = π'.cTilde := Except.ok.inj (htildes.symm.trans htildes')
  obtain ⟨hbound, hopen⟩ :=
    (rangePedersen_sound samplePedersenParams (by norm_num : 0 < 1009) c).1 _ _ [] [] 0 0 π π'
      ⟨0, zero_lt_secPCom⟩ hacc hacc'
    (by rw [htilde]) (by rw [he]; rfl) (by rw [he']; rfl)
  exact ⟨c, π, π', ⟨0, zero_lt_secPCom⟩, hacc, hacc', hbound, hopen⟩

end CbMpc
