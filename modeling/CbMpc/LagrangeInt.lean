import CbMpc.Barrett
import CbMpc.ModArith

/-!
# Lagrange coefficients of small pids

`lagrange_basis` for `int` pids computes in Montgomery form. Its numerator takes its factors from
one difference that moves from pid to pid and may be negative. Its denominator is a product of
integers, with the sign kept apart. It agrees with `lagrange_basis` for `bn_t` pids.
-/
namespace CbMpc

open WordArray Interpolation

/-- The entries that a loop up to `(int)l.size()` visits. -/
def counted {α : Type} (l : List α) : List α := l.take (BitVec.ofNat 32 l.length).toInt.toNat

/-- The difference of two values of type `int`. -/
def intSub (a b : ℤ) : Outcome ℤ :=
  if -intMax - 1 ≤ a - b ∧ a - b ≤ intMax then .ok (a - b) else throwing .overflow

/-- The functions of a `BN_MONT_CTX`, and what `BN_mod_inverse` leaves of an operand without an
inverse. -/
structure BnMontCtx where
  toMontgomery : ℤ → ℤ
  modMulMontgomery : ℤ → ℤ → ℤ
  fromMontgomery : ℤ → ℤ
  noInverse : ℤ → ℤ

/-- The loop variables of `lagrange_basis`. -/
structure BasisState where
  numerator : ℤ
  denominator : ℤ
  neg : Bool
  numDelta : ℤ
  old : ℤ

/-- The factor of the denominator without its sign, and the sign of the product. -/
def denomFactor (neg : Bool) (denomDelta : ℤ) : Outcome (ℤ × Bool) :=
  if denomDelta < 0 then do
    let factor ← intSub 0 denomDelta
    .ok (factor, !neg)
  else .ok (denomDelta, neg)

/-- The loop body of `lagrange_basis` for `int` pids. -/
def basisStepInt (ctx : BnMontCtx) (current : ℤ) (s : BasisState) (pid : ℤ) : Outcome BasisState :=
  if current = pid then .ok s
  else do
    cbAssert (decide (0 < pid))
    let denomDelta ← intSub current pid
    let factor ← denomFactor s.neg denomDelta
    let numDelta := s.numDelta - pid + s.old
    let numerator := ctx.modMulMontgomery s.numerator (ctx.toMontgomery numDelta)
    .ok ⟨numerator, s.denominator * factor.1, factor.2, numDelta, pid⟩

/-- `lagrange_basis` with the numerator and the denominator as results. -/
def lagrangeFractionInt (ctx : BnMontCtx) (q : ℕ) (x : ℤ) (pids : List ℤ)
    (current : ℤ) : Outcome (ℤ × ℤ) := do
  let s ← (counted pids).foldlM (basisStepInt ctx current) ⟨ctx.toMontgomery 1, 1, false, x, 0⟩
  let denominator := s.denominator.tmod q
  .ok (ctx.fromMontgomery s.numerator, if s.neg then q - denominator else denominator)

/-- `BN_mod_inverse`, whose failure is not looked at. -/
def bnModInverse (ctx : BnMontCtx) (q : ℕ) (a : ℤ) : ℤ :=
  (modInv q a).toOption.getD (ctx.noInverse a)

/-- `lagrange_basis` for `int` pids. -/
def lagrangeBasisInt (ctx : BnMontCtx) (q : ℕ) (x : ℤ) (pids : List ℤ)
    (current : ℤ) : Outcome ℤ := do
  let f ← lagrangeFractionInt ctx q x pids current
  .ok (f.1 * bnModInverse ctx q f.2 % q)

/-- The radix of the Montgomery form. -/
def montRadix (q : ℕ) : ℤ := 2 ^ (64 * wordCount 64 q)

/-- The Montgomery functions on operands of at most the words of the modulus. The results have a
sign of their own. -/
structure BnMontCtx.Lawful (ctx : BnMontCtx) (q : ℕ) : Prop where
  toMontgomery_lt : ∀ a : ℤ, |a| < montRadix q → |ctx.toMontgomery a| < montRadix q
  toMontgomery_cast : ∀ a : ℤ, |a| < montRadix q → (ctx.toMontgomery a : ZMod q) = a * montRadix q
  modMul_lt : ∀ a b : ℤ, |a| < montRadix q → |b| <
    montRadix q → |ctx.modMulMontgomery a b| < montRadix q
  modMul_cast : ∀ a b : ℤ, |a| < montRadix q → |b| < montRadix q →
    (ctx.modMulMontgomery a b : ZMod q) * montRadix q = a * b
  fromMontgomery_cast : ∀ a : ℤ, |a| < montRadix q →
    (ctx.fromMontgomery a : ZMod q) * montRadix q = a

/-- Positive pids of type `int` whose differences with `current` are of type `int` in both
directions. -/
structure IntPids (pids : List ℤ) (current : ℤ) : Prop where
  length_le : pids.length ≤ intMax
  pid_pos : ∀ p ∈ pids, 0 < p
  pid_le : ∀ p ∈ pids, p ≤ intMax
  current_le : current ≤ intMax
  neg_le_sub : ∀ p ∈ pids, -intMax ≤ current - p

/-- What the loop variables are after the pids `done`. -/
structure BasisInvariant (q : ℕ) (x current : ℤ) (done : List ℤ) (s : BasisState) : Prop where
  numerator_lt : |s.numerator| < montRadix q
  numerator_cast : (s.numerator : ZMod q) =
    montRadix q * ((done.filter (· ≠ current)).map (fun p : ℤ => (x : ZMod q) - (p : ZMod q))).prod
  denominator_pos : 0 < s.denominator
  denominator_eq : (if s.neg then -s.denominator else s.denominator) =
    ((done.filter (· ≠ current)).map (fun p => current - p)).prod
  numDelta_eq : s.numDelta = x - s.old

theorem counted_eq {α : Type} {l : List α} (h : l.length ≤ intMax) : counted l = l := by
  have hlen : (BitVec.ofNat 32 l.length).toInt = l.length := by
    rw [intMax] at h
    rw [BitVec.toInt_eq_toNat_cond, BitVec.toNat_ofNat, Nat.mod_eq_of_lt (by omega),
      if_pos (by omega)]
  rw [counted, hlen, Int.toNat_natCast, List.take_length]

theorem intSub_ok {a b : ℤ} (hlow : -intMax - 1 ≤ a - b) (hhigh : a - b ≤ intMax) :
    intSub a b = .ok (a - b) := by
  rw [intSub, if_pos ⟨hlow, hhigh⟩]

/-- The factor and the sign together are the difference. -/
theorem denomFactor_spec (neg : Bool) {d : ℤ} (hd : d ≠ 0) (hlow : -intMax ≤ d) :
    ∃ f, denomFactor neg d = .ok f ∧ 0 < f.1 ∧
      ∀ D : ℤ, (if f.2 then -(D * f.1) else D * f.1) = (if neg then -D else D) * d := by
  by_cases h : d < 0
  · have hsub : intSub 0 d = .ok (0 - d) := intSub_ok (by rw [intMax]; omega) (by omega)
    refine ⟨(0 - d, !neg), ?_, by omega, ?_⟩
    · rw [denomFactor, if_pos h, hsub, ok_bind]
    · intro D
      cases neg <;> simp
  · refine ⟨(d, neg), ?_, by omega, ?_⟩
    · rw [denomFactor, if_neg h]
    · intro D
      cases neg <;> simp

section Loop

variable {q : ℕ} {x current : ℤ} {ctx : BnMontCtx}

theorem montRadix_bounds (hq : isValidModulus q = true) :
    2 ^ 64 ≤ montRadix q ∧ q < montRadix q := by
  obtain ⟨k, hk, -, hlt, -⟩ := modulus_words hq
  have hword : (2 : ℕ) ^ 64 ≤ 2 ^ (64 * (k + 1)) := Nat.pow_le_pow_right (by norm_num) (by omega)
  rw [montRadix, hk]
  exact ⟨by exact_mod_cast hword, by exact_mod_cast hlt⟩

/-- The differences that are converted fit the words of the modulus. -/
theorem abs_sub_lt_montRadix (hq : isValidModulus q = true) (hx : isInRange q x = true)
    {pid : ℤ} (hpos : 0 < pid) (hle : pid ≤ intMax) : |x - pid| < montRadix q := by
  obtain ⟨hword, hlt⟩ := montRadix_bounds hq
  rw [isInRange_iff] at hx
  rw [intMax] at hle
  rw [abs_lt]
  omega

theorem isUnit_montRadix (hq : isValidModulus q = true) : IsUnit ((montRadix q : ℤ) : ZMod q) := by
  obtain ⟨-, -, hodd⟩ := (isValidModulus_iff q).mp hq
  have hcop : Nat.Coprime (2 ^ (64 * wordCount 64 q)) q :=
    (Nat.coprime_two_left.mpr (Nat.odd_iff.mpr hodd)).pow_left _
  have hunit := (ZMod.isUnit_iff_coprime _ q).mpr hcop
  rw [montRadix]
  push_cast at hunit ⊢
  exact hunit

/-- One pid. The old difference is replaced, so the new one is `x - pid` whatever came before. -/
theorem basisStepInt_spec (hq : isValidModulus q = true) (hctx : ctx.Lawful q)
    (hx : isInRange q x = true) {done : List ℤ} {s : BasisState}
    (h : BasisInvariant q x current done s) {pid : ℤ} (hpos : 0 < pid) (hle : pid ≤ intMax)
    (hcurrent : current ≤ intMax) (hsub : -intMax ≤ current - pid) :
    ∃ s', basisStepInt ctx current s pid = .ok s' ∧
    BasisInvariant q x current (done ++ [pid]) s' := by
  by_cases hc : current = pid
  · refine ⟨s, if_pos hc, ?_⟩
    have hfilter : (done ++ [pid]).filter (· ≠ current) = done.filter (· ≠ current) := by
      simp [hc]
    constructor
    · exact h.numerator_lt
    · rw [hfilter]
      exact h.numerator_cast
    · exact h.denominator_pos
    · rw [hfilter]
      exact h.denominator_eq
    · exact h.numDelta_eq
  · have hfilter : (done ++ [pid]).filter (· ≠ current) = done.filter (· ≠ current) ++ [pid] := by
      have hne : pid ≠ current := fun he => hc he.symm
      simp [hne]
    have hdiff : intSub current pid = .ok (current - pid) := intSub_ok (by omega) (by omega)
    obtain ⟨f, hf, hfpos, hfsign⟩ := denomFactor_spec s.neg (sub_ne_zero.mpr hc) hsub
    have hdelta : s.numDelta - pid + s.old = x - pid := by
      rw [h.numDelta_eq]
      ring
    have hsmall := abs_sub_lt_montRadix hq hx hpos hle
    have hmont := hctx.toMontgomery_lt _ hsmall
    refine ⟨⟨ctx.modMulMontgomery s.numerator (ctx.toMontgomery (x - pid)), s.denominator * f.1,
      f.2, x - pid, pid⟩, ?_, ?_⟩
    · rw [basisStepInt, if_neg hc, decide_eq_true hpos, cbAssert_true, ok_bind, hdiff, ok_bind, hf,
        ok_bind, hdelta]
    · constructor
      · exact hctx.modMul_lt _ _ h.numerator_lt hmont
      · have hmul := hctx.modMul_cast _ _ h.numerator_lt hmont
        rw [hctx.toMontgomery_cast _ hsmall, h.numerator_cast] at hmul
        rw [hfilter, List.map_append, List.prod_append, List.map_singleton, List.prod_singleton]
        apply (isUnit_montRadix hq).mul_right_cancel
        rw [hmul, Int.cast_sub]
        ring
      · exact mul_pos h.denominator_pos hfpos
      · rw [hfilter, List.map_append, List.prod_append, List.map_singleton, List.prod_singleton,
          ← h.denominator_eq]
        exact hfsign _
      · rfl

theorem IntPids.tail {pid : ℤ} {pids : List ℤ} (h : IntPids (pid :: pids) current) :
    IntPids pids current where
  length_le := (Nat.le_succ _).trans h.length_le
  pid_pos p hp := h.pid_pos p (List.mem_cons_of_mem _ hp)
  pid_le p hp := h.pid_le p (List.mem_cons_of_mem _ hp)
  current_le := h.current_le
  neg_le_sub p hp := h.neg_le_sub p (List.mem_cons_of_mem _ hp)

theorem basisLoopInt_spec (hq : isValidModulus q = true) (hctx : ctx.Lawful q)
    (hx : isInRange q x = true) {pids : List ℤ} (hpids : IntPids pids current) {done : List ℤ}
    {s : BasisState} (h : BasisInvariant q x current done s) :
    ∃ s', pids.foldlM (basisStepInt ctx current) s = .ok s' ∧
    BasisInvariant q x current (done ++ pids) s' := by
  induction pids generalizing done s with
  | nil => exact ⟨s, rfl, by rwa [List.append_nil]⟩
  | cons pid pids ih =>
    obtain ⟨t, ht, hinv⟩ := basisStepInt_spec hq hctx hx h (hpids.pid_pos pid List.mem_cons_self)
      (hpids.pid_le pid List.mem_cons_self) hpids.current_le
        (hpids.neg_le_sub pid List.mem_cons_self)
    rw [List.foldlM_cons, ht, ok_bind, List.append_cons]
    exact ih hpids.tail hinv

/-- The numerator and the denominator, as residues. -/
theorem lagrangeFractionInt_spec (hq : isValidModulus q = true) (hctx : ctx.Lawful q)
    (hx : isInRange q x = true) {pids : List ℤ} (hpids : IntPids pids current) :
    ∃ f, lagrangeFractionInt ctx q x pids current = .ok f ∧
      (f.1 : ZMod q) =
        ((pids.filter (· ≠ current)).map (fun p : ℤ => (x : ZMod q) - (p : ZMod q))).prod ∧
      (f.2 : ZMod q) =
        ((pids.filter (· ≠ current)).map (fun p : ℤ =>
        (current : ZMod q) - (p : ZMod q))).prod := by
  have hone : |(1 : ℤ)| < montRadix q := by
    have hword := (montRadix_bounds hq).1
    rw [abs_one]
    omega
  have hinit : BasisInvariant q x current [] ⟨ctx.toMontgomery 1, 1, false, x, 0⟩ := by
    constructor
    · exact hctx.toMontgomery_lt 1 hone
    · simpa using hctx.toMontgomery_cast 1 hone
    · exact one_pos
    · rfl
    · exact (sub_zero x).symm
  obtain ⟨s, hs, hinv⟩ := basisLoopInt_spec hq hctx hx hpids hinit
  rw [List.nil_append] at hinv
  refine ⟨(ctx.fromMontgomery s.numerator, if s.neg then q - s.denominator.tmod q else
    s.denominator.tmod q), ?_, ?_, ?_⟩
  · rw [lagrangeFractionInt, counted_eq hpids.length_le, hs, ok_bind]
  · have hfrom := hctx.fromMontgomery_cast _ hinv.numerator_lt
    rw [hinv.numerator_cast, mul_comm] at hfrom
    exact (isUnit_montRadix hq).mul_left_cancel hfrom
  · have hmap : (fun p : ℤ => (current : ZMod q) - (p : ZMod q)) = Int.castRingHom (ZMod q) ∘
        fun p => current - p := by
      funext p
      exact (Int.cast_sub current p).symm
    have hmod : ((s.denominator.tmod q : ℤ) : ZMod q) = s.denominator := by
      rw [Int.tmod_eq_emod_of_nonneg hinv.denominator_pos.le, cast_emod]
    rw [hmap, ← List.map_map, ← map_list_prod, ← hinv.denominator_eq]
    cases s.neg with
    | false => exact hmod
    | true =>
      simp only [if_true, Int.cast_sub, Int.cast_natCast, ZMod.natCast_self, zero_sub, hmod,
        eq_intCast, Int.cast_neg]

end Loop

/-- The version for `int` pids computes the interpolation weight, as the version for `bn_t` pids
does. -/
theorem lagrangeBasisInt_eq {q : ℕ} [Fact q.Prime] (hq : isValidModulus q = true)
    {ctx : BnMontCtx} (hctx : ctx.Lawful q) {x : ℤ} (hx : isInRange q x = true) {pids : List ℤ}
    {current : ℤ} (hpids : IntPids pids current)
    (hinj : ∀ p ∈ pids, (p : ZMod q) = current → p = current) :
    lagrangeBasisInt ctx q x pids current =
      .ok (residue (weight (nodesOf q pids) (current : ZMod q) x)) := by
  obtain ⟨f, hf, hnumerator, hdenominator⟩ := lagrangeFractionInt_spec hq hctx hx hpids
  have hne : (f.2 : ZMod q) ≠ 0 := by
    rw [hdenominator]
    exact prod_sub_ne_zero hinj
  have hinverse : bnModInverse ctx q f.2 = residue (f.2 : ZMod q)⁻¹ := by
    rw [bnModInverse, modInv_eq hne]
    rfl
  rw [lagrangeBasisInt, hf, ok_bind, hinverse, emod_eq_residue, Int.cast_mul, cast_residue,
    ← div_eq_mul_inv, hnumerator, hdenominator, prod_div_prod_eq_weight x hinj]

/-- For distinct pids the weight is the value of the Lagrange polynomial of `current`. -/
theorem weight_eq_eval_lagrange {q : ℕ} [Fact q.Prime] (x : ℤ) {pids : List ℤ}
    (hnd : pids.Nodup) {current : ℤ} (hinj : ∀ p ∈ pids, (p : ZMod q) = current → p = current) :
    weight (nodesOf q pids) (current : ZMod q) x =
      (Lagrange.basis pids.toFinset (fun p : ℤ => (p : ZMod q)) current).eval (x : ZMod q) := by
  have hothers : pids.toFinset.erase current = (pids.filter (· ≠ current)).toFinset := by
    ext p
    simp [and_comm]
  rw [← prod_div_prod_eq_weight x hinj, prod_map_div, Lagrange.basis, hothers, Polynomial.eval_prod,
    List.prod_toFinset _ (hnd.filter _)]
  congr 1
  refine List.map_congr_left fun p _ => ?_
  simp [Lagrange.basisDivisor, div_eq_inv_mul]

/-- A residue of `a * c` with the sign of `a`. -/
def signedResidue (q : ℕ) (a c : ℤ) : ℤ := a.sign * (|a| * c % q)

/-- Montgomery's method on magnitudes, with the sign of the operands. -/
def signedMontCtx (q : ℕ) : BnMontCtx where
  toMontgomery a := signedResidue q a (montRadix q)
  modMulMontgomery a b := signedResidue q (a * b) (Int.gcdA (montRadix q) q)
  fromMontgomery a := signedResidue q a (Int.gcdA (montRadix q) q)
  noInverse a := a

theorem cast_signedResidue (q : ℕ) (a c : ℤ) : (signedResidue q a c : ZMod q) = a * c := by
  rw [signedResidue, Int.cast_mul, cast_emod, Int.cast_mul, ← mul_assoc, ← Int.cast_mul,
    Int.sign_mul_abs]

theorem abs_signedResidue_lt {q : ℕ} (hq : 0 < q) (a c : ℤ) : |signedResidue q a c| < q := by
  have hnonneg := Int.emod_nonneg (|a| * c) (by omega : (q : ℤ) ≠ 0)
  have hlt := Int.emod_lt_of_pos (|a| * c) (by omega : (0 : ℤ) < q)
  rw [signedResidue, abs_mul, abs_of_nonneg hnonneg]
  rcases eq_or_ne a 0 with rfl | ha
  · rw [Int.sign_zero, abs_zero, zero_mul]
    omega
  · rw [Int.abs_sign_of_ne_zero ha, one_mul]
    exact hlt

theorem signedMontCtx_lawful {q : ℕ} (hq : isValidModulus q = true) :
    (signedMontCtx q).Lawful q := by
  obtain ⟨h1, -, hodd⟩ := (isValidModulus_iff q).mp hq
  have hfits : ∀ a c : ℤ, |signedResidue q a c| < montRadix q := fun a c =>
    (abs_signedResidue_lt (by omega) a c).trans (montRadix_bounds hq).2
  have hinverse : ((Int.gcdA (montRadix q) q : ℤ) : ZMod q) * montRadix q = 1 := by
    have hgcd : Int.gcd (montRadix q) q = 1 := by
      have hcop : Nat.Coprime (2 ^ (64 * wordCount 64 q)) q :=
        (Nat.coprime_two_left.mpr (Nat.odd_iff.mpr hodd)).pow_left _
      rw [montRadix]
      exact_mod_cast hcop
    have hbezout := congrArg (Int.cast : ℤ → ZMod q) (Int.gcd_eq_gcd_ab (montRadix q) q)
    rw [hgcd] at hbezout
    push_cast at hbezout
    rw [ZMod.natCast_self, zero_mul, add_zero] at hbezout
    rw [mul_comm]
    exact hbezout.symm
  constructor
  · intro a _
    exact hfits a _
  · intro a _
    exact cast_signedResidue q a _
  · intro a b _ _
    exact hfits _ _
  · intro a b _ _
    rw [signedMontCtx, cast_signedResidue, mul_assoc, hinverse, mul_one, Int.cast_mul]
  · intro a _
    rw [signedMontCtx, cast_signedResidue, mul_assoc, hinverse, mul_one]

end CbMpc
