import CbMpc.HornerPoly
import CbMpc.LucasTest

/-!
# The polynomial helpers together

One statement about the versions of `lagrange_basis` and of `horner_poly`, for every prime that is a
modulus, and a prime for which the versions of `horner_poly` on words leave it.
-/
namespace CbMpc

open WordArray Uint256 Interpolation LucasTest

/-- What is asked of the helpers for one prime. -/
structure HelpersAgree (q : ℕ) [Fact q.Prime] : Prop where
  basis : ∀ (ctx : BnMontCtx) (x : ℤ) (pids : List ℤ) (current : ℤ),
    ctx.Lawful q → isInRange q x = true →
    IntPids pids current → pids.Nodup → (∀ p ∈ pids, (p : ZMod q) = current → p = current) →
    lagrangeBasisInt ctx q x pids current = lagrangeBasis q x pids current ∧
      lagrangeBasis q x pids current =
        .ok (residue ((Lagrange.basis pids.toFinset (fun p : ℤ => (p : ZMod q)) current).eval
          (x : ZMod q)))
  bn : ∀ (w : List (List Limb)) (xw : List Limb) (a : List (ZMod q)) (x : ZMod q),
    a ≠ [] → a.length ≤ intMax →
    List.Forall₂ WordsOf w a → WordsOf xw x → LosesNoWord a x →
    ∃ r, hornerPolyWords q w xw = .ok r ∧ WordsOf r (horner a x)
  vartime : ∀ (a : List (ZMod q)) (x : ZMod q), a ≠ [] → a.length ≤ intMax →
    hornerPolyVartime q (a.map residue) (residue x) = .ok (residue (horner a x))
  bn256 : Modulus256 q → ∀ (w : List Uint256) (xw : Uint256) (a : List (ZMod q)) (x : ZMod q),
    a ≠ [] →
    a.length ≤ intMax → List.Forall₂ Words256Of w a → Words256Of xw x → LosesNoWord a x →
    ∃ r, hornerPoly256 (Bn256Mod.make q) w xw = .ok r ∧ Words256Of r (horner a x)
  point : ∀ (E : Type) [AddCommGroup E] [Module (ZMod q) E] (curve : Curve q E)
    (a : List (ZMod q)) (x : ZMod q), a ≠ [] →
    a.length ≤ intMax →
    hornerPolyPoint curve (a.map (· • curve.generator)) (residue x) =
      .ok (horner a x • curve.generator)
  smallVartime : ∀ (E : Type) [AddCommGroup E] [Module (ZMod q) E] (curve : Curve q E)
    (a : List (ZMod q)) (x : BitVec 32),
    a ≠ [] → a.length ≤ intMax →
    hornerPolySmallVartime (a.map (· • curve.generator)) x =
      .ok (horner a (x.toInt : ZMod q) • curve.generator)

/-- The versions of `lagrange_basis` agree, and the versions of `horner_poly` evaluate one
polynomial. -/
theorem polynomial_helpers_agree (q : ℕ) [Fact q.Prime]
    (hq : isValidModulus q = true) : HelpersAgree q := by
  have hscaled : ∀ {E : Type} [AddCommGroup E] [Module (ZMod q) E] (G : E)
      (a : List (ZMod q)) (x : ZMod q),
      horner (a.map (· • G)) x = horner a x • G := fun G a x =>
        horner_map (LinearMap.toSpanSingleton (ZMod q) _ G) a x
  constructor
  · intro ctx x pids current hctx hx hpids hnd hinj
    have hint := lagrangeBasisInt_eq hq hctx hx hpids hinj
    have hbn := lagrangeBasis_eq x current pids hpids.pid_pos hinj
    refine ⟨hint.trans hbn.symm, ?_⟩
    rw [hbn, weight_eq_eval_lagrange x hnd hinj]
  · intro w xw a x hne hlen hw hx hloses
    exact hornerPolyWords_spec hq hw hne hlen hx hloses
  · intro a x hne hlen
    exact hornerPolyVartime_eq hne hlen x
  · intro hm w xw a x hne hlen hw hx hloses
    exact hornerPoly256_spec hm hw hne hlen hx hloses
  · intro E _ _ curve a x hne hlen
    have hpoint := @hornerPolyPoint_eq q E _ _ _ curve
      (a.map (· • curve.generator)) (by simpa using hne)
      (by simpa using hlen) (residue x) (isInRange_residue x)
    rw [hpoint, cast_residue, hscaled]
  · intro E _ _ curve a x hne hlen
    have hpoint := @hornerPolySmallVartime_eq q E _ _ _
      (a.map (· • curve.generator)) (by simpa using hne)
      (by simpa using hlen) x
    rw [hpoint, hscaled]

/-- A prime of four full words for which a product loses a word. -/
def losingPrime : ℕ := 2 ^ 256 - 2 ^ 128 + 250690 * 2 ^ 40 + 1

def losingFactors : List ℕ :=
  [2, 3, 5, 7, 19, 23, 47, 59, 83, 211, 337, 439, 1039, 2441, 4957, 6091, 6763, 30307, 52807,
    86939, 309311]

def losingCertificates : List Certificate :=
  [⟨5567599, 6, [2, 3, 3, 309311]⟩,
    ⟨30185773, 2, [2, 2, 3, 83, 30307]⟩,
    ⟨2936841404041, 11, [2, 2, 2, 3, 3, 5, 47, 211, 337, 2441]⟩,
    ⟨15142195368702097, 7, [2, 2, 2, 2, 3, 23, 59, 439, 6091, 86939]⟩,
    ⟨475642338721122115324200361, 7, [2, 2, 2, 3, 5, 4957, 52807, 15142195368702097]⟩,
    ⟨469353734260684618299944811395225923757137, 5,
    [2, 2, 2, 2, 3, 7, 2936841404041, 475642338721122115324200361]⟩,
    ⟨losingPrime, 3, List.replicate 41 2 ++
      [5, 19, 1039, 6763, 5567599, 30185773, 469353734260684618299944811395225923757137]⟩]

theorem losingFactors_prime : ∀ r ∈ losingFactors, r.Prime := by
  simp only [losingFactors, List.forall_mem_cons]
  norm_num

theorem losingPrime_prime : losingPrime.Prime := by
  have hchecks : checks 256 losingFactors losingCertificates = true := by decide +kernel
  have hmem : losingPrime ∈ losingCertificates.map Certificate.p := by simp [losingCertificates]
  obtain ⟨c, hc, hp⟩ := List.mem_map.mp hmem
  exact hp ▸ prime_of_checks losingFactors_prime hchecks c hc

instance fact_losingPrime : Fact losingPrime.Prime := ⟨losingPrime_prime⟩

theorem losingPrime_modulus256 : Modulus256 losingPrime := ⟨by decide, by decide, by decide⟩

/-- The factors are `losingPrime - 2 ^ 128` and `losingPrime - 1`. -/
theorem losingPrime_dropped :
    Dropped losingPrime ((losingPrime - 2 ^ 128) * (losingPrime - 1)) := by
  decide +kernel

theorem losingPrime_valid : isValidModulus losingPrime = true := losingPrime_modulus256.valid

theorem losingFactors_lt : losingPrime - 2 ^ 128 < losingPrime ∧ losingPrime - 1 < losingPrime ∧
    losingPrime < 2 ^ 256 := by
  decide

theorem words256Of_fromNat {n : ℕ} (hn : n < losingPrime) :
    Words256Of (fromNat n) (n : ZMod losingPrime) := by
  constructor
  rw [value_fromNat (hn.trans losingFactors_lt.2.2), ZMod.val_natCast_of_lt hn]

/-- The polynomial `1 + (losingPrime - 2 ^ 128) * X` at `losingPrime - 1`, over `bn_t` and over
`bn256_t`. -/
theorem horner_loses_word :
    (¬∃ r, hornerPolyWords losingPrime [limbs 1, limbs (losingPrime - 2 ^ 128)]
      (limbs (losingPrime - 1)) = .ok r ∧
      WordsOf r (horner [((1 : ℕ) : ZMod losingPrime),
        ((losingPrime - 2 ^ 128 : ℕ) : ZMod losingPrime)]
        ((losingPrime - 1 : ℕ) : ZMod losingPrime))) ∧
    ¬∃ r, hornerPoly256 (Bn256Mod.make losingPrime) [fromNat 1, fromNat (losingPrime - 2 ^ 128)]
        (fromNat (losingPrime - 1)) = .ok r ∧
      Words256Of r (horner [((1 : ℕ) : ZMod losingPrime),
        ((losingPrime - 2 ^ 128 : ℕ) : ZMod losingPrime)]
        ((losingPrime - 1 : ℕ) : ZMod losingPrime)) := by
  obtain ⟨hb, hx, -⟩ := losingFactors_lt
  have hone := losingPrime_prime.one_lt
  have hlost := losingPrime_dropped
  rw [← ZMod.val_natCast_of_lt hb, ← ZMod.val_natCast_of_lt hx] at hlost
  constructor
  · rintro ⟨r, hr, hval⟩
    exact not_dropped_of_hornerPolyWords losingPrime_valid (wordsOf_limbs hone) (wordsOf_limbs hb)
      (wordsOf_limbs hx) hr hval
      hlost
  · rintro ⟨r, hr, hval⟩
    exact not_dropped_of_hornerPoly256 losingPrime_modulus256
      (words256Of_fromNat hone) (words256Of_fromNat hb)
      (words256Of_fromNat hx) hr hval hlost

/-- Pids that are negative or agree modulo the prime, and a product that loses a word. -/
theorem polynomial_helpers_limits :
    ((∃ v, lagrangeBasisInt (signedMontCtx 7) 7 0 [-1] (-1) = .ok v) ∧
      lagrangeBasis 7 0 [-1] (-1) = throwing .assertionFailed) ∧
    lagrangeBasisInt (signedMontCtx 7) 7 0 [-1, 2] 2 = throwing .assertionFailed ∧
    lagrangeBasis 3 0 [1, 4] 1 = throwing .assertionFailed ∧
    ¬∃ r, hornerPolyWords losingPrime [limbs 1, limbs (losingPrime - 2 ^ 128)]
      (limbs (losingPrime - 1)) = .ok r ∧
      WordsOf r (horner [((1 : ℕ) : ZMod losingPrime),
        ((losingPrime - 2 ^ 128 : ℕ) : ZMod losingPrime)]
        ((losingPrime - 1 : ℕ) : ZMod losingPrime)) :=
  ⟨⟨⟨_, rfl⟩, rfl⟩, rfl, rfl, horner_loses_word.1⟩

theorem polynomial_helpers_sample : isValidModulus losingPrime = true ∧
    lagrangeBasisInt (signedMontCtx losingPrime) losingPrime 0 [1, 2] 1 =
      lagrangeBasis losingPrime 0 [1, 2] 1 ∧
    (∃ r, hornerPolyWords losingPrime [limbs 1, limbs 2] (limbs 3) = .ok r ∧
      WordsOf r (horner [((1 : ℕ) : ZMod losingPrime), ((2 : ℕ) : ZMod losingPrime)]
        ((3 : ℕ) : ZMod losingPrime))) ∧
    (∃ r, hornerPoly256 (Bn256Mod.make losingPrime) [fromNat 1, fromNat 2] (fromNat 3) = .ok r ∧
      Words256Of r (horner [((1 : ℕ) : ZMod losingPrime), ((2 : ℕ) : ZMod losingPrime)]
        ((3 : ℕ) : ZMod losingPrime))) := by
  have hthree : 3 < losingPrime := by decide
  have hloses : LosesNoWord [((1 : ℕ) : ZMod losingPrime), ((2 : ℕ) : ZMod losingPrime)]
      ((3 : ℕ) : ZMod losingPrime) := by
    rw [losesNoWord_pair, ZMod.val_natCast_of_lt (by omega), ZMod.val_natCast_of_lt hthree]
    exact not_dropped_of_lt (by decide)
  have hpids : IntPids [1, 2] 1 := by
    constructor <;> decide
  have hinj : ∀ p ∈ ([1, 2] : List ℤ),
      (p : ZMod losingPrime) = ((1 : ℤ) : ZMod losingPrime) → p = 1 := by
    intro p hp h
    have hrange : isInRange losingPrime p = true := by
      rcases List.mem_pair.mp hp with rfl | rfl <;> decide
    exact eq_of_isInRange hrange (by decide) h
  have h := polynomial_helpers_agree losingPrime losingPrime_valid
  refine ⟨losingPrime_valid, ?_, ?_, ?_⟩
  · exact (h.basis _ 0 [1, 2] 1 (signedMontCtx_lawful losingPrime_valid) (by decide)
      hpids (by decide) hinj).1
  · exact h.bn _ _ _ _ (List.cons_ne_nil _ _) (by decide)
      (.cons (wordsOf_limbs (by omega)) (.cons (wordsOf_limbs (by omega)) .nil))
        (wordsOf_limbs hthree) hloses
  · exact h.bn256 losingPrime_modulus256 _ _ _ _ (List.cons_ne_nil _ _) (by decide)
      (.cons (words256Of_fromNat (by omega)) (.cons (words256Of_fromNat (by omega)) .nil))
        (words256Of_fromNat hthree) hloses

end CbMpc
