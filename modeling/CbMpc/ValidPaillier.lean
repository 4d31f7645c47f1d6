import CbMpc.SmallPrimes
import CbMpc.TotientInverse
import CbMpc.ZkTwoPaillier

/-!
# Validity of a Paillier modulus

`valid_paillier_t` and `valid_paillier_interactive_t`: the prover takes `N`-th roots of the
challenge values, and the verifier raises them again. A modulus that shares a prime with its
totient has few `N`-th powers among its units.
-/
namespace CbMpc

/-- `zk_flag`. -/
inductive ZkFlag where
  | unverified | verified | skip
  deriving DecidableEq, Repr

/-- `param_t::alpha`. -/
def paillierAlpha : ℕ := 2 ^ logAlpha

/-- `paillier_non_interactive_param_t::t`. -/
def nonInteractiveReps : ℕ := (secPCom + logAlpha - 1) / logAlpha

/-- The trial division, unless a flag says that it was done or is not wanted. -/
def checkSmallFactors (N : ℕ) (noSmallFactors : ZkFlag) : Outcome ZkFlag :=
  if noSmallFactors = .unverified then do
    checkIntegerWithSmallPrimes N paillierAlpha
    .ok .verified
  else .ok noSmallFactors

/-- An array filled by a loop. -/
def fillArray {t : ℕ} (f : Fin t → Outcome ℤ) : Outcome (Fin t → ℤ) := do
  let l ← (List.finRange t).mapM f
  .ok fun i => l.getD i 0

variable {t N : ℕ}

theorem fillArray_eq {f : Fin t → Outcome ℤ} {g : Fin t → ℤ} (h : ∀ i, f i = .ok (g i)) :
    fillArray f = .ok g := by
  have hmap : (List.finRange t).mapM f = .ok ((List.finRange t).map g) := by
    generalize List.finRange t = l
    induction l with
    | nil => rfl
    | cons i l ih => rw [List.mapM_cons, h i, ok_bind, ih, ok_bind]; rfl
  rw [fillArray, hmap, ok_bind]
  refine congrArg Except.ok (funext fun i => ?_)
  rw [List.getD, List.getElem?_map, List.getElem?_eq_getElem (by simp)]
  simp

/-- Reduced and coprime to the modulus, as the draws that the proof is about. -/
def IsUnitMod (N : ℕ) (rho : ℤ) : Prop := isInRange N rho = true ∧ Int.gcd rho N = 1

/-- Both factors of the sample modulus are above the bound. -/
theorem alpha_lt_factor {p : ℕ} (hprime : p.Prime)
    (hdvd : p ∣ samplePaillierKey.N) : paillierAlpha < p := by
  have hq : paillierAlpha < samplePaillierKey.q := by
    unfold samplePaillierKey
    decide +kernel
  rcases (Nat.Prime.dvd_mul hprime).mp hdvd with h | h
  · rw [(Nat.prime_dvd_prime_iff_eq hprime samplePaillierKey.prime_p).mp h]
    exact hq.trans samplePaillierKey.lt
  · rwa [(Nat.prime_dvd_prime_iff_eq hprime samplePaillierKey.prime_q).mp h]

/-- The number two is a unit modulo every odd number above it. -/
theorem isUnitMod_two (h2 : 2 < N) (hodd : N % 2 = 1) : IsUnitMod N 2 := by
  refine ⟨(isInRange_iff _).mpr ⟨by norm_num, by omega⟩, ?_⟩
  rw [show (2 : ℤ) = ((2 : ℕ) : ℤ) by rfl, Int.gcd_natCast_natCast]
  exact Nat.coprime_two_left.mpr (Nat.odd_iff.mpr hodd)

end CbMpc
