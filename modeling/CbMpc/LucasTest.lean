import Mathlib.Data.List.Prime
import Mathlib.NumberTheory.LucasPrimality

/-!
# Lucas' test with the powers computed

Powers modulo a number by squaring and multiplying, and Lucas' test for a number whose predecessor
is given as a product of primes. The conditions of the test are computed, so a list of certificates,
each over the numbers before it, certifies a large prime from small ones.
-/
namespace LucasTest

/-- A power modulo `m`, over the `bits` low bits of the exponent. -/
def powMod (m : ℕ) : ℕ → ℕ → ℕ → ℕ
  | 0, _, _ => 1
  | bits + 1, a, n =>
    if n % 2 = 1 then powMod m bits (a * a % m) (n / 2) * a % m else
      powMod m bits (a * a % m) (n / 2)

theorem cast_powMod (m : ℕ) {bits n : ℕ} (hn : n < 2 ^ bits) (a : ℕ) :
    (powMod m bits a n : ZMod m) = (a : ZMod m) ^ n := by
  induction bits generalizing a n with
  | zero =>
    obtain rfl : n = 0 := by omega
    rw [powMod, Nat.cast_one, pow_zero]
  | succ bits ih =>
    have hhalf : n / 2 < 2 ^ bits := by
      rw [pow_succ] at hn
      omega
    have hsq : ((a * a % m : ℕ) : ZMod m) ^ (n / 2) = (a : ZMod m) ^ (2 * (n / 2)) := by
      rw [ZMod.natCast_mod, Nat.cast_mul, ← sq, ← pow_mul]
    have hdiv := Nat.div_add_mod n 2
    rw [powMod]
    split_ifs with hodd
    · rw [ZMod.natCast_mod, Nat.cast_mul, ih hhalf, hsq, ← pow_succ]
      congr 1
      omega
    · rw [ih hhalf, hsq]
      congr 1
      omega

/-- Lucas' test. The factors of `p - 1` are listed as often as they occur. -/
theorem prime_of_powMod {p : ℕ} (bits a : ℕ) (factors : List ℕ)
    (hprime : ∀ r ∈ factors, r.Prime) (hp : 1 < p) (hbits : p < 2 ^ bits)
    (hprod : factors.prod = p - 1) (hone : powMod p bits a (p - 1) = 1)
    (hne : ∀ r ∈ factors, powMod p bits a ((p - 1) / r) % p ≠ 1) : p.Prime := by
  have hcast : ∀ n, n < p → (powMod p bits a n : ZMod p) = (a : ZMod p) ^ n := fun n hn =>
    cast_powMod p (hn.trans hbits) a
  refine lucas_primality p (a : ZMod p) ?_ ?_
  · rw [← hcast _ (by omega), hone, Nat.cast_one]
  · intro r hr hdvd hpow
    rw [← hprod] at hdvd
    obtain ⟨f, hf, hrf⟩ := (Prime.dvd_prod_iff hr.prime).mp hdvd
    obtain rfl : r = f := (Nat.prime_dvd_prime_iff_eq hr (hprime f hf)).mp hrf
    have hlt : (p - 1) / r < p := (Nat.div_le_self _ _).trans_lt (by omega)
    have hmod : ((powMod p bits a ((p - 1) / r) : ℕ) : ZMod p) = ((1 : ℕ) : ZMod p) := by
      rw [hcast _ hlt, hpow, Nat.cast_one]
    rw [ZMod.natCast_eq_natCast_iff', Nat.mod_eq_of_lt hp] at hmod
    exact hne r hf hmod

/-- A number, a witness and the factors of the number's predecessor. -/
structure Certificate where
  p : ℕ
  a : ℕ
  factors : List ℕ

/-- The test of one certificate over the numbers that are known to be prime. -/
def Certificate.check (bits : ℕ) (known : List ℕ) (c : Certificate) : Bool :=
  c.factors.all (known.contains ·) && decide (1 < c.p) && decide (c.p < 2 ^ bits) &&
    decide (c.factors.prod = c.p - 1) &&
    decide (powMod c.p bits c.a (c.p - 1) = 1) && c.factors.all fun r =>
      decide (powMod c.p bits c.a ((c.p - 1) / r) % c.p ≠ 1)

/-- The test of a list, where each certificate adds its number to the known ones. -/
def checks (bits : ℕ) : List ℕ → List Certificate → Bool
  | _, [] => true
  | known, c :: cs => c.check bits known && checks bits (c.p :: known) cs

theorem Certificate.prime {bits : ℕ} {known : List ℕ}
    (hknown : ∀ r ∈ known, r.Prime) {c : Certificate}
    (h : c.check bits known = true) : c.p.Prime := by
  simp only [Certificate.check, Bool.and_eq_true, List.all_eq_true, decide_eq_true_eq,
    List.contains_iff_mem] at h
  obtain ⟨⟨⟨⟨⟨hfactors, hp⟩, hbits⟩, hprod⟩, hone⟩, hne⟩ := h
  exact prime_of_powMod bits c.a c.factors (fun r hr =>
    hknown r (hfactors r hr)) hp hbits hprod hone hne

theorem prime_of_checks {bits : ℕ} {known : List ℕ}
    (hknown : ∀ r ∈ known, r.Prime) {cs : List Certificate} (h : checks bits known cs = true) :
    ∀ c ∈ cs, c.p.Prime := by
  induction cs generalizing known with
  | nil => simp
  | cons c cs ih =>
    rw [checks, Bool.and_eq_true] at h
    have hc := Certificate.prime hknown h.1
    intro c' hc'
    rcases List.mem_cons.mp hc' with rfl | hmem
    · exact hc
    · exact ih (List.forall_mem_cons.mpr ⟨hc, hknown⟩) h.2 c' hmem

end LucasTest
