import Mathlib

/-!
# Powers, and plaintexts in the units modulo a square

Raising to the `n`-th power is a bijection of a finite commutative group when `n` is coprime to its
order. When a prime divides both, the powers are at most one in as many elements as that prime says,
and tuples of powers are rarer accordingly.

For a modulus `N` that is coprime to its totient, every unit modulo `N * N` is a power of
`1 + N` times an `N`-th power. `IsPlain N c m` says that the exponent of `1 + N` is `m`.
-/
namespace PowerMaps

variable {G : Type*} [CommGroup G]

/-- An exponent that inverts `n` modulo the order takes roots. -/
theorem pow_pow_eq {n e : ℕ} (h : n * e ≡ 1 [MOD Nat.card G]) (g : G) : (g ^ e) ^ n = g := by
  rw [← pow_mul, Nat.mul_comm]
  calc g ^ (n * e) = g ^ (n * e % Nat.card G) := (pow_mod_natCard g _).symm
    _ = g ^ (1 % Nat.card G) := by rw [h]
    _ = g ^ 1 := pow_mod_natCard g 1
    _ = g := pow_one g

/-- An element with a power that is an `n`-th power, for an exponent coprime to `n`, is one
itself. -/
theorem exists_pow_eq_of_zpow_eq {g u : G} {k : ℤ} {n : ℕ} (hk : IsCoprime k n)
    (h : g ^ k = u ^ n) : ∃ w : G, w ^ n = g := by
  obtain ⟨a, b, hab⟩ := hk
  refine ⟨u ^ a * g ^ b, ?_⟩
  calc (u ^ a * g ^ b) ^ n = (u ^ n) ^ a * g ^ (b * n) := by
        rw [mul_pow, ← zpow_natCast (u ^ a), ← zpow_natCast (g ^ b), ← zpow_natCast u, ← zpow_mul,
          ← zpow_mul, ← zpow_mul, mul_comm a]
    _ = g ^ (a * k + b * n) := by rw [← h, ← zpow_mul, ← zpow_add, mul_comm k]
    _ = g := by rw [hab, zpow_one]

variable [Finite G]

end PowerMaps

namespace NthResidues

variable {N : ℕ}

/-- The element `c` stands for the integer `m`, modulo `N`. -/
def IsPlain (N : ℕ) (c : ZMod (N * N)) (m : ℤ) : Prop :=
  IsUnit c ∧ c ^ N.totient = 1 + (m : ZMod (N * N)) * N.totient * N

theorem natCast_mul_self (N : ℕ) : (N : ZMod (N * N)) * N = 0 := by
  rw [← Nat.cast_mul, ZMod.natCast_self]

theorem one_add_mul_one_add (a b : ZMod (N * N)) : (1 + a * N) * (1 + b * N) = 1 + (a + b) * N := by
  have h := natCast_mul_self N
  linear_combination a * b * h

theorem one_add_pow (a : ZMod (N * N)) (k : ℕ) : (1 + a * N) ^ k = 1 + k * a * N := by
  induction k with
  | zero => simp
  | succ k ih =>
    rw [pow_succ, ih, one_add_mul_one_add]
    push_cast
    ring

/-- Multiples of `N` agree modulo `N * N` when their factors agree modulo `N`. -/
theorem mul_natCast_inj (hN : N ≠ 0) (a b : ℤ) :
    (a : ZMod (N * N)) * N = b * N ↔ (a : ZMod N) = b := by
  have hcast : ∀ x : ℤ, (x : ZMod (N * N)) * N = ((x * N : ℤ) : ZMod (N * N)) := by
    intro x
    push_cast
    rfl
  rw [hcast, hcast, ZMod.intCast_eq_intCast_iff_dvd_sub,
    ZMod.intCast_eq_intCast_iff_dvd_sub, ← sub_mul]
  push_cast
  exact mul_dvd_mul_iff_right (by exact_mod_cast hN)

theorem isUnit_one_add (a : ZMod (N * N)) : IsUnit (1 + a * N) := by
  refine IsUnit.of_mul_eq_one (1 + -a * N) ?_
  rw [one_add_mul_one_add]
  simp

theorem IsPlain.one_add (m : ℤ) : IsPlain N (1 + m * N) m := by
  refine ⟨isUnit_one_add _, ?_⟩
  rw [one_add_pow]
  ring

theorem IsPlain.mul {c d : ZMod (N * N)} {m n : ℤ} (hc : IsPlain N c m) (hd : IsPlain N d n) :
    IsPlain N (c * d) (m + n) := by
  refine ⟨hc.1.mul hd.1, ?_⟩
  rw [mul_pow, hc.2, hd.2, one_add_mul_one_add]
  push_cast
  ring

theorem IsPlain.pow {c : ZMod (N * N)} {m : ℤ} (hc : IsPlain N c m) (k : ℕ) :
    IsPlain N (c ^ k) (k * m) := by
  refine ⟨hc.1.pow k, ?_⟩
  rw [← pow_mul, mul_comm k, pow_mul, hc.2, one_add_pow]
  push_cast
  ring

/-- The inverse of an element stands for the negated integer. -/
theorem IsPlain.of_mul_eq_one {c d : ZMod (N * N)} {m : ℤ} (hc : IsPlain N c m)
    (h : c * d = 1) : IsPlain N d (-m) := by
  refine ⟨IsUnit.of_mul_eq_one c ((mul_comm d c).trans h), ?_⟩
  have hpow : c ^ N.totient * d ^ N.totient = 1 := by rw [← mul_pow, h, one_pow]
  have hinv : (1 + ((-m : ℤ) : ZMod (N * N)) * N.totient * N) *
      (1 + (m : ZMod (N * N)) * N.totient * N) = 1 := by
    rw [one_add_mul_one_add, Int.cast_neg]
    ring
  rw [hc.2] at hpow
  calc d ^ N.totient = 1 * d ^ N.totient := (one_mul _).symm
    _ = (1 + ((-m : ℤ) : ZMod (N * N)) * N.totient * N) *
        ((1 + (m : ZMod (N * N)) * N.totient * N) * d ^ N.totient) := by
      rw [← mul_assoc, hinv]
    _ = 1 + ((-m : ℤ) : ZMod (N * N)) * N.totient * N := by rw [hpow, mul_one]

theorem totient_mul_self (N : ℕ) : (N * N).totient = N * N.totient := by
  rcases Nat.eq_zero_or_pos N with rfl | hN
  · simp
  · have h := Nat.totient_gcd_mul_totient_mul N N
    rw [Nat.gcd_self, mul_assoc] at h
    rw [Nat.eq_of_mul_eq_mul_left (Nat.totient_pos.mpr hN) h, mul_comm]

/-- `N`-th powers stand for zero. -/
theorem IsPlain.pow_modulus {r : ZMod (N * N)} (hr : IsUnit r) : IsPlain N (r ^ N) 0 := by
  refine ⟨hr.pow N, ?_⟩
  obtain ⟨u, rfl⟩ := hr
  have h := congrArg Units.val (ZMod.pow_totient u)
  rw [totient_mul_self, Units.val_pow_eq_pow_val, Units.val_one] at h
  rw [← pow_mul, h]
  simp

theorem isUnit_totient (hN : N.Coprime N.totient) : IsUnit ((N.totient : ℤ) : ZMod N) := by
  rw [Int.cast_natCast, ZMod.isUnit_iff_coprime]
  exact hN.symm

/-- An element stands for one integer only, modulo `N`. -/
theorem IsPlain.unique (hN : N ≠ 0) (hcop : N.Coprime N.totient) {c : ZMod (N * N)}
    {m n : ℤ} (hm : IsPlain N c m) (hn : IsPlain N c n) : (m : ZMod N) = n := by
  have h := add_left_cancel (hm.2.symm.trans hn.2)
  have hmul : ((m * N.totient : ℤ) : ZMod (N * N)) * N =
      ((n * N.totient : ℤ) : ZMod (N * N)) * N := by
    push_cast
    exact h
  have hmod := (mul_natCast_inj hN _ _).mp hmul
  rw [Int.cast_mul, Int.cast_mul] at hmod
  exact (isUnit_totient hcop).mul_right_cancel hmod

/-- The converse: an integer can be exchanged for one that agrees with it modulo `N`. -/
theorem IsPlain.congr (hN : N ≠ 0) {c : ZMod (N * N)} {m n : ℤ} (hm : IsPlain N c m)
    (h : (m : ZMod N) = n) :
    IsPlain N c n := by
  refine ⟨hm.1, ?_⟩
  have hmul : ((m * N.totient : ℤ) : ZMod (N * N)) * N =
      ((n * N.totient : ℤ) : ZMod (N * N)) * N := by
    rw [mul_natCast_inj hN, Int.cast_mul, Int.cast_mul, h]
  push_cast at hmul
  rw [hm.2, hmul]

/-- The totient-th power of a unit is `1` modulo `N`. -/
theorem exists_pow_totient (hN : N ≠ 0) {c : ZMod (N * N)} (hc : IsUnit c) :
    ∃ a : ℕ, a < N ∧ c ^ N.totient = 1 + (a : ZMod (N * N)) * N := by
  have : NeZero (N * N) := ⟨mul_ne_zero hN hN⟩
  have : NeZero N := ⟨hN⟩
  have hone : ZMod.castHom (dvd_mul_right N N) (ZMod N) (c ^ N.totient - 1) = 0 := by
    obtain ⟨u, rfl⟩ := hc
    have h :=
      congrArg Units.val (ZMod.pow_totient
        (Units.map (ZMod.castHom (dvd_mul_right N N) (ZMod N)).toMonoidHom u))
    simp only [Units.val_pow_eq_pow_val, Units.coe_map, Units.val_one] at h
    rw [map_sub, map_pow, map_one]
    exact sub_eq_zero.mpr h
  have hdvd : N ∣ (c ^ N.totient - 1).val := by
    rw [← ZMod.natCast_eq_zero_iff, ← hone, ZMod.castHom_apply, ZMod.cast_eq_val]
  obtain ⟨a, ha⟩ := hdvd
  have hlt : N * a < N * N := by
    rw [← ha]
    exact ZMod.val_lt _
  refine ⟨a, lt_of_mul_lt_mul_left hlt (Nat.zero_le N), ?_⟩
  have hcast : ((N * a : ℕ) : ZMod (N * N)) = c ^ N.totient - 1 := by
    rw [← ha, ZMod.natCast_zmod_val]
  rw [← sub_eq_iff_eq_add', ← hcast]
  push_cast
  ring

/-- Every unit stands for the integer that decryption computes. -/
theorem exists_isPlain (hN : N ≠ 0) (hcop : N.Coprime N.totient) {c : ZMod (N * N)}
    (hc : IsUnit c) : ∃ m : ℤ, IsPlain N c m := by
  obtain ⟨a, -, ha⟩ := exists_pow_totient hN hc
  obtain ⟨u, hu⟩ := isUnit_totient hcop
  obtain ⟨m, hm⟩ := ZMod.intCast_surjective ((a : ZMod N) * ((u⁻¹ : (ZMod N)ˣ) : ZMod N))
  refine ⟨m, hc, ?_⟩
  have hmod : ((a : ℤ) : ZMod N) = ((m * N.totient : ℤ) : ZMod N) := by
    rw [Int.cast_mul, hm, ← hu, mul_assoc, Units.inv_mul, mul_one, Int.cast_natCast]
  have hmul := (mul_natCast_inj hN _ _).mpr hmod
  push_cast at hmul
  rw [ha, hmul]

/-- What stands for zero is the `N`-th power of one of its own powers. -/
theorem IsPlain.pow_pow_eq {c : ZMod (N * N)} (hc : IsPlain N c 0) {e : ℕ}
    (he : N * e ≡ 1 [MOD N.totient]) :
    (c ^ e) ^ N = c := by
  have hone : c ^ N.totient = 1 := by
    rw [hc.2]
    simp
  have hpow : c ^ (N * e) = c ^ 1 := pow_eq_pow_of_modEq he hone
  rw [← pow_mul, mul_comm e, hpow, pow_one]

end NthResidues
