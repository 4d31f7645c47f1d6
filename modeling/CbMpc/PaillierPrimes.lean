import CbMpc.MaskedInverse
import CbMpc.NthResidues

/-!
# Private keys of Paillier encryption

Exponentiations with the private key go through the residues modulo the squares of the primes,
with exponents that are reduced for the smaller prime only. The primes may have any size here.
-/
namespace CbMpc

open NthResidues

/-- `paillier_t::bit_size`. -/
@[irreducible] def paillierBits : ℕ := 2048

theorem paillierBits_eq : paillierBits = 2048 := by
  unfold paillierBits
  rfl

/-- `LARGEST_PRIME_MOD_2048`. -/
def largestPrime2048 : ℕ := 2 ^ (paillierBits + 1) - 1449

/-- `mod_t::_pow`. -/
def modPow (m : ℕ) (x e : ℤ) : Outcome ℤ := do
  cbAssert (decide (0 ≤ e))
  .ok (x ^ e.toNat % m)

/-- `paillier_t::crt_t`. -/
structure Crt where
  p : ℕ
  q : ℕ
  dp : ℤ
  dq : ℤ
  qinv : ℤ

/-- `crt_t::compute_power`. -/
def Crt.computePower (crt : Crt) (NN : ℕ) (c : ℤ) : Outcome ℤ := do
  let cModP ← modReduce crt.p c
  let cModQ ← modReduce crt.q c
  let mp ← modPow crt.p cModP crt.dp
  let mq ← modPow crt.q cModQ crt.dq
  let d ← modSub false crt.p mp mq
  let h ← modMul false crt.p crt.qinv d
  let hq ← modMul false NN h crt.q
  modAdd false NN mq hq

/-- What `update_private` caches. -/
structure PaillierCache where
  phiN : ℤ
  invPhiN : ℤ
  invNMod2k : ℤ
  crtDec : Crt
  crtEnc : Crt

/-- The odd primes of a private key as `update_private` leaves them: of equal length, and the larger
one first. -/
structure PaillierPrimes where
  p : ℕ
  q : ℕ
  prime_p : p.Prime
  prime_q : q.Prime
  lt : q < p
  lt_two_mul : p < 2 * q
  two_lt : 2 < q

namespace PaillierPrimes

def N (key : PaillierPrimes) : ℕ := key.p * key.q

/-- `paillier_t::update_private`, after the primes are ordered. -/
def updatePrivate (key : PaillierPrimes) : Outcome PaillierCache := do
  let phiN : ℤ := (key.p - 1) * (key.q - 1)
  let invPhiN ← modInvMasked key.N phiN
  let invNMod2k ← modInv (2 ^ paillierBits) key.N
  let qSqrInverse ← modInvMasked (key.p * key.p) (key.q * key.q)
  let pMinusQ ← modSub false largestPrime2048 key.p key.q
  let pMinusQMinusOne ← modSub false largestPrime2048 pMinusQ 1
  let qMinusOne ← modSub false largestPrime2048 key.q 1
  let phiNModQ ← modMul false largestPrime2048 pMinusQMinusOne qMinusOne
  let pMinusQPlusOne ← modAdd false largestPrime2048 pMinusQ 1
  let nModQ ← modMul false largestPrime2048 pMinusQPlusOne key.q
  .ok { phiN, invPhiN, invNMod2k,
        crtDec := ⟨key.p * key.p, key.q * key.q, phiN, phiNModQ, qSqrInverse⟩
        crtEnc := ⟨key.p * key.p, key.q * key.q, key.N, nModQ, qSqrInverse⟩ }

/-- `paillier_t::decrypt`: the exact division by `N` is a product modulo `2 ^ bit_size`. The
quotient keeps the words of `bit_size`, and its product with the inverse, which has those of `N`, is
reduced as one. -/
def decrypt (key : PaillierPrimes) (src : ℤ) : Outcome ℤ := do
  cbAssert (decide (0 < src ∧ src < (key.N * key.N : ℕ)))
  let isCoprime ← coprime false src key.N
  cbAssert isCoprime
  let cache ← key.updatePrivate
  let c1 ← cache.crtDec.computePower (key.N * key.N) src
  let tmpLow := (c1 - 1) % 2 ^ paillierBits
  let m1 := tmpLow * cache.invNMod2k % 2 ^ paillierBits
  cbAssert (decide (paillierBits / 64 + bnTop key.N ≤ 2 * bnTop key.N))
  modMul false key.N m1 cache.invPhiN

end PaillierPrimes

theorem modPow_eq {m : ℕ} (x : ℤ) {e : ℤ} (he : 0 ≤ e) : modPow m x e = .ok (x ^ e.toNat % m) := by
  simp [modPow, he]

/-- Both reductions of an operand of `compute_power` stay within the words of the modulus. -/
def Crt.Reduces (crt : Crt) (c : ℤ) : Prop :=
  modReduce crt.p c = .ok (c % crt.p) ∧ modReduce crt.q c = .ok (c % crt.q)

theorem Crt.reduces_of_lt {crt : Crt} {c : ℤ} (hlt : crt.q < crt.p) (hq : 2 ≤ crt.q) (hc : 0 ≤ c)
    (hsize : c < 2 ^ 4096) :
    crt.Reduces c := ⟨modReduce_eq_emod (by omega) hc hsize, modReduce_eq_emod hq hc hsize⟩

/-- An operand on which `compute_power` returns has been reduced. -/
theorem Crt.reduces_of_ok {crt : Crt} {NN : ℕ} {c r : ℤ} (h : crt.computePower NN c = .ok r) :
    crt.Reduces c := by
  obtain ⟨a, ha, h⟩ := bind_ok_iff.mp h
  obtain ⟨b, hb, -⟩ := bind_ok_iff.mp h
  exact ⟨modReduce_ok ha ▸ ha, modReduce_ok hb ▸ hb⟩

/-- `compute_power` fits the powers modulo the two factors together. -/
theorem computePower_spec (crt : Crt) {c : ℤ} (hlt : crt.q < crt.p)
    (hq : 2 ≤ crt.q) (hc : crt.Reduces c) (hdp : 0 ≤ crt.dp) (hdq : 0 ≤ crt.dq)
    (hinv : isInRange crt.p crt.qinv = true) (hone : (crt.q : ZMod crt.p) * crt.qinv = 1) :
    ∃ R, crt.computePower (crt.p * crt.q) c = .ok R ∧ isInRange (crt.p * crt.q) R = true ∧
      (R : ZMod crt.p) = c ^ crt.dp.toNat ∧ (R : ZMod crt.q) = c ^ crt.dq.toNat := by
  obtain ⟨P, Q, dp, dq, qinv⟩ := crt
  obtain ⟨hcP, hcQ⟩ := hc
  simp only at *
  have hP0 : (0 : ℤ) < P := by omega
  have hQ0 : (0 : ℤ) < Q := by omega
  have hmp := isInRange_emod (m := P) (by omega) ((c % P) ^ dp.toNat)
  have hmq := isInRange_emod (m := Q) (by omega) ((c % Q) ^ dq.toNat)
  have hmpc : (((c % P) ^ dp.toNat % P : ℤ) : ZMod P) = c ^ dp.toNat := by
    rw [cast_emod, Int.cast_pow, cast_emod]
  have hmqc : (((c % Q) ^ dq.toNat % Q : ℤ) : ZMod Q) = c ^ dq.toNat := by
    rw [cast_emod, Int.cast_pow, cast_emod]
  simp only [Crt.computePower, hcP, hcQ, ok_bind, modPow_eq _ hdp, modPow_eq _ hdq]
  generalize (c % P) ^ dp.toNat % (P : ℤ) = mp at *
  generalize (c % Q) ^ dq.toNat % (Q : ℤ) = mq at *
  have hmqP : isInRange P mq = true := by
    rw [isInRange_iff] at hmq ⊢
    omega
  have hd := isInRange_emod (m := P) (by omega) (mp - mq)
  have hh := isInRange_emod (m := P) (by omega) (qinv * ((mp - mq) % P))
  have hhc : ((qinv * ((mp - mq) % P) % P : ℤ) : ZMod P) = qinv * (c ^ dp.toNat - mq) := by
    rw [cast_emod, Int.cast_mul, cast_emod, Int.cast_sub, hmpc]
  rw [modSub, modOp_eq_emod _ _ hmp hmqP, ok_bind, modMul, modOp_eq_emod _ _ hinv hd, ok_bind]
  generalize qinv * ((mp - mq) % P) % (P : ℤ) = h at *
  rw [isInRange_iff] at hmq hh
  -- No reduction modulo the product takes place.
  have hhQ : h * Q < (P * Q : ℕ) := by
    push_cast
    exact mul_lt_mul_of_pos_right hh.2 hQ0
  have hhQ0 : 0 ≤ h * Q := mul_nonneg hh.1 hQ0.le
  have hhP : h < (P * Q : ℕ) := by
    push_cast
    nlinarith
  have hsum : mq + h * Q < (P * Q : ℕ) := by
    push_cast
    nlinarith
  have hQPQ : (Q : ℤ) < (P * Q : ℕ) := by
    push_cast
    nlinarith
  rw [modMul, modOp_eq_emod _ _ ((isInRange_iff _).mpr ⟨hh.1, hhP⟩)
    ((isInRange_iff _).mpr ⟨hQ0.le, hQPQ⟩), ok_bind, Int.emod_eq_of_lt hhQ0 hhQ, modAdd,
    modOp_eq_emod _ _ ((isInRange_iff _).mpr ⟨hmq.1, by omega⟩) ((isInRange_iff _).mpr ⟨hhQ0, hhQ⟩),
    Int.emod_eq_of_lt (by omega) hsum]
  refine ⟨_, rfl, (isInRange_iff _).mpr ⟨by omega, hsum⟩, ?_, ?_⟩
  · push_cast
    rw [hhc]
    linear_combination (c ^ dp.toNat - mq) * hone
  · push_cast
    rw [hmqc]
    simp

/-- An exponent may be replaced modulo each factor by one that gives the same power. -/
theorem computePower_eq {crt : Crt} {c : ℤ} {d : ℕ} (hlt : crt.q < crt.p) (hq : 2 ≤ crt.q)
    (hcop : Nat.Coprime crt.p crt.q) (hc : crt.Reduces c) (hdp : 0 ≤ crt.dp) (hdq : 0 ≤ crt.dq)
    (hinv : isInRange crt.p crt.qinv = true) (hone : (crt.q : ZMod crt.p) * crt.qinv = 1)
    (hp : (c : ZMod crt.p) ^ crt.dp.toNat = c ^ d) (hq' : (c : ZMod crt.q) ^ crt.dq.toNat = c ^ d) :
    crt.computePower (crt.p * crt.q) c = .ok (c ^ d % (crt.p * crt.q : ℕ)) := by
  obtain ⟨R, hR, hrange, hRp, hRq⟩ := computePower_spec crt hlt hq hc hdp hdq hinv hone
  have hmod : R ≡ c ^ d [ZMOD (crt.p * crt.q : ℕ)] := by
    rw [Nat.cast_mul, ← Int.modEq_and_modEq_iff_modEq_mul (by simpa using hcop),
      ← ZMod.intCast_eq_intCast_iff, ← ZMod.intCast_eq_intCast_iff]
    push_cast
    exact ⟨hRp.trans hp, hRq.trans hq'⟩
  rw [isInRange_iff] at hrange
  rw [hR, ← hmod.eq, Int.emod_eq_of_lt hrange.1 hrange.2]

theorem modSub_largestPrime {a b : ℤ} (hb : 0 ≤ b) (hab : b ≤ a) (ha : a < largestPrime2048) :
    modSub false largestPrime2048 a b = .ok (a - b) := by
  rw [modSub, modOp_eq_emod _ _ ((isInRange_iff _).mpr ⟨by omega, ha⟩)
    ((isInRange_iff _).mpr ⟨hb, by omega⟩), Int.emod_eq_of_lt (by omega) (by omega)]

theorem modMul_largestPrime {a b : ℤ} (ha : 0 < a) (hb : 0 < b) (hab : a * b < largestPrime2048) :
    modMul false largestPrime2048 a b = .ok (a * b) := by
  have hale : a ≤ a * b := le_mul_of_one_le_right ha.le hb
  have hble : b ≤ a * b := le_mul_of_one_le_left hb.le ha
  rw [modMul, modOp_eq_emod _ _ ((isInRange_iff _).mpr ⟨ha.le, by omega⟩)
    ((isInRange_iff _).mpr ⟨hb.le, by omega⟩), Int.emod_eq_of_lt (by positivity) hab]

namespace PaillierPrimes

variable (key : PaillierPrimes)

theorem coprime_p_q : Nat.Coprime key.p key.q :=
  (Nat.coprime_primes key.prime_p key.prime_q).mpr (by have := key.lt; omega)

theorem odd_p : key.p % 2 = 1 :=
  (key.prime_p.eq_two_or_odd).resolve_left (by have := key.lt; have := key.two_lt; omega)

theorem odd_q : key.q % 2 = 1 :=
  (key.prime_q.eq_two_or_odd).resolve_left (by have := key.two_lt; omega)

theorem totient_N : key.N.totient = (key.p - 1) * (key.q - 1) := by
  rw [N, Nat.totient_mul key.coprime_p_q, Nat.totient_prime key.prime_p,
    Nat.totient_prime key.prime_q]

/-- The modulus is coprime to its totient, since neither prime divides the other one less one. -/
theorem coprime_totient : Nat.Coprime key.N key.N.totient := by
  have hlt := key.lt
  have hlt2 := key.lt_two_mul
  have hq := key.two_lt
  have hndvd : ∀ {r n : ℕ}, r.Prime → 0 < n → n < r → Nat.Coprime r n := by
    intro r n hr hn hnr
    exact (Nat.Prime.coprime_iff_not_dvd hr).mpr fun h => absurd (Nat.le_of_dvd hn h) (by omega)
  have hqp : Nat.Coprime key.q (key.p - 1) := by
    rw [Nat.Prime.coprime_iff_not_dvd key.prime_q]
    rintro ⟨k, hk⟩
    have hk1 : k = 1 := by
      have : k < 2 := by
        by_contra h
        have := Nat.mul_le_mul (le_refl key.q) (by omega : 2 ≤ k)
        omega
      interval_cases k
      · omega
      · rfl
    -- The primes would be neighbours.
    rw [hk1, mul_one] at hk
    have hodd := key.odd_p
    have hodd' := key.odd_q
    omega
  rw [totient_N, N, Nat.coprime_mul_iff_left, Nat.coprime_mul_iff_right, Nat.coprime_mul_iff_right]
  exact ⟨⟨hndvd key.prime_p (by omega) (by omega), hndvd key.prime_p (by omega) (by omega)⟩,
    hqp, hndvd key.prime_q (by omega) (by omega)⟩

theorem odd_N : key.N % 2 = 1 := by rw [N, Nat.mul_mod, key.odd_p, key.odd_q]

theorem one_lt_N : 1 < key.N := by
  have := key.two_lt
  exact lt_of_lt_of_le (by omega) (Nat.le_mul_of_pos_left key.q key.prime_p.pos)

theorem totient_lt : key.N.totient < key.N := Nat.totient_lt _ key.one_lt_N

theorem NN_pos : 0 < key.N * key.N :=
  Nat.mul_pos (by have := key.one_lt_N; omega) (by have := key.one_lt_N; omega)

theorem N_lt_NN : key.N < key.N * key.N := by
  have := key.one_lt_N
  nlinarith

theorem isUnit_cast_iff (c : ℤ) : IsUnit (c : ZMod (key.N * key.N)) ↔ Int.gcd c key.N = 1 := by
  rw [ZMod.coe_int_isUnit_iff_isCoprime, Nat.cast_mul, IsCoprime.mul_left_iff, and_self,
    isCoprime_comm, Int.isCoprime_iff_gcd_eq_one]

/-- Exponents from two on may lose a multiple of `q * (q - 1)` modulo the square of `q`. -/
theorem pow_add_totient (c : ℤ) {d : ℕ} (hd : 2 ≤ d) :
    (c : ZMod (key.q * key.q)) ^ (d + key.q * (key.q - 1)) = c ^ d := by
  by_cases hdvd : (key.q : ℤ) ∣ c
  · have hzero : ∀ {k : ℕ}, 2 ≤ k → (c : ZMod (key.q * key.q)) ^ k = 0 := by
      intro k hk
      rw [← Int.cast_pow, ZMod.intCast_zmod_eq_zero_iff_dvd, Nat.cast_mul, ← sq]
      exact (pow_dvd_pow_of_dvd hdvd 2).trans (pow_dvd_pow c hk)
    rw [hzero (by omega), hzero hd]
  · have hcop : IsCoprime c (key.q : ℤ) :=
      ((Nat.prime_iff_prime_int.mp key.prime_q).coprime_iff_not_dvd.mpr hdvd).symm
    obtain ⟨u, hu⟩ := (ZMod.coe_int_isUnit_iff_isCoprime c (key.q * key.q)).mpr
      (by push_cast; exact (hcop.mul_right hcop).symm)
    have h := congrArg Units.val (ZMod.pow_totient u)
    rw [totient_mul_self, Nat.totient_prime key.prime_q, Units.val_pow_eq_pow_val,
      Units.val_one, hu] at h
    rw [pow_add, h, mul_one]

/-- The sizes of the modulus for which `update_private` returns. -/
structure Updates : Prop where
  three_le_bnTop : 3 ≤ bnTop key.N
  lt_largestPrime : key.N < largestPrime2048

/-- The sizes of the modulus for which `decrypt` has the words that it counts on and loses no bits
of the quotient. -/
structure Decrypts : Prop where
  lt_size : 1984 < key.N.size
  lt_two_pow : key.N < 2 ^ paillierBits

/-- What `update_private` prepares: the two inverses, and the exponentiations modulo `N * N`. -/
structure Cached (cache : PaillierCache) : Prop where
  phiN : cache.phiN = key.N.totient
  invPhiN : isInRange key.N cache.invPhiN = true ∧ (key.N.totient : ZMod key.N) * cache.invPhiN = 1
  invNMod2k : key.N * cache.invNMod2k ≡ 1 [ZMOD 2 ^ paillierBits]
  dec_p : cache.crtDec.p = key.p * key.p
  dec_q : cache.crtDec.q = key.q * key.q
  enc_p : cache.crtEnc.p = key.p * key.p
  enc_q : cache.crtEnc.q = key.q * key.q
  dec : ∀ {c : ℤ}, cache.crtDec.Reduces c →
    cache.crtDec.computePower (key.N * key.N) c = .ok (c ^ key.N.totient % (key.N * key.N : ℕ))
  enc : ∀ {c : ℤ}, cache.crtEnc.Reduces c →
    cache.crtEnc.computePower (key.N * key.N) c = .ok (c ^ key.N % (key.N * key.N : ℕ))

/-- An exponentiation with the private key, when the exponent for the smaller prime lacks one
turn of that prime's square. -/
theorem computePower_squares {d : ℕ} {dq qinv c : ℤ} (hdq0 : 2 ≤ dq)
    (hdq : dq.toNat + key.q * (key.q - 1) = d) (hinv : isInRange (key.p * key.p) qinv = true)
    (hone : ((key.q * key.q : ℕ) : ZMod (key.p * key.p)) * qinv = 1)
    (hc : Crt.Reduces ⟨key.p * key.p, key.q * key.q, d, dq, qinv⟩ c) :
    Crt.computePower ⟨key.p * key.p, key.q * key.q, d, dq, qinv⟩ (key.N * key.N) c =
      .ok (c ^ d % (key.N * key.N : ℕ)) := by
  have hNN : key.N * key.N = key.p * key.p * (key.q * key.q) := by
    rw [N]
    ring
  have hlt : key.q * key.q < key.p * key.p := Nat.mul_self_lt_mul_self key.lt
  have hq : 2 ≤ key.q * key.q := by
    have := key.two_lt
    nlinarith
  rw [hNN]
  refine computePower_eq hlt hq ?_ hc (Int.natCast_nonneg d) (by simp only; omega) hinv hone ?_ ?_
  · exact (key.coprime_p_q.mul_left key.coprime_p_q).mul_right
      (key.coprime_p_q.mul_left key.coprime_p_q)
  · rw [Int.toNat_natCast]
  · rw [← hdq, key.pow_add_totient c (by omega)]

/-- The exponents for the smaller prime, which are computed without a division. -/
theorem exponents_eq (hprime : key.N < largestPrime2048) :
    modSub false largestPrime2048 key.p key.q = .ok ((key.p : ℤ) - key.q) ∧
    modSub false largestPrime2048 ((key.p : ℤ) - key.q) 1 = .ok ((key.p : ℤ) - key.q - 1) ∧
    modSub false largestPrime2048 key.q 1 = .ok ((key.q : ℤ) - 1) ∧
    modMul false largestPrime2048 ((key.p : ℤ) - key.q - 1) (key.q - 1) =
      .ok (((key.p : ℤ) - key.q - 1) * (key.q - 1)) ∧
    modAdd false largestPrime2048 ((key.p : ℤ) - key.q) 1 = .ok ((key.p : ℤ) - key.q + 1) ∧
    modMul false largestPrime2048 ((key.p : ℤ) - key.q + 1) key.q =
      .ok (((key.p : ℤ) - key.q + 1) * key.q) := by
  have hq := key.two_lt
  have hlt := key.lt
  have hodd := key.odd_p
  have hodd' := key.odd_q
  have hpN : key.p ≤ key.N := Nat.le_mul_of_pos_right _ (by omega)
  have hNZ : (key.N : ℤ) = key.p * key.q := by
    rw [N]
    push_cast
    rfl
  have hmul1 : ((key.p : ℤ) - key.q - 1) * (key.q - 1) ≤ key.N := by
    rw [hNZ]
    exact mul_le_mul (by omega) (by omega) (by omega) (by omega)
  have hmul2 : ((key.p : ℤ) - key.q + 1) * key.q ≤ key.N := by
    rw [hNZ]
    exact mul_le_mul (by omega) le_rfl (by omega) (by omega)
  refine ⟨modSub_largestPrime (by omega) (by omega) (by omega),
    modSub_largestPrime (by omega) (by omega) (by omega),
    modSub_largestPrime (by omega) (by omega) (by omega),
    modMul_largestPrime (by omega) (by omega) (by omega), ?_,
    modMul_largestPrime (by omega) (by omega) (by omega)⟩
  rw [modAdd, modOp_eq_emod _ _ ((isInRange_iff _).mpr ⟨by omega, by omega⟩)
    ((isInRange_iff _).mpr ⟨by omega, by omega⟩), Int.emod_eq_of_lt (by omega) (by omega)]

theorem updatePrivate_cached (hkey : key.Updates) :
    ∃ cache, key.updatePrivate = .ok cache ∧ key.Cached cache := by
  obtain ⟨h3, hprime⟩ := hkey
  have hq := key.two_lt
  have hlt := key.lt
  have hodd := key.odd_p
  have hodd' := key.odd_q
  have hN0 : 0 < key.N := by have := key.one_lt_N; omega
  have hphiZ : ((key.p : ℤ) - 1) * (key.q - 1) = key.N.totient := by
    rw [key.totient_N]
    push_cast [Nat.cast_sub (by omega : 1 ≤ key.p), Nat.cast_sub (by omega : 1 ≤ key.q)]
    rfl
  have hphiR : isInRange key.N (key.N.totient : ℤ) = true :=
    (isInRange_iff _).mpr ⟨by omega, by have := key.totient_lt; omega⟩
  obtain ⟨invPhiN, hinvPhi, hinvPhiR, hinvPhi1⟩ := modInvMasked_of_gcd h3 hphiR
    (by rw [Int.gcd_natCast_natCast]; exact key.coprime_totient.symm)
  have hN2k : Int.gcd key.N (2 ^ paillierBits : ℕ) = 1 := by
    rw [Int.gcd_natCast_natCast]
    exact Nat.Coprime.pow_right _ ((Nat.coprime_two_right).mpr (Nat.odd_iff.mpr key.odd_N))
  obtain ⟨invN, hinvN, hinvN1⟩ := modInv_modEq hN2k
  have hsq : key.q * key.q < key.p * key.p := Nat.mul_self_lt_mul_self hlt
  have hcop : Nat.Coprime (key.q * key.q) (key.p * key.p) :=
    (key.coprime_p_q.symm.mul_left key.coprime_p_q.symm).mul_right
      (key.coprime_p_q.symm.mul_left key.coprime_p_q.symm)
  have hp3 : 3 ≤ bnTop (key.p * key.p : ℕ) := by
    have hNp : key.N ≤ key.p * key.p := Nat.mul_le_mul_left _ hlt.le
    rw [three_le_bnTop_iff] at h3 ⊢
    exact h3.trans hNp
  obtain ⟨qinv, hqinv, hqinvR, hqinv1⟩ := modInvMasked_of_gcd (a := ((key.q * key.q : ℕ) : ℤ)) hp3
    ((isInRange_iff _).mpr ⟨Int.natCast_nonneg _, by exact_mod_cast hsq⟩)
    (by rw [Int.gcd_natCast_natCast]; exact hcop)
  push_cast at hqinv hqinv1
  obtain ⟨h1, h2, h3, h4, h5, h6⟩ := key.exponents_eq hprime
  refine ⟨⟨key.N.totient, invPhiN, invN,
    ⟨key.p * key.p, key.q * key.q, key.N.totient, (key.p - key.q - 1) * (key.q - 1), qinv⟩,
    ⟨key.p * key.p, key.q * key.q, key.N, (key.p - key.q + 1) * key.q, qinv⟩⟩, ?_, rfl,
    ⟨hinvPhiR, ?_⟩, ?_, rfl, rfl, rfl, rfl, ?_, ?_⟩
  · simp only [updatePrivate, hphiZ, hinvPhi, hinvN, hqinv, h1, h2, h3, h4, h5, h6, ok_bind]
  · simpa using hinvPhi1
  · simpa using hinvN1
  · intro c hc
    have htwo : 1 * 2 ≤ ((key.p : ℤ) - key.q - 1) * (key.q - 1) :=
      mul_le_mul (by omega) (by omega) (by omega) (by omega)
    refine key.computePower_squares htwo ?_ hqinvR (by simpa using hqinv1) hc
    zify [(by omega : 1 ≤ key.q)]
    rw [Int.toNat_of_nonneg (le_trans (by norm_num) htwo), ← hphiZ]
    ring
  · intro c hc
    have htwo : 1 * 2 ≤ ((key.p : ℤ) - key.q + 1) * key.q :=
      mul_le_mul (by omega) (by omega) (by omega) (by omega)
    refine key.computePower_squares htwo ?_ hqinvR (by simpa using hqinv1) hc
    zify [(by omega : 1 ≤ key.q)]
    rw [Int.toNat_of_nonneg (le_trans (by norm_num) htwo), N]
    push_cast
    ring

/-- An operand below the square of the modulus is reduced at once. -/
theorem modReduce_of_lt_square {m : ℕ} {x : ℤ} (h0 : 0 ≤ x) (hx : x < (m * m : ℕ)) :
    modReduce m x = .ok (x % m) := by
  have hlt : x.natAbs < 2 ^ (2 * m.size) := by
    have hsize := Nat.lt_size_self m
    have hmm : m * m < 2 ^ m.size * 2 ^ m.size := Nat.mul_lt_mul'' hsize hsize
    rw [← pow_add, ← two_mul] at hmm
    omega
  have hle : bnTop x ≤ 2 * bnTop m := by
    have := Nat.size_le.mpr hlt
    simp only [bnTop, Int.natAbs_natCast]
    omega
  rw [modReduce, modReduceAux, if_pos hle, modWords_eq h0]

theorem coprime_of_gcd {m : ℕ} {c : ℤ} (h3 : 3 ≤ bnTop m) (h0 : 0 ≤ c) (hc : c < (m * m : ℕ))
    (hgcd : Int.gcd c m = 1) :
    coprime false c m = .ok true := by
  rw [coprime, if_neg Bool.false_ne_true, modReduce_of_lt_square h0 hc, ok_bind, Int.gcd_emod,
    decide_eq_true ⟨h3, hgcd⟩]

/-- A modulus of more than 1984 bits has the words that `decrypt` counts on. -/
theorem le_bnTop_of_size {m : ℕ} (h : 1984 < m.size) :
    3 ≤ bnTop m ∧ paillierBits / 64 + bnTop m ≤ 2 * bnTop m := by
  rw [paillierBits_eq, bnTop, Int.natAbs_natCast]
  omega

theorem Decrypts.updates (h : key.Decrypts) : key.Updates := by
  have hbig : 2 ^ 11 ≤ 2 ^ paillierBits :=
    Nat.pow_le_pow_right (by norm_num) (by rw [paillierBits_eq]; norm_num)
  have hpow : 2 ^ (paillierBits + 1) = 2 * 2 ^ paillierBits := pow_succ' 2 _
  have hlt := h.lt_two_pow
  refine ⟨(le_bnTop_of_size h.lt_size).1, ?_⟩
  unfold largestPrime2048
  omega

/-- The integer `c` is a ciphertext of the plaintext `m`, up to multiples of the modulus. -/
def Encrypts (c m : ℤ) : Prop :=
  isInRange (key.N * key.N) c = true ∧ IsPlain key.N (c : ZMod (key.N * key.N)) m

/-- `decrypt` keeps the low bits of the quotient that it extracts. -/
theorem decrypt_eq (hwords : 1984 < key.N.size)
    (hprime : key.N < largestPrime2048) {c : ℤ} (hc0 : 0 < c) (hc : c < (key.N * key.N : ℕ))
    (hgcd : Int.gcd c key.N = 1) (hp : modReduce (key.p * key.p) c = .ok (c % (key.p * key.p : ℕ)))
    (hq : modReduce (key.q * key.q) c = .ok (c % (key.q * key.q : ℕ))) {a : ℕ} (ha : a < key.N)
    (hpow : (c : ZMod (key.N * key.N)) ^ key.N.totient = 1 + a * key.N) :
    ∃ inv, isInRange key.N inv = true ∧ (key.N.totient : ZMod key.N) * inv = 1 ∧
      key.decrypt c = modMul false key.N (a % 2 ^ paillierBits) inv := by
  obtain ⟨h3, htop⟩ := le_bnTop_of_size hwords
  obtain ⟨cache, hcache, hspec⟩ := key.updatePrivate_cached ⟨h3, hprime⟩
  refine ⟨cache.invPhiN, hspec.invPhiN.1, hspec.invPhiN.2, ?_⟩
  have hle : a * key.N + 1 < key.N * key.N := by
    have := key.one_lt_N
    nlinarith
  have hc1 : c ^ key.N.totient % (key.N * key.N : ℕ) = a * key.N + 1 := by
    have h0 : (0 : ℤ) ≤ a * key.N + 1 := Int.natCast_nonneg (a * key.N + 1)
    refine eq_of_isInRange (isInRange_emod key.NN_pos _)
      ((isInRange_iff _).mpr ⟨h0, by exact_mod_cast hle⟩) ?_
    rw [cast_emod, Int.cast_pow, hpow]
    push_cast
    ring
  have hdec := hspec.dec (c := c) ⟨by rw [hspec.dec_p]; exact hp, by rw [hspec.dec_q]; exact hq⟩
  have hlow : (a : ℤ) * key.N % 2 ^ paillierBits * cache.invNMod2k % 2 ^ paillierBits =
      a % 2 ^ paillierBits := by
    have hmod : (a : ℤ) * key.N % 2 ^ paillierBits * cache.invNMod2k ≡ a [ZMOD 2 ^ paillierBits] :=
      calc (a : ℤ) * key.N % 2 ^ paillierBits * cache.invNMod2k
          ≡ a * key.N * cache.invNMod2k [ZMOD 2 ^ paillierBits] := (Int.mod_modEq _ _).mul_right _
        _ = a * (key.N * cache.invNMod2k) := by ring
        _ ≡ a * 1 [ZMOD 2 ^ paillierBits] := hspec.invNMod2k.mul_left _
        _ = a := mul_one _
    exact hmod.eq
  simp only [decrypt, hc0, hc, and_self, decide_true, cbAssert_true, ok_bind,
    coprime_of_gcd h3 hc0.le hc hgcd, hcache, hdec, hc1, htop, add_sub_cancel_right, hlow]

variable {key}

theorem Decrypts.NN_lt (h : key.Decrypts) : ((key.N * key.N : ℕ) : ℤ) < 2 ^ 4096 := by
  have hlt := Int.ofNat_lt.mpr (Nat.mul_lt_mul'' h.lt_two_pow h.lt_two_pow)
  rw [← pow_add] at hlt
  push_cast at hlt
  rw [paillierBits_eq] at hlt
  rw [Nat.cast_mul]
  exact hlt

/-- `decrypt` computes the plaintext of every unit, for moduli with the words and the bits of
`bit_size`. -/
theorem decrypt_isPlain (hkey : key.Decrypts) {c : ℤ} (hc0 : 0 < c) (hc : c < (key.N * key.N : ℕ))
    (hgcd : Int.gcd c key.N = 1) :
    ∃ m, key.decrypt c = .ok m ∧ isInRange key.N m = true ∧ key.Encrypts c m := by
  have hN : key.N ≠ 0 := by have := key.one_lt_N; omega
  have hunit := (key.isUnit_cast_iff c).mpr hgcd
  have hsize := lt_trans hc hkey.NN_lt
  have hq2 : 2 ≤ key.q * key.q := by have := key.two_lt; nlinarith
  have hp2 : 2 ≤ key.p * key.p := by have := Nat.mul_self_lt_mul_self key.lt; omega
  obtain ⟨a, ha, hpow⟩ := exists_pow_totient hN hunit
  obtain ⟨inv, hinvR, hinv1, hdec⟩ :=
    key.decrypt_eq hkey.lt_size hkey.updates.lt_largestPrime hc0 hc hgcd
    (modReduce_eq_emod hp2 hc0.le hsize) (modReduce_eq_emod hq2 hc0.le hsize) ha hpow
  have haR : isInRange key.N (a : ℤ) = true :=
    (isInRange_iff _).mpr ⟨Int.natCast_nonneg a, Int.ofNat_lt.mpr ha⟩
  have halow : (a : ℤ) % 2 ^ paillierBits = a :=
    Int.emod_eq_of_lt (Int.natCast_nonneg a) (by exact_mod_cast lt_trans ha hkey.lt_two_pow)
  refine ⟨a * inv % key.N, ?_, isInRange_emod (by omega) _,
    (isInRange_iff _).mpr ⟨hc0.le, hc⟩, hunit, ?_⟩
  · rw [hdec, halow, modMul, modOp_eq_emod _ _ haR hinvR]
  · have hmod : ((a : ℤ) : ZMod key.N) = ((a * inv % key.N * key.N.totient : ℤ) : ZMod key.N) := by
      rw [Int.cast_mul, cast_emod, Int.cast_mul, mul_assoc, mul_comm (inv : ZMod key.N),
        Int.cast_natCast key.N.totient, hinv1, mul_one]
    have hmul := (mul_natCast_inj hN _ _).mpr hmod
    push_cast at hmul
    rw [hpow, hmul]

theorem pos_of_gcd {v : ℤ} (h0 : 0 ≤ v) (hv : Int.gcd v key.N = 1) : 0 < v := by
  refine lt_of_le_of_ne h0 ?_
  rintro rfl
  rw [Int.gcd_zero_left, Int.natAbs_natCast] at hv
  have := key.one_lt_N
  omega

/-- Products of units are units again after a reduction. -/
theorem gcd_mul_emod {a b : ℤ} (ha : Int.gcd a key.N = 1) (hb : Int.gcd b key.N = 1) :
    Int.gcd (a * b % key.N) key.N = 1 := by
  rw [Int.gcd_emod, ← Int.isCoprime_iff_gcd_eq_one]
  exact (Int.isCoprime_iff_gcd_eq_one.mpr ha).mul_left (Int.isCoprime_iff_gcd_eq_one.mpr hb)

theorem gcd_pow_emod {a : ℤ} (ha : Int.gcd a key.N = 1) (k : ℕ) :
    Int.gcd (a ^ k % key.N) key.N = 1 := by
  rw [Int.gcd_emod, ← Int.isCoprime_iff_gcd_eq_one]
  exact (Int.isCoprime_iff_gcd_eq_one.mpr ha).pow_left

theorem Encrypts.gcd {c m : ℤ} (h : key.Encrypts c m) : Int.gcd c key.N = 1 :=
  (key.isUnit_cast_iff c).mp h.2.1

theorem Encrypts.pos {c m : ℤ} (h : key.Encrypts c m) : 0 < c :=
  pos_of_gcd ((isInRange_iff c).mp h.1).1 h.gcd

theorem Encrypts.lt {c m : ℤ} (h : key.Encrypts c m) : c < (key.N * key.N : ℕ) :=
  ((isInRange_iff c).mp h.1).2

theorem encrypts_of_gcd (hkey : key.Decrypts) {c : ℤ} (hc : isInRange (key.N * key.N) c = true)
    (hgcd : Int.gcd c key.N = 1) :
    ∃ m, key.decrypt c = .ok m ∧ isInRange key.N m = true ∧ key.Encrypts c m := by
  have hrange := (isInRange_iff _).mp hc
  exact decrypt_isPlain hkey (pos_of_gcd hrange.1 hgcd) hrange.2 hgcd

theorem Encrypts.decrypt_emod (hkey : key.Decrypts) {c m : ℤ} (h : key.Encrypts c m) :
    key.decrypt c = .ok (m % key.N) := by
  have hN : key.N ≠ 0 := by have := key.one_lt_N; omega
  obtain ⟨m', hdec, hrange, hplain⟩ := decrypt_isPlain hkey h.pos h.lt h.gcd
  have hcast := hplain.2.unique hN key.coprime_totient h.2
  rw [hdec, eq_of_isInRange hrange (isInRange_emod (by omega) m) (by rw [hcast, cast_emod])]

/-- `decrypt` on a ciphertext whose plaintext is given as a reduced integer. -/
theorem Encrypts.decrypt (hkey : key.Decrypts) {c m : ℤ} (h : key.Encrypts c m)
    (h0 : 0 ≤ m) (hm : m < key.N) :
    key.decrypt c = .ok m := by
  rw [h.decrypt_emod hkey, Int.emod_eq_of_lt h0 hm]

/-- Whatever `decrypt` returns is the plaintext. -/
theorem encrypts_of_decrypt (hkey : key.Decrypts) {c m : ℤ}
    (h : key.decrypt c = .ok m) : key.Encrypts c m := by
  have hdec := h
  rw [PaillierPrimes.decrypt, cbAssert_bind_ok_iff, decide_eq_true_eq] at h
  obtain ⟨⟨hc0, hc⟩, h⟩ := h
  obtain ⟨isCoprime, hcop, h⟩ := bind_ok_iff.mp h
  obtain ⟨rfl, -⟩ := cbAssert_bind_ok_iff.mp h
  obtain ⟨m', hm', -, hplain⟩ := decrypt_isPlain hkey hc0 hc (gcd_of_coprime hcop)
  rw [hdec] at hm'
  rwa [Except.ok.inj hm']

end PaillierPrimes

end CbMpc
