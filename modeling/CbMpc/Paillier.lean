import CbMpc.PaillierPrimes

/-!
# Paillier encryption

The operators of `paillier_t` on integers, with private keys of any size, and the keys of the size
that `generate` makes.
-/
namespace CbMpc

open NthResidues

/-- A `paillier_t`, without and with a private key of a size for which `update_private` returns. -/
inductive Paillier where
  | pub : ℕ → Paillier
  | prv (key : PaillierPrimes) : key.Updates → Paillier

namespace Paillier

def N : Paillier → ℕ
  | .pub N => N
  | .prv key _ => key.N

def NN (P : Paillier) : ℕ := P.N * P.N

/-- The `N`-th power of the randomness. -/
def randPow (P : Paillier) (vartime : Bool) (rand : ℤ) : Outcome ℤ :=
  match P with
  | .prv key _ => do
    let cache ← key.updatePrivate
    cache.crtEnc.computePower P.NN rand
  | .pub N => do
    let isCoprime ← coprime vartime rand N
    cbAssert isCoprime
    modPow P.NN rand N

/-- `scalar * N + 1` inside `MODULO(NN)`. -/
def plain (P : Paillier) (vartime : Bool) (scalar : ℤ) : Outcome ℤ := do
  let v ← modMul vartime P.NN scalar P.N
  modAdd vartime P.NN v 1

/-- `paillier_t::encrypt` with given randomness. -/
def encrypt (P : Paillier) (vartime : Bool) (src rand : ℤ) : Outcome ℤ := do
  cbAssert (decide (0 ≤ src ∧ src < P.N))
  let rn ← P.randPow vartime rand
  let v ← P.plain vartime src
  modMul vartime P.NN rn v

/-- `paillier_t::add_scalar` with `rerand_e::off`. -/
def addScalar (P : Paillier) (cipher scalar : ℤ) : Outcome ℤ := do
  let v ← P.plain false scalar
  modMul false P.NN cipher v

/-- `paillier_t::mul_scalar` with `rerand_e::off`. -/
def mulScalar (P : Paillier) (cipher scalar : ℤ) : Outcome ℤ := modPow P.NN cipher scalar

/-- `paillier_t::add_ciphers` with `rerand_e::off`. -/
def addCiphers (P : Paillier) (src1 src2 : ℤ) : Outcome ℤ := modMul false P.NN src1 src2

/-- `paillier_t::verify_cipher`. -/
def verifyCipher (P : Paillier) (cipher : ℤ) : Outcome Unit := do
  checkOpenRange 0 cipher P.NN
  let isCoprime ← coprime true cipher P.N
  require isCoprime .crypto

end Paillier

/-- `mod_t::N_inv_mod_phiN_2048` outside a `vartime_scope_t`. -/
def nInvModPhiN2048 (N : ℕ) (phiN : ℤ) : Outcome ℤ := do
  cbAssert (decide (phiN % 2 = 0))
  cbAssert (decide (N % 2 = 1))
  let nMinusPhiN ← modSub false largestPrime2048 N phiN
  let phi ← modReduce nMinusPhiN.toNat phiN
  let alpha ← modInvCt nMinusPhiN.toNat phi
  let beta ← modInvMasked N nMinusPhiN
  let sum ← modAdd false largestPrime2048 beta alpha
  modSub false largestPrime2048 sum nMinusPhiN

/-- `paillier_t::get_cipher_randomness`. -/
def PaillierPrimes.getCipherRandomness (key : PaillierPrimes) (plain cipher : ℤ) : Outcome ℤ := do
  let cache ← key.updatePrivate
  let temp ← nInvModPhiN2048 key.N cache.phiN
  let v ← (Paillier.pub key.N).plain false plain
  let vInv ← modInvMasked (key.N * key.N) v
  let c ← modMul false (key.N * key.N) cipher vInv
  modPow key.N c temp

/-- Adding a scalar to a ciphertext takes the modulus only. -/
theorem Paillier.addScalar_congr {P P' : Paillier} (h : P.N = P'.N) (cipher scalar : ℤ) :
    P.addScalar cipher scalar = P'.addScalar cipher scalar := by
  simp only [Paillier.addScalar, Paillier.plain, Paillier.NN, h]

section TotientInverse

/-- The step of `N_inv_mod_phiN_2048` from inverses modulo `a` and `φ + a` to one modulo `φ`. -/
theorem inv_of_inv_add {φ a α β : ℤ} (ha : 1 < a) (hφ : 1 < φ) (hα : 0 ≤ α ∧ α < a)
    (hβ : 0 ≤ β ∧ β < φ + a) (h1 : a ∣ φ * α - 1) (h2 : φ + a ∣ a * β - 1) :
    0 < β + α - a ∧ β + α - a < φ ∧ φ ∣ (φ + a) * (β + α - a) - 1 := by
  obtain ⟨t, ht⟩ := h1
  obtain ⟨k, hk⟩ := h2
  have hα0 : α ≠ 0 := by
    rintro rfl
    have hdvd : a ∣ 1 := ⟨-t, by linear_combination -ht⟩
    exact absurd (Int.le_of_dvd one_pos hdvd) (by omega)
  have hk0 : 0 ≤ k := by
    by_contra hneg
    have hle : (φ + a) * k ≤ (φ + a) * (-1) := mul_le_mul_of_nonneg_left (by omega) (by omega)
    have : 0 ≤ a * β := mul_nonneg (by omega) hβ.1
    omega
  have hka : k < a := by
    by_contra hge
    have hle : (φ + a) * a ≤ (φ + a) * k := mul_le_mul_of_nonneg_left (by omega) (by omega)
    have hlt : a * β ≤ a * (φ + a) := mul_le_mul_of_nonneg_left hβ.2.le (by omega)
    have hcomm := mul_comm (φ + a) a
    omega
  -- Modulo `a` the two cofactors are inverse to `φ` up to a sign, so they add up to `a`.
  have hdvd : a ∣ k + α := by
    have hφk : a ∣ φ * (k + α) := ⟨t + β - k, by linear_combination ht - hk⟩
    have hcop : IsCoprime a φ := ⟨-t, α, by linear_combination ht⟩
    exact hcop.dvd_of_dvd_mul_left hφk
  obtain ⟨j, hj⟩ := hdvd
  have hj1 : j = 1 := by
    have hpos : 0 < a * j := by omega
    have hj0 : 0 < j := pos_of_mul_pos_right hpos (by omega)
    have hj2 : a * j < a * 2 := by omega
    have := lt_of_mul_lt_mul_left hj2 (by omega)
    omega
  rw [hj1, mul_one] at hj
  have hx : β + α - a = β - k := by omega
  have hxa : (β - k) * a = 1 + k * φ := by linear_combination hk
  rw [hx]
  refine ⟨?_, ?_, β, ?_⟩
  · have : 0 < (β - k) * a := by
      rw [hxa]
      have := mul_nonneg hk0 (by omega : 0 ≤ φ)
      omega
    exact pos_of_mul_pos_left this (by omega)
  · have hle : k * φ ≤ (a - 1) * φ := mul_le_mul_of_nonneg_right (by omega) (by omega)
    have hlt : (β - k) * a < φ * a := by
      rw [hxa]
      linarith
    exact lt_of_mul_lt_mul_right hlt (by omega)
  · linear_combination hxa

/-- `N_inv_mod_phiN_2048` on a number one prime less the other is away from its totient: every
operand is in range, and the result is the inverse below the totient. -/
theorem nInvModPhiN2048_add {φ a : ℕ} (ha1 : 1 < a) (hφ1 : 1 < φ)
    (hcop : Nat.Coprime a φ) (heven : φ % 2 = 0) (hodd : (φ + a) % 2 = 1)
    (h3 : 3 ≤ bnTop (φ + a : ℕ)) (hprime : φ + a < largestPrime2048) :
    ∃ e, nInvModPhiN2048 (φ + a) φ = .ok e ∧ 0 < e ∧ e < φ ∧
    ((φ + a : ℕ) : ℤ) * e ≡ 1 [ZMOD φ] := by
  have hsize : (φ : ℤ) < 2 ^ 4096 := by
    have hle : largestPrime2048 ≤ 2 ^ (paillierBits + paillierBits) :=
      le_trans (Nat.sub_le _ _)
        (Nat.pow_le_pow_right (by norm_num) (by rw [paillierBits_eq]; norm_num))
    have h := Int.ofNat_lt.mpr (lt_of_lt_of_le (by omega : φ < largestPrime2048) hle)
    push_cast at h
    rw [paillierBits_eq] at h
    exact h
  have hsub : modSub false largestPrime2048 ((φ + a : ℕ) : ℤ) φ = .ok (a : ℤ) := by
    rw [modSub_largestPrime (by omega) (by omega) (by omega)]
    congr 1
    omega
  obtain ⟨α, hα, hαR, hα1⟩ :=
    modInvCt_of_gcd (m := a) (a := (φ : ℤ) % a) (by omega) (isInRange_emod (by omega) _)
    (by rw [Int.gcd_emod, Int.gcd_natCast_natCast]; exact hcop.symm)
  obtain ⟨β, hβ, hβR, hβ1⟩ := modInvMasked_of_gcd (a := (a : ℤ)) h3
    ((isInRange_iff _).mpr ⟨by omega, by omega⟩)
    (by rw [Int.gcd_natCast_natCast]; exact Nat.coprime_add_self_right.mpr hcop)
  have hdvdα : (a : ℤ) ∣ φ * α - 1 := by
    rw [← ZMod.intCast_zmod_eq_zero_iff_dvd, Int.cast_sub, Int.cast_mul,
      ← cast_emod (m := a) (φ : ℤ), hα1]
    simp
  have hdvdβ : (φ : ℤ) + a ∣ a * β - 1 := by
    have h : ((φ + a : ℕ) : ℤ) ∣ a * β - 1 := by
      rw [← ZMod.intCast_zmod_eq_zero_iff_dvd, Int.cast_sub, Int.cast_mul, hβ1]
      simp
    simpa using h
  have hαlt : isInRange largestPrime2048 α = true := by
    rw [isInRange_iff] at hαR ⊢
    omega
  have hβlt : isInRange largestPrime2048 β = true := by
    rw [isInRange_iff] at hβR ⊢
    omega
  rw [isInRange_iff] at hαR hβR
  obtain ⟨hpos, hlt, hinv⟩ :=
    inv_of_inv_add (by omega) (by omega) hαR (by simpa using hβR) hdvdα hdvdβ
  refine ⟨β + α - a, ?_, hpos, hlt, ?_⟩
  · have heven' : (φ : ℤ) % 2 = 0 := by omega
    simp only [nInvModPhiN2048, heven', hodd, decide_true, cbAssert_true, ok_bind, hsub,
      Int.toNat_natCast, modReduce_eq_emod ha1 (Int.natCast_nonneg φ) hsize, hα, hβ]
    rw [modAdd, modOp_eq_emod _ _ hβlt hαlt, ok_bind, modSub,
      modOp_eq_emod _ _ (isInRange_emod (by omega) _) ((isInRange_iff _).mpr ⟨by omega, by omega⟩),
      Int.emod_sub_emod, Int.emod_eq_of_lt hpos.le (by omega)]
  · push_cast
    exact ((Int.modEq_iff_dvd).mpr hinv).symm

/-- Two primes whose product is coprime to its totient are odd. -/
theorem odd_of_coprime_totient {p q : ℕ} (hp : p.Prime) (hq : q.Prime)
    (hcop : Nat.Coprime (p * q) ((p - 1) * (q - 1))) (hne : p ≠ q) : p % 2 = 1 := by
  refine hp.eq_two_or_odd.resolve_left ?_
  rintro rfl
  have hqodd := hq.eq_two_or_odd.resolve_left hne.symm
  have htwo : 2 ∣ Nat.gcd (2 * q) ((2 - 1) * (q - 1)) :=
    Nat.dvd_gcd (Nat.dvd_mul_right 2 q) (by omega)
  rw [hcop] at htwo
  omega

/-- The product of two primes exceeds its totient by `p + q - 1`, which is odd and coprime to the
totient. -/
theorem exists_totient_add {p q : ℕ} (hp : p.Prime) (hq : q.Prime) (hne : p ≠ q)
    (hcop : Nat.Coprime (p * q) ((p - 1) * (q - 1))) :
    ∃ a, p * q = (p - 1) * (q - 1) + a ∧ 1 < a ∧ 1 < (p - 1) * (q - 1) ∧
    Nat.Coprime a ((p - 1) * (q - 1)) ∧
      (p - 1) * (q - 1) % 2 = 0 ∧ ((p - 1) * (q - 1) + a) % 2 = 1 ∧
      2 * ((p - 1) * (q - 1)) ≤ a * a := by
  have hpodd := odd_of_coprime_totient hp hq hcop hne
  have hqodd := odd_of_coprime_totient hq hp
    (by rwa [Nat.mul_comm q, Nat.mul_comm (q - 1)]) hne.symm
  obtain ⟨s, rfl⟩ : ∃ s, p = s + 1 := ⟨p - 1, by have := hp.pos; omega⟩
  obtain ⟨t, rfl⟩ : ∃ t, q = t + 1 := ⟨q - 1, by have := hq.pos; omega⟩
  have hs := hp.one_lt
  have ht := hq.one_lt
  simp only [Nat.add_sub_cancel] at hcop ⊢
  have hsum : (s + 1) * (t + 1) = s * t + (s + t + 1) := by ring
  have hφ1 : 2 * 2 ≤ s * t := Nat.mul_le_mul (by omega) (by omega)
  have heven : s * t % 2 = 0 := by
    rw [Nat.mul_mod, show s % 2 = 0 by omega, Nat.zero_mul, Nat.zero_mod]
  rw [hsum, Nat.add_comm, Nat.coprime_add_self_left] at hcop
  exact ⟨s + t + 1, hsum, by omega, by omega, hcop, heven, by omega, by nlinarith⟩

theorem nInvModPhiN2048_spec {p q : ℕ} (hp : p.Prime) (hq : q.Prime) (hne : p ≠ q)
    (h3 : 3 ≤ bnTop (p * q : ℕ)) (hN : p * q < largestPrime2048)
    (hcop : Nat.Coprime (p * q) ((p - 1) * (q - 1))) :
    ∃ e, nInvModPhiN2048 (p * q) ((p - 1) * (q - 1) : ℕ) = .ok e ∧ 0 < e ∧
    e < ((p - 1) * (q - 1) : ℕ) ∧
      ((p * q : ℕ) : ℤ) * e ≡ 1 [ZMOD ((p - 1) * (q - 1) : ℕ)] := by
  obtain ⟨a, hsum, ha1, hφ1, hcopa, heven, hodd, -⟩ := exists_totient_add hp hq hne hcop
  rw [hsum] at h3 hN ⊢
  exact nInvModPhiN2048_add ha1 hφ1 hcopa heven hodd h3 hN

end TotientInverse

namespace PaillierPrimes

section Ciphertexts

variable (key : PaillierPrimes)

/-- The ciphertext of `m` with the randomness `r`. -/
def cipher (m r : ℤ) : ℤ := r ^ key.N * (m * key.N + 1) % (key.N * key.N : ℕ)

theorem isInRange_one : isInRange (key.N * key.N) 1 = true :=
  (isInRange_iff _).mpr ⟨by norm_num, by have := key.one_lt_N; have := key.N_lt_NN; omega⟩

theorem isInRange_N : isInRange (key.N * key.N) (key.N : ℤ) = true :=
  (isInRange_iff _).mpr ⟨Int.natCast_nonneg _, Int.ofNat_lt.mpr key.N_lt_NN⟩

variable {key}

theorem isInRange_of_lt_N {m : ℤ} (h0 : 0 ≤ m) (hm : m < key.N) :
    isInRange (key.N * key.N) m = true :=
  (isInRange_iff _).mpr ⟨h0, by have := key.N_lt_NN; omega⟩

theorem three_le_bnTop_NN (h3 : 3 ≤ bnTop key.N) : 3 ≤ bnTop (key.N * key.N : ℕ) := by
  rw [three_le_bnTop_iff] at h3 ⊢
  exact h3.trans key.N_lt_NN.le

theorem cast_plain (s : ℤ) :
    (((s * key.N + 1) % (key.N * key.N : ℕ) : ℤ) : ZMod (key.N * key.N)) = 1 + s * key.N := by
  rw [cast_emod]
  push_cast
  ring

theorem cast_cipher (m r : ℤ) :
    (key.cipher m r : ZMod (key.N * key.N)) =
      (r : ZMod (key.N * key.N)) ^ key.N * (1 + m * key.N) := by
  rw [cipher, cast_emod, Int.cast_mul, Int.cast_pow, Int.cast_add, Int.cast_mul, Int.cast_one,
    Int.cast_natCast, add_comm (1 : ZMod _)]

theorem encrypts_cipher (m : ℤ) {r : ℤ} (hr : Int.gcd r key.N = 1) :
    key.Encrypts (key.cipher m r) m := by
  refine ⟨isInRange_emod key.NN_pos _, ?_⟩
  have h := (IsPlain.pow_modulus ((key.isUnit_cast_iff r).mpr hr)).mul (IsPlain.one_add m)
  rwa [zero_add, ← cast_cipher] at h

theorem encrypts_plain (s : ℤ) : key.Encrypts ((s * key.N + 1) % (key.N * key.N : ℕ)) s := by
  refine ⟨isInRange_emod key.NN_pos _, ?_⟩
  rw [cast_plain]
  exact IsPlain.one_add s

theorem Encrypts.mul {c d m n : ℤ} (hc : key.Encrypts c m) (hd : key.Encrypts d n) :
    key.Encrypts (c * d % (key.N * key.N : ℕ)) (m + n) := by
  refine ⟨isInRange_emod key.NN_pos _, ?_⟩
  rw [cast_emod, Int.cast_mul]
  exact hc.2.mul hd.2

theorem Encrypts.pow {c m : ℤ} (h : key.Encrypts c m) {k : ℤ} (hk : 0 ≤ k) :
    key.Encrypts (c ^ k.toNat % (key.N * key.N : ℕ)) (k * m) := by
  refine ⟨isInRange_emod key.NN_pos _, ?_⟩
  have hpow := h.2.pow k.toNat
  rw [Int.toNat_of_nonneg hk] at hpow
  rwa [cast_emod, Int.cast_pow]

theorem Encrypts.modInvMasked (h3 : 3 ≤ bnTop key.N) {c m : ℤ} (hc : key.Encrypts c m) :
    ∃ w, modInvMasked (key.N * key.N) c = .ok w ∧ key.Encrypts w (-m) ∧
    (c : ZMod (key.N * key.N)) * w = 1 := by
  have hgcd : Int.gcd c (key.N * key.N : ℕ) = 1 := by
    rw [← Int.isCoprime_iff_gcd_eq_one, isCoprime_comm, ← ZMod.coe_int_isUnit_iff_isCoprime]
    exact hc.2.1
  obtain ⟨w, hw, hwR, hone⟩ := modInvMasked_of_gcd (three_le_bnTop_NN h3) hc.1 hgcd
  exact ⟨w, hw, ⟨hwR, hc.2.of_mul_eq_one hone⟩, hone⟩

end Ciphertexts

section Operators

variable {key : PaillierPrimes} {P : Paillier}

theorem plain_eq (hP : P.N = key.N) (vartime : Bool) {s : ℤ}
    (hs : isInRange (key.N * key.N) s = true) :
    P.plain vartime s = .ok ((s * key.N + 1) % (key.N * key.N : ℕ)) := by
  rw [Paillier.plain, Paillier.NN, hP, modMul, modOp_eq_emod _ _ hs key.isInRange_N,
    ok_bind, modAdd, modOp_eq_emod _ _ (isInRange_emod key.NN_pos _) key.isInRange_one,
    Int.emod_add_emod]

/-- Whatever `randPow` returns is the power, whether the key is there or not. -/
theorem randPow_ok (hP : P.N = key.N) {vartime : Bool} {r v : ℤ}
    (hv : P.randPow vartime r = .ok v) :
    v = r ^ key.N % (key.N * key.N : ℕ) := by
  cases P with
  | pub N =>
    obtain rfl : N = key.N := hP
    obtain ⟨b, -, hv⟩ := bind_ok_iff.mp hv
    obtain ⟨-, hv⟩ := cbAssert_bind_ok_iff.mp hv
    rw [modPow_eq _ (Int.natCast_nonneg _), Int.toNat_natCast] at hv
    exact (Except.ok.inj hv).symm
  | prv key' hkey' =>
    have hN : key'.N = key.N := hP
    obtain ⟨cache, hcache, hspec⟩ := key'.updatePrivate_cached hkey'
    simp only [Paillier.randPow, hcache, ok_bind] at hv
    have henc := Except.ok.inj (hv.symm.trans (hspec.enc (Crt.reduces_of_ok hv)))
    rwa [hN] at henc

theorem randPow_eq (hkey : key.Updates) (hP : P.N = key.N) (vartime : Bool) {r : ℤ}
    (h0 : 0 ≤ r) (hr : r < 2 ^ 4096) (hgcd : Int.gcd r key.N = 1) :
    P.randPow vartime r = .ok (r ^ key.N % (key.N * key.N : ℕ)) := by
  cases P with
  | pub N =>
    obtain rfl : N = key.N := hP
    have hcop : coprime vartime r key.N = .ok true := by
      cases vartime with
      | true => rw [coprime, if_pos rfl, decide_eq_true hgcd]
      | false =>
        rw [coprime, if_neg Bool.false_ne_true, modReduce_eq_emod key.one_lt_N h0 hr, ok_bind,
          Int.gcd_emod, decide_eq_true ⟨hkey.three_le_bnTop, hgcd⟩]
    simp only [Paillier.randPow, hcop, ok_bind, cbAssert_true]
    rw [modPow_eq _ (Int.natCast_nonneg _), Int.toNat_natCast]
    rfl
  | prv key' hkey' =>
    have hN : key'.N = key.N := hP
    obtain ⟨cache, hcache, hspec⟩ := key'.updatePrivate_cached hkey'
    have hq : 2 ≤ key'.q * key'.q := by have := key'.two_lt; nlinarith
    have hlt : key'.q * key'.q < key'.p * key'.p := Nat.mul_self_lt_mul_self key'.lt
    have hreduces : cache.crtEnc.Reduces r :=
      Crt.reduces_of_lt (by rwa [hspec.enc_p, hspec.enc_q]) (by rwa [hspec.enc_q]) h0 hr
    simp only [Paillier.randPow, hcache, ok_bind]
    rw [← hN]
    exact hspec.enc hreduces

/-- Whatever `encrypt` returns is the ciphertext, so the key does not show in it. -/
theorem encrypt_ok (hP : P.N = key.N) {vartime : Bool} {m r c : ℤ}
    (hc : P.encrypt vartime m r = .ok c) :
    (0 ≤ m ∧ m < key.N) ∧ c = key.cipher m r := by
  obtain ⟨hm, hc⟩ := cbAssert_bind_ok_iff.mp hc
  rw [decide_eq_true_iff, hP] at hm
  obtain ⟨v, hv, hc⟩ := bind_ok_iff.mp hc
  rw [plain_eq hP vartime (isInRange_of_lt_N hm.1 hm.2), ok_bind] at hc
  refine ⟨hm, ?_⟩
  rw [eq_emod_of_modOp_ok hc, randPow_ok hP hv, Paillier.NN, hP, cipher, ← Int.mul_emod]

/-- `encrypt` gives the same ciphertext with and without the private key. -/
theorem encrypt_eq (hkey : key.Updates) (hP : P.N = key.N) (vartime : Bool) {m r : ℤ}
    (hm0 : 0 ≤ m) (hm : m < key.N) (h0 : 0 ≤ r) (hr : r < 2 ^ 4096) (hgcd : Int.gcd r key.N = 1) :
    P.encrypt vartime m r = .ok (key.cipher m r) := by
  have hmP : 0 ≤ m ∧ m < P.N := ⟨hm0, hP ▸ hm⟩
  rw [Paillier.encrypt, decide_eq_true hmP, cbAssert_true, ok_bind,
    randPow_eq hkey hP vartime h0 hr hgcd, ok_bind, plain_eq hP vartime (isInRange_of_lt_N hm0 hm),
    ok_bind, modMul, Paillier.NN, hP,
    modOp_eq_emod _ _ (isInRange_emod key.NN_pos _) (isInRange_emod key.NN_pos _),
    ← Int.mul_emod, cipher]

/-- A ciphertext that is a unit was made with a unit. -/
theorem gcd_of_cipher {m r : ℤ} (h : Int.gcd (key.cipher m r) key.N = 1) : Int.gcd r key.N = 1 := by
  rw [← isUnit_cast_iff, cast_cipher] at h
  rw [← isUnit_cast_iff]
  exact (isUnit_pow_iff (by have := key.one_lt_N; omega)).mp (IsUnit.mul_iff.mp h).1

theorem Encrypts.addScalar (hP : P.N = key.N) {c m s : ℤ} (h : key.Encrypts c m)
    (hs : isInRange (key.N * key.N) s = true) :
    ∃ c', P.addScalar c s = .ok c' ∧ key.Encrypts c' (m + s) := by
  refine ⟨_, ?_, h.mul (encrypts_plain s)⟩
  rw [Paillier.addScalar, plain_eq hP false hs, ok_bind, Paillier.NN, hP, modMul,
    modOp_eq_emod _ _ h.1 (isInRange_emod key.NN_pos _)]

theorem Encrypts.mulScalar (hP : P.N = key.N) {c m k : ℤ} (h : key.Encrypts c m) (hk : 0 ≤ k) :
    ∃ c', P.mulScalar c k = .ok c' ∧ key.Encrypts c' (k * m) := by
  refine ⟨_, ?_, h.pow hk⟩
  rw [Paillier.mulScalar, modPow_eq _ hk, Paillier.NN, hP]

theorem addCiphers_eq (hP : P.N = key.N) {c d : ℤ} (hc : isInRange (key.N * key.N) c = true)
    (hd : isInRange (key.N * key.N) d = true) :
    P.addCiphers c d = .ok (c * d % (key.N * key.N : ℕ)) := by
  rw [Paillier.addCiphers, Paillier.NN, hP, modMul, modOp_eq_emod _ _ hc hd]

theorem Encrypts.verifyCipher (hP : P.N = key.N) {c m : ℤ} (h : key.Encrypts c m) :
    P.verifyCipher c = .ok () := by
  have hrange : ¬(c ≤ 0 ∨ c ≥ (key.N * key.N : ℕ)) := by
    have := h.pos
    have := h.lt
    omega
  simp only [Paillier.verifyCipher, checkOpenRange, Paillier.NN, hP, hrange, not_false_eq_true,
    decide_true, require_true, ok_bind, coprime, if_true, h.gcd]

/-- Only the residue modulo `N` of the randomness counts. -/
theorem pow_modulus_congr {N : ℕ} {a b : ℤ} (h : (a : ZMod N) = b) :
    (a : ZMod (N * N)) ^ N = (b : ZMod (N * N)) ^ N := by
  have hdvd : (N : ℤ) ∣ a - b := by
    rw [← ZMod.intCast_zmod_eq_zero_iff_dvd, Int.cast_sub, h, sub_self]
  have hsq := dvd_sub_pow_of_dvd_sub hdvd 1
  rw [← sub_eq_zero]
  have hzero : ((a ^ N - b ^ N : ℤ) : ZMod (N * N)) = 0 := by
    rw [ZMod.intCast_zmod_eq_zero_iff_dvd]
    push_cast
    rw [← sq]
    simpa using hsq
  simpa using hzero

/-- `get_cipher_randomness` recovers randomness with which `encrypt` gives the ciphertext again. -/
theorem Encrypts.getCipherRandomness (hkey : key.Updates) {c m : ℤ} (h : key.Encrypts c m)
    (hm0 : 0 ≤ m) (hm : m < key.N) :
    ∃ r, key.getCipherRandomness m c = .ok r ∧ isInRange key.N r = true ∧ Int.gcd r key.N = 1 ∧
    key.cipher m r = c := by
  have hN0 : 0 < key.N := by have := key.one_lt_N; omega
  obtain ⟨cache, hcache, hspec⟩ := key.updatePrivate_cached hkey
  obtain ⟨e, he, hpos, -, hmod⟩ :=
    nInvModPhiN2048_spec key.prime_p key.prime_q key.lt.ne' hkey.three_le_bnTop
    hkey.lt_largestPrime (key.totient_N ▸ key.coprime_totient)
  rw [← key.totient_N] at he hmod
  have hmod' : key.N * e.toNat ≡ 1 [MOD key.N.totient] := by
    rw [← Int.natCast_modEq_iff]
    push_cast
    rw [Int.toNat_of_nonneg hpos.le]
    exact hmod
  have hv := plain_eq (P := .pub key.N) rfl false (isInRange_of_lt_N hm0 hm)
  obtain ⟨w, hw, hwEnc, hone⟩ :=
    (show key.Encrypts _ m from encrypts_plain m).modInvMasked hkey.three_le_bnTop
  rw [cast_plain] at hone
  have hdiv : modMul false (key.N * key.N) c w = .ok (c * w % (key.N * key.N : ℕ)) := by
    rw [modMul, modOp_eq_emod _ _ h.1 hwEnc.1]
  have hplain : IsPlain key.N ((c : ZMod (key.N * key.N)) * w) 0 := by
    have hquot := h.2.mul hwEnc.2
    rwa [add_neg_cancel] at hquot
  have hrc : (((c * w % (key.N * key.N : ℕ)) ^ e.toNat % key.N : ℤ) : ZMod key.N) =
      ((c * w % (key.N * key.N : ℕ)) ^ e.toNat : ℤ) :=
    cast_emod _
  have hrN : (((c * w % (key.N * key.N : ℕ)) ^ e.toNat % key.N : ℤ) : ZMod (key.N * key.N)) ^
      key.N = c * w := by
    rw [pow_modulus_congr hrc, Int.cast_pow, cast_emod, Int.cast_mul, hplain.pow_pow_eq hmod']
  refine ⟨(c * w % (key.N * key.N : ℕ)) ^ e.toNat % key.N, ?_, isInRange_emod hN0 _, ?_, ?_⟩
  · have hφ : cache.phiN = key.N.totient := hspec.phiN
    change nInvModPhiN2048 key.N _ = _ at he
    simp only [PaillierPrimes.getCipherRandomness, hcache, ok_bind, hφ, he, hv, hw, hdiv,
      modPow_eq _ hpos.le]
  · rw [← isUnit_cast_iff]
    have hunit := hplain.1
    rw [← hrN] at hunit
    exact (isUnit_pow_iff hN0.ne').mp hunit
  · refine eq_of_isInRange (isInRange_emod key.NN_pos _) h.1 ?_
    rw [cast_cipher, hrN, mul_assoc, mul_comm (w : ZMod (key.N * key.N)), hone, mul_one]

/-- Units that give one ciphertext of a plaintext agree modulo `N`. -/
theorem cipher_inj {m r s : ℤ} (hr : Int.gcd r key.N = 1) (hs : Int.gcd s key.N = 1)
    (h : key.cipher m r = key.cipher m s) :
    r % key.N = s % key.N := by
  have hN0 : 0 < key.N := by have := key.one_lt_N; omega
  have hnz : NeZero key.N := ⟨hN0.ne'⟩
  have hpow : (r : ZMod (key.N * key.N)) ^ key.N = (s : ZMod (key.N * key.N)) ^ key.N := by
    have hcast := congrArg (fun c : ℤ => (c : ZMod (key.N * key.N))) h
    simp only [cast_cipher] at hcast
    exact (isUnit_one_add _).mul_right_cancel hcast
  have hmod : (r : ZMod key.N) ^ key.N = (s : ZMod key.N) ^ key.N := by
    rw [← Int.cast_pow, ← Int.cast_pow, ZMod.intCast_eq_intCast_iff_dvd_sub] at hpow ⊢
    exact dvd_trans ⟨key.N, by push_cast; rfl⟩ hpow
  have hunit : ∀ {x : ℤ}, Int.gcd x key.N = 1 → IsUnit (x : ZMod key.N) := by
    intro x hx
    rw [ZMod.coe_int_isUnit_iff_isCoprime, isCoprime_comm, Int.isCoprime_iff_gcd_eq_one]
    exact hx
  obtain ⟨u, hu⟩ := hunit hr
  obtain ⟨v, hv⟩ := hunit hs
  have hcard : (Nat.card (ZMod key.N)ˣ).Coprime key.N := by
    rw [Nat.card_eq_fintype_card, ZMod.card_units_eq_totient]
    exact key.coprime_totient.symm
  rw [← hu, ← hv, ← Units.val_pow_eq_pow_val, ← Units.val_pow_eq_pow_val] at hmod
  have huv : u = v := (powCoprime hcard).injective (Units.ext hmod)
  refine eq_of_isInRange (isInRange_emod hN0 _) (isInRange_emod hN0 _) ?_
  rw [cast_emod, cast_emod, ← hu, ← hv, huv]

/-- `get_cipher_randomness` gives back what `encrypt` took, modulo `N`. -/
theorem getCipherRandomness_cipher (hkey : key.Updates) {m r : ℤ} (hm0 : 0 ≤ m) (hm : m < key.N)
    (hgcd : Int.gcd r key.N = 1) :
    key.getCipherRandomness m (key.cipher m r) = .ok (r % key.N) := by
  obtain ⟨s, hs, hsR, hsgcd, hcipher⟩ := (encrypts_cipher m hgcd).getCipherRandomness hkey hm0 hm
  rw [isInRange_iff] at hsR
  rw [hs, ← cipher_inj hsgcd hgcd hcipher, Int.emod_eq_of_lt hsR.1 hsR.2]

end Operators

end PaillierPrimes

/-- A key of the size that `generate` makes. -/
structure PaillierKey extends PaillierPrimes where
  bits : (p * q).size = paillierBits

namespace PaillierKey

variable (key : PaillierKey)

theorem size_N : key.N.size = 2048 := by rw [PaillierPrimes.N, key.bits, paillierBits_eq]

theorem le_N : 2 ^ (paillierBits - 1) ≤ key.N := Nat.lt_size.mp (by
  rw [PaillierPrimes.N, key.bits, paillierBits_eq]
  norm_num)

theorem two_pow_le_N {k : ℕ} (hk : k < paillierBits) : 2 ^ k ≤ key.N :=
  le_trans (Nat.pow_le_pow_right (by norm_num) (by omega)) key.le_N

theorem decrypts : key.Decrypts := ⟨by rw [size_N]; norm_num, Nat.size_le.mp key.bits.le⟩

theorem updates : key.Updates := key.decrypts.updates

theorem N_lt : key.N < 2 ^ paillierBits := key.decrypts.lt_two_pow

/-- The `paillier_t` with this private key. -/
abbrev prv : Paillier := .prv key.toPaillierPrimes key.updates

variable {key} {P : Paillier}

theorem lt_two_pow_of_lt_NN {r : ℤ} (hr : r < (key.N * key.N : ℕ)) : r < 2 ^ 4096 :=
  hr.trans key.decrypts.NN_lt

/-- `encrypt` for randomness below the square of the modulus, which has the bits for it. -/
theorem encrypt_eq (hP : P.N = key.N) (vartime : Bool) {m r : ℤ} (hm0 : 0 ≤ m)
    (hm : m < key.N) (hr0 : 0 ≤ r) (hr : r < (key.N * key.N : ℕ)) (hgcd : Int.gcd r key.N = 1) :
    P.encrypt vartime m r = .ok (key.cipher m r) :=
  PaillierPrimes.encrypt_eq key.updates hP vartime hm0 hm hr0 (lt_two_pow_of_lt_NN hr) hgcd

end PaillierKey

/-- Repeated squaring modulo `p`. -/
def squareMod (p : ℕ) : ℕ → ℕ → ℕ
  | 0, x => x
  | n + 1, x => squareMod p n (x * x % p)

theorem cast_squareMod (p n x : ℕ) : (squareMod p n x : ZMod p) = (x : ZMod p) ^ 2 ^ n := by
  induction n generalizing x with
  | zero => simp [squareMod]
  | succ n ih =>
    rw [squareMod, ih, ZMod.natCast_mod, Nat.cast_mul, ← sq, ← pow_mul, ← pow_succ']

/-- Lucas' test for a number one above a prime times a power of two. -/
theorem prime_of_squareMod {k m a : ℕ} (hk : k.Prime)
    (hone : squareMod (k * 2 ^ (m + 1) + 1) (m + 1) (a ^ k % (k * 2 ^ (m + 1) + 1)) = 1)
    (hhalf : squareMod (k * 2 ^ (m + 1) + 1) m (a ^ k % (k * 2 ^ (m + 1) + 1)) %
      (k * 2 ^ (m + 1) + 1) ≠ 1)
    (hk' : squareMod (k * 2 ^ (m + 1) + 1) (m + 1) a % (k * 2 ^ (m + 1) + 1) ≠ 1) :
    (k * 2 ^ (m + 1) + 1).Prime := by
  have hp1 : 1 < k * 2 ^ (m + 1) + 1 := by
    have := Nat.mul_pos hk.pos (Nat.two_pow_pos (m + 1))
    omega
  have hcast : ∀ x : ℕ, (x : ZMod (k * 2 ^ (m + 1) + 1)) = 1 → x % (k * 2 ^ (m + 1) + 1) = 1 := by
    intro x hx
    have h : (x : ZMod (k * 2 ^ (m + 1) + 1)) = (1 : ℕ) := by rwa [Nat.cast_one]
    rw [ZMod.natCast_eq_natCast_iff'] at h
    rwa [Nat.mod_eq_of_lt hp1] at h
  have hpow : ∀ n,
      (squareMod (k * 2 ^ (m + 1) + 1) n (a ^ k % (k * 2 ^ (m + 1) + 1)) : ZMod
        (k * 2 ^ (m + 1) + 1)) =
      (a : ZMod (k * 2 ^ (m + 1) + 1)) ^ (k * 2 ^ n) := by
    intro n
    rw [cast_squareMod, ZMod.natCast_mod, Nat.cast_pow, ← pow_mul]
  refine lucas_primality _ (a : ZMod (k * 2 ^ (m + 1) + 1)) ?_ ?_
  · rw [Nat.add_sub_cancel, ← hpow, hone, Nat.cast_one]
  · intro r hr hdvd h
    rw [Nat.add_sub_cancel] at hdvd h
    rcases (Nat.Prime.dvd_mul hr).mp hdvd with hrk | hr2
    · obtain rfl : r = k := (Nat.prime_dvd_prime_iff_eq hr hk).mp hrk
      rw [Nat.mul_div_cancel_left _ hk.pos, ← cast_squareMod] at h
      exact hk' (hcast _ h)
    · obtain rfl : r = 2 := (Nat.prime_dvd_prime_iff_eq hr Nat.prime_two).mp (hr.dvd_of_dvd_pow hr2)
      have hdiv : k * 2 ^ (m + 1) / 2 = k * 2 ^ m := by
        rw [pow_succ, ← mul_assoc, Nat.mul_div_cancel _ (by norm_num)]
      rw [hdiv, ← hpow] at h
      exact hhalf (hcast _ h)

/-- A key of two primes near `2 ^ 1024`. -/
@[irreducible] def samplePaillierKey : PaillierKey where
  p := 3931 * 2 ^ (1011 + 1) + 1
  q := 7547 * 2 ^ (1010 + 1) + 1
  prime_p := prime_of_squareMod (a := 3) (by norm_num) (by decide +kernel)
    (by decide +kernel) (by decide +kernel)
  prime_q := prime_of_squareMod (a := 3) (by norm_num) (by decide +kernel)
    (by decide +kernel) (by decide +kernel)
  lt := by decide +kernel
  lt_two_mul := by decide +kernel
  two_lt := by decide +kernel
  bits := by
    have hle : (3931 * 2 ^ (1011 + 1) + 1) * (7547 * 2 ^ (1010 + 1) + 1) <
      2 ^ paillierBits := by decide +kernel
    have hge : 2 ^ (paillierBits - 1) ≤ (3931 * 2 ^ (1011 + 1) + 1) *
      (7547 * 2 ^ (1010 + 1) + 1) := by decide +kernel
    have hlt := Nat.lt_size.mpr hge
    have hsize := Nat.size_le.mpr hle
    omega

end CbMpc
