import CbMpc.Paillier

/-!
# The operators of Paillier encryption are exact

`paillier_t` with a key of any size: every operator on ciphertexts decrypts to the sum, difference
or product modulo `N`. The exact division of `decrypt` has the bits and the words of `bit_size`,
which bounds the keys on both sides.
-/
namespace CbMpc

open NthResidues

/-- Primes of one length are less than a factor of two apart. -/
theorem lt_two_mul_of_size_eq {p q : ℕ} (hq : 0 < q) (h : p.size = q.size) : p < 2 * q := by
  obtain ⟨k, hk⟩ : ∃ k, q.size = k + 1 := ⟨q.size - 1, by have := Nat.size_pos.mpr hq; omega⟩
  have hp := Nat.lt_size_self p
  have hle : 2 ^ k ≤ q := Nat.lt_size.mp (by omega)
  rw [h, hk, pow_succ'] at hp
  omega

/-- `create_prv` with the exchange of the primes in `update_private`. -/
def PaillierPrimes.create (p q : ℕ) (hp : p.Prime) (hq : q.Prime) (hp2 : 2 < p)
    (hq2 : 2 < q) (hne : p ≠ q) (hsize : p.size = q.size) : PaillierPrimes :=
  if h : p < q then ⟨q, p, hq, hp, h, lt_two_mul_of_size_eq hp.pos hsize.symm, hp2⟩
  else ⟨p, q, hp, hq, lt_of_le_of_ne (not_lt.mp h) hne.symm,
    lt_two_mul_of_size_eq hq.pos hsize, hq2⟩

namespace Paillier

/-- `paillier_t::rerand` on the value that it draws. -/
def rerand (P : Paillier) (cipher r : ℤ) : Outcome ℤ := do
  let rn ← P.randPow false r
  modMul false P.NN rn cipher

/-- The end of every operator, by its `rerand_mode`: the value that `rerand` draws when it is on. -/
def rerandMode (P : Paillier) (mode : Option ℤ) (res : ℤ) : Outcome ℤ :=
  match mode with
  | none => .ok res
  | some r => P.rerand res r

/-- `paillier_t::add_ciphers`. -/
def addCiphersMode (P : Paillier) (src1 src2 : ℤ) (mode : Option ℤ) : Outcome ℤ := do
  let res ← P.addCiphers src1 src2
  P.rerandMode mode res

/-- `paillier_t::sub_ciphers`. -/
def subCiphersMode (P : Paillier) (src1 src2 : ℤ) (mode : Option ℤ) : Outcome ℤ := do
  let temp ← modInvMasked P.NN src2
  let res ← modMul false P.NN src1 temp
  P.rerandMode mode res

/-- `paillier_t::mul_scalar`. -/
def mulScalarMode (P : Paillier) (cipher scalar : ℤ) (mode : Option ℤ) : Outcome ℤ := do
  let res ← P.mulScalar cipher scalar
  P.rerandMode mode res

/-- `paillier_t::add_scalar`. -/
def addScalarMode (P : Paillier) (cipher scalar : ℤ) (mode : Option ℤ) : Outcome ℤ := do
  let res ← P.addScalar cipher scalar
  P.rerandMode mode res

/-- `paillier_t::sub_scalar`. -/
def subScalarMode (P : Paillier) (cipher scalar : ℤ) (mode : Option ℤ) : Outcome ℤ := do
  let v ← modMul false P.NN scalar P.N
  let temp ← modSub false P.NN 1 v
  let res ← modMul false P.NN cipher temp
  P.rerandMode mode res

/-- `paillier_t::sub_cipher_scalar`. -/
def subCipherScalarMode (P : Paillier) (scalar cipher : ℤ) (mode : Option ℤ) : Outcome ℤ := do
  let temp ← modInvMasked P.NN cipher
  let v ← P.plain false scalar
  let res ← modMul false P.NN v temp
  P.rerandMode mode res

/-- A `paillier_t` for a key, with or without the private part. -/
def For (P : Paillier) (key : PaillierPrimes) : Prop := P = .pub key.N ∨ ∃ h, P = .prv key h

end Paillier

namespace PaillierPrimes

variable {key : PaillierPrimes} {P : Paillier}

theorem N_create {p q : ℕ} (hp : p.Prime) (hq : q.Prime) (hp2 : 2 < p) (hq2 : 2 < q) (hne : p ≠ q)
    (hsize : p.size = q.size) :
    (create p q hp hq hp2 hq2 hne hsize).N = p * q := by
  unfold create N
  split
  · exact Nat.mul_comm q p
  · rfl

theorem N_of_for (h : P.For key) : P.N = key.N := by
  rcases h with rfl | ⟨-, rfl⟩ <;> rfl

/-- An operator that stands for a new plaintext, before and after its result is randomised again. -/
theorem rerandMode_spec (hkey : key.Decrypts) (hP : P.N = key.N) {mode : Option ℤ}
    (hmode : ∀ r ∈ mode, isInRange key.N r = true ∧ Int.gcd r key.N = 1) {res m : ℤ}
    (hres : key.Encrypts res m) :
    ∃ c, P.rerandMode mode res = .ok c ∧ key.decrypt c = .ok (m % key.N) := by
  cases mode with
  | none => exact ⟨res, rfl, hres.decrypt_emod hkey⟩
  | some r =>
    obtain ⟨hr, hgcd⟩ := hmode r rfl
    rw [isInRange_iff] at hr
    have hsize : r < 2 ^ 4096 := lt_trans hr.2 (lt_trans (Int.ofNat_lt.mpr key.N_lt_NN) hkey.NN_lt)
    have hzero : key.Encrypts (r ^ key.N % (key.N * key.N : ℕ)) 0 := by
      refine ⟨isInRange_emod key.NN_pos _, ?_⟩
      rw [cast_emod, Int.cast_pow]
      exact IsPlain.pow_modulus ((key.isUnit_cast_iff r).mpr hgcd)
    have hprod := hzero.mul hres
    rw [zero_add] at hprod
    refine ⟨_, ?_, hprod.decrypt_emod hkey⟩
    rw [Paillier.rerandMode, Paillier.rerand, randPow_eq hkey.updates hP false hr.1 hsize hgcd,
      ok_bind, modMul, Paillier.NN, hP, modOp_eq_emod _ _ hzero.1 hres.1]

/-- A product of two ciphertexts modulo `N * N`. -/
theorem Encrypts.modMul_mode (hkey : key.Decrypts) (hP : P.N = key.N) {mode : Option ℤ}
    (hmode : ∀ r ∈ mode, isInRange key.N r = true ∧ Int.gcd r key.N = 1) {c d m n : ℤ}
    (hc : key.Encrypts c m) (hd : key.Encrypts d n) :
    ∃ res, (do
      let v ← modMul false (key.N * key.N) c d
      P.rerandMode mode v) = .ok res ∧ key.decrypt res = .ok ((m + n) % key.N) := by
  obtain ⟨res, hres, hdec⟩ := rerandMode_spec hkey hP hmode (hc.mul hd)
  refine ⟨res, ?_, hdec⟩
  rw [modMul, modOp_eq_emod _ _ hc.1 hd.1, ok_bind, hres]

end PaillierPrimes

theorem paillier_exact (p q : ℕ) (hp : p.Prime) (hq : q.Prime) (hp2 : 2 < p) (hq2 : 2 < q)
    (hne : p ≠ q) (hsize : p.size = q.size) (hwords : 1984 < (p * q).size)
    (hbits : (p * q).size ≤ paillierBits) (key : PaillierPrimes)
    (hkey : key = PaillierPrimes.create p q hp hq hp2 hq2 hne hsize) :
    key.N = p * q ∧
    (∀ m r : ℤ, 0 ≤ m → m < key.N → Int.gcd r key.N = 1 →
      (0 ≤ r → r < 2 ^ 4096 → ∀ P : Paillier, P.For key →
        P.encrypt false m r = .ok (key.cipher m r)) ∧
      (∀ P : Paillier, P.For key → ∀ c, P.encrypt false m r = .ok c → c = key.cipher m r) ∧
      key.decrypt (key.cipher m r) = .ok m ∧
        key.getCipherRandomness m (key.cipher m r) = .ok (r % key.N)) ∧
    ∀ P : Paillier, P.For key → ∀ mode : Option ℤ,
      (∀ r ∈ mode, isInRange key.N r = true ∧ Int.gcd r key.N = 1) →
      ∀ c d : ℤ, isInRange (key.N * key.N) c = true → Int.gcd c key.N = 1 →
      isInRange (key.N * key.N) d = true → Int.gcd d key.N = 1 →
        ∃ a b, key.decrypt c = .ok a ∧ key.decrypt d = .ok b ∧
          (∃ res, P.addCiphersMode c d mode = .ok res ∧ key.decrypt res = .ok ((a + b) % key.N)) ∧
          (∃ res, P.subCiphersMode c d mode = .ok res ∧ key.decrypt res = .ok ((a - b) % key.N)) ∧
          (∀ s, isInRange (key.N * key.N) s = true →
            (∃ res, P.addScalarMode c s mode = .ok res ∧ key.decrypt res = .ok ((a + s) % key.N)) ∧
            (∃ res, P.subScalarMode c s mode = .ok res ∧ key.decrypt res = .ok ((a - s) % key.N)) ∧
            ∃ res, P.subCipherScalarMode s c mode = .ok res ∧
              key.decrypt res = .ok ((s - a) % key.N)) ∧
          ∀ k, 0 ≤ k → ∃ res, P.mulScalarMode c k mode = .ok res ∧
          key.decrypt res = .ok (a * k % key.N) := by
  have hN : key.N = p * q := by rw [hkey, PaillierPrimes.N_create]
  rw [← hN] at hwords hbits
  have hdec : key.Decrypts := ⟨hwords, Nat.size_le.mp hbits⟩
  refine ⟨hN, fun m r hm0 hm hgcd =>
    ⟨fun h0 hr P hP => PaillierPrimes.encrypt_eq hdec.updates (PaillierPrimes.N_of_for hP) false hm0
    hm h0 hr hgcd, fun P hP c hc => (PaillierPrimes.encrypt_ok (PaillierPrimes.N_of_for hP) hc).2,
    (PaillierPrimes.encrypts_cipher m hgcd).decrypt hdec hm0 hm,
    PaillierPrimes.getCipherRandomness_cipher hdec.updates hm0 hm hgcd⟩, ?_⟩
  intro P hP mode hmode c d hcR hcG hdR hdG
  have hPN := PaillierPrimes.N_of_for hP
  have hNN : P.NN = key.N * key.N := by rw [Paillier.NN, hPN]
  have h3 := hdec.updates.three_le_bnTop
  obtain ⟨a, ha, -, hcE⟩ := PaillierPrimes.encrypts_of_gcd hdec hcR hcG
  obtain ⟨b, hb, -, hdE⟩ := PaillierPrimes.encrypts_of_gcd hdec hdR hdG
  obtain ⟨v, hv, hvE, -⟩ := hcE.modInvMasked h3
  obtain ⟨w, hw, hwE, -⟩ := hdE.modInvMasked h3
  refine ⟨a, b, ha, hb, ?_, ?_, fun s hs => ⟨?_, ?_, ?_⟩, fun k hk => ?_⟩
  · rw [Paillier.addCiphersMode, Paillier.addCiphers, hNN]
    exact hcE.modMul_mode hdec hPN hmode hdE
  · rw [Paillier.subCiphersMode, hNN, hw, ok_bind, sub_eq_add_neg]
    exact hcE.modMul_mode hdec hPN hmode hwE
  · obtain ⟨c', hc', hsum⟩ := hcE.addScalar hPN hs
    obtain ⟨res, hres, hplain⟩ := PaillierPrimes.rerandMode_spec hdec hPN hmode hsum
    refine ⟨res, ?_, hplain⟩
    rw [Paillier.addScalarMode, hc', ok_bind, hres]
  · have hneg :
        key.Encrypts ((1 - s * key.N % (key.N * key.N : ℕ)) % (key.N * key.N : ℕ)) (-s) := by
      have h := @PaillierPrimes.encrypts_plain key (-s)
      rwa [show -s * (key.N : ℤ) + 1 = 1 - s * key.N by ring, ← Int.sub_emod_emod] at h
    rw [Paillier.subScalarMode, hNN, hPN, modMul, modOp_eq_emod _ _ hs key.isInRange_N,
      ok_bind, modSub, modOp_eq_emod _ _ key.isInRange_one (isInRange_emod key.NN_pos _), ok_bind,
      sub_eq_add_neg]
    exact hcE.modMul_mode hdec hPN hmode hneg
  · rw [Paillier.subCipherScalarMode, hNN, hv, ok_bind, PaillierPrimes.plain_eq hPN false hs,
      ok_bind, sub_eq_add_neg]
    exact (PaillierPrimes.encrypts_plain s).modMul_mode hdec hPN hmode hvE
  · obtain ⟨c', hc', hprod⟩ := hcE.mulScalar hPN hk
    obtain ⟨res, hres, hplain⟩ := PaillierPrimes.rerandMode_spec hdec hPN hmode hprod
    refine ⟨res, ?_, by rw [hplain, mul_comm]⟩
    rw [Paillier.mulScalarMode, hc', ok_bind, hres]

theorem paillier_exact_sample : ∃ key : PaillierPrimes, key.N = samplePaillierKey.N ∧
    (∀ P : Paillier, P.For key → P.encrypt false 3 2 = .ok (key.cipher 3 2)) ∧
    key.decrypt (key.cipher 3 2) = .ok 3 ∧
    key.getCipherRandomness 3 (key.cipher 3 2) = .ok 2 := by
  have hsize : samplePaillierKey.p.size = samplePaillierKey.q.size := by
    have hbits : ∀ {n : ℕ}, 2 ^ 1023 ≤ n → n < 2 ^ 1024 → n.size = 1024 := by
      intro n hle hlt
      have := Nat.lt_size.mpr hle
      have := Nat.size_le.mpr hlt
      omega
    unfold samplePaillierKey
    refine (hbits ?_ ?_).trans (hbits ?_ ?_).symm <;> decide +kernel
  have hp2 : 2 < samplePaillierKey.p := by
    have := samplePaillierKey.two_lt
    have := samplePaillierKey.lt
    omega
  obtain ⟨hN, henc, -⟩ := paillier_exact samplePaillierKey.p samplePaillierKey.q
    samplePaillierKey.prime_p samplePaillierKey.prime_q hp2
    samplePaillierKey.two_lt samplePaillierKey.lt.ne' hsize samplePaillierKey.decrypts.lt_size
      samplePaillierKey.bits.le _ rfl
  have hodd := samplePaillierKey.odd_N
  have hbig : 2 ^ 3 ≤ samplePaillierKey.N :=
    samplePaillierKey.two_pow_le_N (by rw [paillierBits_eq]; norm_num)
  have hN' :
    ((PaillierPrimes.create samplePaillierKey.p samplePaillierKey.q samplePaillierKey.prime_p
      samplePaillierKey.prime_q hp2
    samplePaillierKey.two_lt samplePaillierKey.lt.ne' hsize).N) = samplePaillierKey.N := hN
  have hgcd : Int.gcd 2 samplePaillierKey.N = 1 := by
    rw [show (2 : ℤ) = ((2 : ℕ) : ℤ) by rfl, Int.gcd_natCast_natCast]
    exact Nat.coprime_two_left.mpr (Nat.odd_iff.mpr hodd)
  obtain ⟨hP, -, hdec, hrand⟩ :=
    henc 3 2 (by norm_num) (by rw [hN']; omega) (by rw [hN']; exact hgcd)
  have hpow : (2 : ℤ) ^ 2 ≤ 2 ^ 4096 := pow_le_pow_right₀ (by norm_num) (by norm_num)
  refine ⟨_, hN, hP (by norm_num) (lt_of_lt_of_le (by norm_num) hpow), hdec, ?_⟩
  rw [hrand, hN', Int.emod_eq_of_lt (by norm_num) (by omega)]

/-- A key of 2049 bits, whose primes have 1025 bits each. -/
@[irreducible] def longKey : PaillierPrimes where
  p := 4621 * 2 ^ (1011 + 1) + 1
  q := 34061 * 2 ^ (1008 + 1) + 1
  prime_p := prime_of_squareMod (a := 3) (by norm_num) (by decide +kernel)
    (by decide +kernel) (by decide +kernel)
  prime_q := prime_of_squareMod (a := 3) (by norm_num) (by decide +kernel)
    (by decide +kernel) (by decide +kernel)
  lt := by decide +kernel
  lt_two_mul := by decide +kernel
  two_lt := by decide +kernel

/-- The primes are of one length, and the totient has more bits than `decrypt` keeps. -/
theorem longKey_size : longKey.p.size = 1025 ∧ longKey.q.size = 1025 ∧
    2 ^ paillierBits ≤ longKey.N.totient ∧
    longKey.N < largestPrime2048 ∧ longKey.N + 1 < 2 ^ 4096 := by
  have hsize : ∀ {n : ℕ}, 2 ^ 1024 ≤ n → n < 2 ^ 1025 → n.size = 1025 := by
    intro n hle hlt
    have := Nat.lt_size.mpr hle
    have := Nat.size_le.mpr hlt
    omega
  rw [longKey.totient_N]
  unfold largestPrime2048 PaillierPrimes.N longKey
  rw [paillierBits_eq]
  refine ⟨hsize ?_ ?_, hsize ?_ ?_, ?_, ?_, ?_⟩ <;> decide +kernel

/-- A quotient that lost its high bits is not the inverse of what inverts the whole. -/
theorem ne_one_of_emod {N n b : ℕ} (hb : 0 < b) (hle : b ≤ n) (hlt : n < N) {inv : ZMod N}
    (hinv : (n : ZMod N) * inv = 1) :
    (((n : ℤ) % b : ℤ) : ZMod N) * inv ≠ 1 := by
  intro hlow
  have hcast : (((n : ℤ) % b : ℤ) : ZMod N) = ((n : ℤ) : ZMod N) := by
    rw [Int.cast_natCast]
    linear_combination (n : ZMod N) * hlow - ((n : ℤ) % b : ℤ) * hinv
  have hmod := Nat.mod_lt n hb
  have heq := eq_of_isInRange (m := N) ((isInRange_iff _).mpr ⟨by omega, by omega⟩)
    ((isInRange_iff _).mpr ⟨by omega, by omega⟩) hcast
  omega

namespace PaillierPrimes

variable {key : PaillierPrimes}

theorem cipher_one_one (key : PaillierPrimes) :
    key.cipher 1 1 = key.N + 1 ∧ (key.N : ℤ) + 1 < (key.N * key.N : ℕ) := by
  have hlt : (key.N : ℤ) + 1 < (key.N * key.N : ℕ) := by
    have := key.one_lt_N
    have h : key.N + 1 < key.N * key.N := by nlinarith [key.N_lt_NN]
    exact_mod_cast h
  refine ⟨?_, hlt⟩
  rw [cipher, one_pow, one_mul, one_mul, Int.emod_eq_of_lt (by omega) hlt]

/-- `decrypt` fails where the totient, which is the quotient at the plaintext `1`, has too many
bits. -/
theorem decrypt_cipher_one_ne (hwords : 1984 < key.N.size) (hprime : key.N < largestPrime2048)
    (hsize : (key.N : ℤ) + 1 < 2 ^ 4096) (hφ : 2 ^ paillierBits ≤ key.N.totient) :
    key.decrypt (key.cipher 1 1) ≠ .ok 1 := by
  obtain ⟨hc, hlt⟩ := key.cipher_one_one
  have hpow : ((key.N + 1 : ℤ) : ZMod (key.N * key.N)) ^ key.N.totient =
      1 + (key.N.totient : ZMod (key.N * key.N)) * key.N := by
    have h := one_add_pow (N := key.N) 1 key.N.totient
    rw [one_mul, mul_one, add_comm] at h
    rw [Int.cast_add, Int.cast_natCast, Int.cast_one, h]
  have hgcd : Int.gcd ((key.N : ℤ) + 1) key.N = 1 := by
    rw [Int.gcd_self_add_left, Int.gcd_one_left]
  have h0 : (0 : ℤ) < key.N + 1 := Int.natCast_succ_pos key.N
  have hsquare : ∀ {p : ℕ}, p.Prime →
      modReduce (p * p) (key.N + 1) = .ok ((key.N + 1) % (p * p : ℕ)) := fun hp =>
    modReduce_eq_emod (le_trans hp.two_le (Nat.le_mul_of_pos_left _ hp.pos)) h0.le hsize
  obtain ⟨inv, -, hinv, hval⟩ :=
    key.decrypt_eq hwords hprime h0 hlt hgcd (hsquare key.prime_p)
      (hsquare key.prime_q) key.totient_lt hpow
  rw [hc, hval]
  intro hdec
  have hlow := congrArg (fun x : ℤ => (x : ZMod key.N)) (eq_emod_of_modOp_ok hdec)
  simp only [cast_emod, Int.cast_mul, Int.cast_one] at hlow
  refine ne_one_of_emod (Nat.two_pow_pos paillierBits) hφ key.totient_lt hinv ?_
  rw [hlow, Nat.cast_pow, Nat.cast_ofNat]

end PaillierPrimes

/-- Longer keys lose the high bits of the quotient. -/
theorem decrypt_longKey :
    longKey.p.size = longKey.q.size ∧
    (∀ P : Paillier, P.For longKey → P.encrypt false 1 1 = .ok (longKey.cipher 1 1)) ∧
    longKey.decrypt (longKey.cipher 1 1) ≠ .ok 1 := by
  obtain ⟨hp, hq, hφ, hprime, hsize⟩ := longKey_size
  have hone : (1 : ℤ) < 2 ^ 4096 := one_lt_pow₀ (by norm_num) (by norm_num)
  have hwords : 1984 < longKey.N.size := by
    have hsize : paillierBits < longKey.N.size := Nat.lt_size.mpr (hφ.trans longKey.totient_lt.le)
    rw [paillierBits_eq] at hsize
    omega
  refine ⟨hp.trans hq.symm, fun P hP => ?_,
    PaillierPrimes.decrypt_cipher_one_ne hwords hprime ?_ hφ⟩
  · exact PaillierPrimes.encrypt_eq ⟨(PaillierPrimes.le_bnTop_of_size hwords).1,
      hprime⟩ (PaillierPrimes.N_of_for hP) false zero_le_one
      (Int.ofNat_lt.mpr longKey.one_lt_N) zero_le_one hone (Int.gcd_one_left _)
  · exact_mod_cast Int.ofNat_lt.mpr hsize

end CbMpc
