import CbMpc.ZkEcdsa2p
import CbMpc.EcdsaMp

/-!
# Two-party ECDSA

The first party holds a Paillier key, and its share of the key in the clear and encrypted.
The second party computes on the ciphertext without reducing modulo the order: the first
one decrypts an integer, tells its sign by comparing it with half of the modulus, and
reduces it afterwards.
-/
namespace CbMpc

/-- `ecdsa2pc::key_t` without the role and the curve. -/
structure Ecdsa2pKey (E : Type) where
  Q : E
  xShare : ℤ
  cKey : ℤ
  paillier : Paillier

/-- `paillier_t::decrypt`, which asserts that there is a private key. -/
def Paillier.decrypt : Paillier → ℤ → Outcome ℤ
  | .pub _, _ => throwing .assertionFailed
  | .prv key _, src => key.decrypt src

/-- `paillier_t::rand_N_star` without resampling, on the sampled value. -/
def Paillier.randNStar : Paillier → ℤ → Outcome Unit
  | .pub N, r => require (decide (Int.gcd r N = 1)) .crypto
  | .prv _ _, _ => .ok ()

variable {q : ℕ} [hq : Fact q.Prime] {E : Type} [AddCommGroup E] [Module (ZMod q) E] [DecidableEq E]

/-- `r` at the second party, the encryption of the shifted share, and `c`. -/
structure SignCipher where
  r : ℤ
  cKeyTag : ℤ
  c : ℤ

/-- `c_key + (q << SEC_P_STAT)`. -/
def shiftedKey (q : ℕ) (key : Ecdsa2pKey E) : Outcome ℤ :=
  key.paillier.addScalar key.cKey (q * 2 ^ secPStat)

/-- The ciphertext of the second party in `sign_batch_impl`. -/
def signCipher (C : EcdsaCurve E) (key : Ecdsa2pKey E) (m k2 rho rc : ℤ) (R1 : E) :
    Outcome SignCipher := do
  let r := C.getX ((k2 : ZMod q) • R1) % q
  key.paillier.randNStar rc
  let k2Inv ← modInvCt q k2
  let temp ← modMul false q k2Inv key.xShare
  let cTag ← key.paillier.encrypt false (zkEcdsaPlain q m r k2Inv temp rho) rc
  let cKeyTag ← shiftedKey q key
  let scaled ← key.paillier.mulScalar cKeyTag (k2Inv * r)
  let c ← key.paillier.addCiphers scaled cTag
  .ok ⟨r, cKeyTag, c⟩

/-- The second party's message: the ciphertext, and a proof unless a failure is to abort for
good. -/
def signP2 (hash : ZkEcdsaHash E) (curve : Curve q E) (C : EcdsaCurve E)
    (key : Ecdsa2pKey E) (globalAbort : Bool) (m k2 rho rc : ℤ) (R1 R2 : E) (sid : List (Fin 256))
    (aux : ℕ) (ω : ZkEcdsaRandomness q) :
    Outcome (ℤ × Option (ZkEcdsaProof E)) := do
  let v ← signCipher (q := q) C key m k2 rho rc R1
  if globalAbort then .ok (v.c, none)
  else do
    let Q2 ← curve.mulToGenerator key.xShare
    let π ← zkEcdsaProve hash key.paillier v.cKeyTag v.c Q2 R2 m v.r k2 key.xShare rho rc sid aux ω
    .ok (v.c, some π)

/-- The scalar that the first party recovers: decryption, the sign, the reduction and the inverse of
its nonce. -/
def recoverScalar (q : ℕ) (paillier : Paillier) (k1 c : ℤ) : Outcome ℤ := do
  let nHalf : ℤ := (paillier.N + 1) / 2
  let nModQ ← modReduce q paillier.N
  let s ← paillier.decrypt c
  let isNegative := decide (s ≥ nHalf)
  let s ← modReduce q s
  let wrapped ← modMul false q nModQ (if isNegative then 1 else 0)
  let s ← modSub false q s wrapped
  let s ← modDivCt q s k1
  .ok (lowS q s)

/-- The first party's check of the proof. -/
def signCheck (hash : ZkEcdsaHash E) (curve : Curve q E) (key : Ecdsa2pKey E)
    (globalAbort : Bool) (m r c : ℤ) (R2 : E) (sid : List (Fin 256)) (aux : ℕ)
    (π : Option (ZkEcdsaProof E)) : Outcome Unit :=
  if globalAbort then .ok ()
  else
    match π with
    | none => fail .format
    | some π => do
      let cKeyTag ← shiftedKey q key
      let QPubShare ← curve.mulToGenerator key.xShare
      zkEcdsaVerify hash curve key.paillier cKeyTag c (key.Q - QPubShare) R2 m r sid aux π

/-- A failed verification is reported as a leak when the mode is to abort for good. -/
def verifyCandidate (globalAbort : Bool) (verdict : Outcome Unit) : Outcome Unit :=
  match verdict with
  | .error (.code rv) => fail (if globalAbort then .ecdsa2pBitLeak else rv)
  | verdict => verdict

/-- The first party's last step in `sign_batch_impl`. -/
def signP1 (hash : ZkEcdsaHash E) (curve : Curve q E) (C : EcdsaCurve E)
    (key : Ecdsa2pKey E) (globalAbort : Bool) (msg : List (Fin 256)) (k1 c : ℤ) (R2 : E)
    (sid : List (Fin 256)) (aux : ℕ) (π : Option (ZkEcdsaProof E)) :
    Outcome (List (Fin 256)) := do
  let r := C.getX ((k1 : ZMod q) • R2) % q
  signCheck hash curve key globalAbort (curveMsgToBn C msg) r c R2 sid aux π
  key.paillier.verifyCipher c
  let s ← recoverScalar q key.paillier k1 c
  let candidate := C.toDer (r, s)
  verifyCandidate globalAbort (osslEcdsaVerify curve C key.Q msg candidate)
  .ok candidate

/-- What holds between the keys of the two parties after `t` refreshes: the first party's share is
the plaintext of `c_key` as an integer, and the shares of the two add up to the secret behind
`Q`. -/
structure Ecdsa2pPair (curve : Curve q E) (t : ℕ) (key : PaillierKey)
    (key1 key2 : Ecdsa2pKey E) : Prop where
  prv : key1.paillier = key.prv
  pub : key2.paillier = .pub key.N
  Q_eq : key2.Q = key1.Q
  cKey_eq : key2.cKey = key1.cKey
  size_N : 3 * q.size + 3 * secPStat + secPCom + 1 ≤ key.N.size
  decrypt_cKey : key.decrypt key1.cKey = .ok key1.xShare
  x1_range : 0 ≤ key1.xShare ∧ key1.xShare < (t + 1) * q
  x2_range : isInRange q key2.xShare = true
  sum : ((key1.xShare + key2.xShare : ℤ) : ZMod q) • curve.generator = key1.Q

/-- The plaintext of the second party's ciphertext, as an integer. -/
def signPlain (q : ℕ) (x1 m r k2Inv temp rho : ℤ) : ℤ :=
  k2Inv * r * (x1 + q * 2 ^ secPStat) + zkEcdsaPlain q m r k2Inv temp rho

/-- The plaintext stays below half of the modulus, so it is never taken for a negative number. -/
theorem signPlain_lt {q N : ℕ} (hN : q ^ 3 * 2 ^ (3 * secPStat + secPCom + 2) ≤ N)
    {x1 m r k2Inv temp rho : ℤ} (hx : 0 ≤ x1 ∧ x1 < 2 ^ secPStat * q) (hm : 0 ≤ m ∧ m < q)
    (hr : 0 ≤ r ∧ r < q) (hk : 0 ≤ k2Inv ∧ k2Inv < q) (ht : 0 ≤ temp ∧ temp < q)
    (hrho : 0 ≤ rho ∧ rho < (q * q : ℕ) * 2 ^ (2 * secPStat)) :
    0 ≤ zkEcdsaPlain q m r k2Inv temp rho ∧
    zkEcdsaPlain q m r k2Inv temp rho ≤ signPlain q x1 m r k2Inv temp rho ∧
      2 * signPlain q x1 m r k2Inv temp rho < N := by
  have hq0 : (0 : ℤ) < q := by omega
  have hNZ : (q : ℤ) ^ 3 * 2 ^ 131 ≤ N := by
    have hle : q ^ 3 * 2 ^ 131 ≤ q ^ 3 * 2 ^ (3 * secPStat + secPCom + 2) :=
      Nat.mul_le_mul_left _ (Nat.pow_le_pow_right (by norm_num)
        (by rw [secPStat, secPCom]; norm_num))
    exact_mod_cast le_trans hle hN
  simp only [secPStat] at hx hrho
  push_cast at hrho
  have hkr : k2Inv * r ≤ q * q := mul_le_mul hk.2.le hr.2.le hr.1 hq0.le
  have hkr0 : 0 ≤ k2Inv * r := mul_nonneg hk.1 hr.1
  have hshift : k2Inv * r * (x1 + q * 2 ^ 64) ≤ q * q * (2 ^ 65 * q) :=
    mul_le_mul hkr (by omega) (by omega) (mul_pos hq0 hq0).le
  have hkm : k2Inv * m ≤ q * q := mul_le_mul hk.2.le hm.2.le hm.1 hq0.le
  have htr : temp * r ≤ q * q := mul_le_mul ht.2.le hr.2.le hr.1 hq0.le
  have hrq : rho * q < q * q * 2 ^ 128 * q := mul_lt_mul_of_pos_right hrho.2 hq0
  have hsq : (q : ℤ) * q ≤ q * q * q := le_mul_of_one_le_right (mul_pos hq0 hq0).le hq0
  have h0 := mul_nonneg hkr0 (by omega : 0 ≤ x1 + q * 2 ^ 64)
  have h1 := mul_nonneg hk.1 hm.1
  have h2 := mul_nonneg ht.1 hr.1
  have h3 := mul_nonneg hrho.1 hq0.le
  have hcube : (q : ℤ) ^ 3 = q * q * q := by ring
  have hpos : 0 < (q : ℤ) * q * q := mul_pos (mul_pos hq0 hq0) hq0
  simp only [signPlain, zkEcdsaPlain, secPStat]
  rw [hcube] at hNZ
  exact ⟨by linarith, by linarith, by linarith⟩

/-- The values that the two parties sample for one signature. -/
structure SignNonces (q : ℕ) where
  k1 : ℤ
  k2 : ℤ
  rho : ℤ
  rc : ℤ
  k1_range : 0 < k1 ∧ k1 < q
  k2_range : 0 < k2 ∧ k2 < q
  rho_range : 0 ≤ rho ∧ rho < (q * q : ℕ) * 2 ^ (2 * secPStat)

theorem cast_ne_zero_of_range {k : ℤ} (h : 0 < k ∧ k < q) : (k : ZMod q) ≠ 0 := by
  intro hk
  have hres := eq_residue_of_isInRange ((isInRange_iff k).mpr ⟨h.1.le, h.2⟩)
  rw [hk, residue_zero] at hres
  omega

theorem eq_residue_of_range {k : ℤ} (h : 0 < k ∧ k < q) : k = residue (k : ZMod q) :=
  eq_residue_of_isInRange ((isInRange_iff k).mpr ⟨h.1.le, h.2⟩)

variable {curve : Curve q E} {C : EcdsaCurve E} {t : ℕ} {key : PaillierKey}
  {key1 key2 : Ecdsa2pKey E}

omit [DecidableEq E] in
theorem Ecdsa2pPair.x1_lt (h : Ecdsa2pPair curve t key key1 key2) (ht : t + 1 ≤ 2 ^ secPStat) :
    0 ≤ key1.xShare ∧ key1.xShare < 2 ^ secPStat * q := by
  refine ⟨h.x1_range.1, lt_of_lt_of_le h.x1_range.2 ?_⟩
  refine mul_le_mul_of_nonneg_right ?_ (Int.natCast_nonneg q)
  exact_mod_cast ht

theorem PaillierKey.mul_two_pow_lt (key : PaillierKey) {q : ℕ} (hq : 1 < q)
    (hsize : 3 * q.size + 3 * secPStat + secPCom + 1 ≤ key.N.size) :
    (2 ^ secPStat * q : ℤ) < key.N := by
  have hpow : 2 ^ secPStat < 2 ^ (3 * secPStat + secPCom + 2) :=
    Nat.pow_lt_pow_right (by norm_num) (by rw [secPStat]; omega)
  have hlt : 2 ^ secPStat * q < key.N :=
    calc 2 ^ secPStat * q < 2 ^ (3 * secPStat + secPCom + 2) * q :=
      Nat.mul_lt_mul_of_pos_right hpow (by omega)
      _ = q * 2 ^ (3 * secPStat + secPCom + 2) := mul_comm _ _
      _ ≤ q ^ 3 * 2 ^ (3 * secPStat + secPCom + 2) :=
        Nat.mul_le_mul_right _ (Nat.le_self_pow (by norm_num) q)
      _ ≤ key.N := key.cube_le hsize
  exact_mod_cast hlt

omit [DecidableEq E] in
/-- Either party encrypts the shifted share to the same ciphertext. -/
theorem Ecdsa2pPair.shiftedKey_eq (h : Ecdsa2pPair curve t key key1 key2) :
    ∃ cKeyTag, shiftedKey q key1 = .ok cKeyTag ∧ shiftedKey q key2 = .ok cKeyTag ∧
      key.Encrypts cKeyTag (key1.xShare + q * 2 ^ secPStat) := by
  have hrange : isInRange (key.N * key.N) ((q : ℤ) * 2 ^ secPStat) = true := by
    refine PaillierPrimes.isInRange_of_lt_N (by positivity) ?_
    rw [mul_comm]
    exact key.mul_two_pow_lt hq.out.one_lt h.size_N
  have henc := PaillierPrimes.encrypts_of_decrypt key.decrypts h.decrypt_cKey
  obtain ⟨cKeyTag, htag, hplain⟩ := henc.addScalar (P := key1.paillier) (by rw [h.prv]; rfl) hrange
  refine ⟨cKeyTag, htag, ?_, hplain⟩
  have hN : key2.paillier.N = key1.paillier.N := by rw [h.pub, h.prv]; rfl
  rw [shiftedKey, h.cKey_eq, Paillier.addScalar_congr hN, ← htag]

omit [DecidableEq E] in
/-- The second party's ciphertext, as the proof about it reads it. -/
theorem Ecdsa2pPair.signCipher_eq (h : Ecdsa2pPair curve t key key1 key2)
    (ht : t + 1 ≤ 2 ^ secPStat) (ν : SignNonces q) (hrc : 0 ≤ ν.rc ∧ ν.rc < key.N)
    (hgcd : Int.gcd ν.rc key.N = 1) {m : ℤ} (hm : 0 ≤ m ∧ m < q) (R1 : E) :
    ∃ v : SignCipher, signCipher (q := q) C key2 m ν.k2 ν.rho ν.rc R1 = .ok v ∧
      v.r = C.getX ((ν.k2 : ZMod q) • R1) % q ∧ shiftedKey q key1 = .ok v.cKeyTag ∧
      key.Encrypts v.cKeyTag (key1.xShare + q * 2 ^ secPStat) ∧
      isInRange (key.N * key.N) v.c = true ∧
      (v.c : ZMod (key.N * key.N)) =
        (v.cKeyTag : ZMod (key.N * key.N)) ^ ((residue (ν.k2 : ZMod q)⁻¹).toNat * v.r.toNat) *
        ((ν.rc : ZMod (key.N * key.N)) ^ key.N *
          (1 + (zkEcdsaPlain q m v.r (residue (ν.k2 : ZMod q)⁻¹)
          (residue ((ν.k2 : ZMod q)⁻¹ * (key2.xShare : ZMod q))) ν.rho : ℤ) * key.N)) := by
  obtain ⟨cKeyTag, htag1, htag2, hplain⟩ := h.shiftedKey_eq
  have hP : key2.paillier.N = key.N := by rw [h.pub]; rfl
  have hq0 : 0 < q := hq.out.pos
  have hrand : key2.paillier.randNStar ν.rc = .ok () := by simp [h.pub, Paillier.randNStar, hgcd]
  have hinv : modInvCt q ν.k2 = .ok (residue (ν.k2 : ZMod q)⁻¹) := by
    rw [eq_residue_of_range ν.k2_range, cast_residue]
    exact modInvCt_residue (cast_ne_zero_of_range ν.k2_range)
  have htemp : modMul false q (residue (ν.k2 : ZMod q)⁻¹) key2.xShare =
      .ok (residue ((ν.k2 : ZMod q)⁻¹ * (key2.xShare : ZMod q))) := by
    rw [eq_residue_of_isInRange h.x2_range, cast_residue]
    exact modMul_residue false _ _
  have hrange := fun z : ZMod q => (isInRange_iff _).mp (isInRange_residue z)
  have hr := (isInRange_iff _).mp (isInRange_emod hq0 (C.getX ((ν.k2 : ZMod q) • R1)))
  generalize hrdef : C.getX ((ν.k2 : ZMod q) • R1) % (q : ℤ) = r at *
  have hlt := signPlain_lt (key.cube_le h.size_N) (h.x1_lt ht) hm hr (hrange (ν.k2 : ZMod q)⁻¹)
    (hrange ((ν.k2 : ZMod q)⁻¹ * (key2.xShare : ZMod q))) ν.rho_range
  have hk2r : 0 ≤ residue (ν.k2 : ZMod q)⁻¹ * r := mul_nonneg (hrange _).1 hr.1
  generalize hpl : zkEcdsaPlain q m r (residue (ν.k2 : ZMod q)⁻¹)
    (residue ((ν.k2 : ZMod q)⁻¹ * (key2.xShare : ZMod q))) ν.rho
    = plain at *
  have henc : key2.paillier.encrypt false plain ν.rc = .ok (key.cipher plain ν.rc) :=
    PaillierKey.encrypt_eq hP false hlt.1 (by omega) hrc.1 (by have := key.N_lt_NN; omega) hgcd
  have hscaled : key2.paillier.mulScalar cKeyTag (residue (ν.k2 : ZMod q)⁻¹ * r) =
      .ok (cKeyTag ^ (residue (ν.k2 : ZMod q)⁻¹ * r).toNat % (key.N * key.N : ℕ)) := by
    rw [Paillier.mulScalar, modPow_eq _ hk2r, Paillier.NN, hP]
  refine ⟨⟨r, cKeyTag, cKeyTag ^ (residue (ν.k2 : ZMod q)⁻¹ * r).toNat %
    (key.N * key.N : ℕ) * key.cipher plain ν.rc %
    (key.N * key.N : ℕ)⟩, ?_, rfl, htag1, hplain, isInRange_emod key.NN_pos _, ?_⟩
  · simp only [signCipher, hrdef, hrand, hinv, htemp, hpl, henc, htag2, hscaled, ok_bind]
    rw [PaillierPrimes.addCiphers_eq hP (isInRange_emod key.NN_pos _)
      (PaillierPrimes.encrypts_cipher plain hgcd).1, ok_bind]
  · simp only [hpl]
    rw [cast_emod, Int.cast_mul, cast_emod, Int.cast_pow, PaillierPrimes.cast_cipher,
      Int.toNat_mul (hrange _).1 hr.1]

/-- From a plaintext below half of the modulus the first party recovers a scalar without a
correction. -/
theorem recoverScalar_eq {c T k1 : ℤ} (hdec : key.decrypt c = .ok T)
    (hT : 0 ≤ T) (hlt : 2 * T < key.N) (hk1 : 0 < k1 ∧ k1 < q) :
    recoverScalar q key.prv k1 c = .ok (lowS q (residue ((T : ZMod q) / (k1 : ZMod q)))) := by
  have hq2 := hq.out.two_le
  have hsize : (key.N : ℤ) < 2 ^ 4096 := lt_trans (Int.ofNat_lt.mpr key.N_lt_NN) key.decrypts.NN_lt
  have hneg : ¬T ≥ ((key.N : ℤ) + 1) / 2 := by omega
  have hzero : modMul false q (residue (key.N : ZMod q)) 0 = .ok 0 := by
    have h := modMul_residue false (key.N : ZMod q) 0
    rwa [residue_zero, mul_zero, residue_zero] at h
  have hsub : modSub false q (residue (T : ZMod q)) 0 = .ok (residue (T : ZMod q)) := by
    have h := modSub_residue false (T : ZMod q) 0
    rwa [residue_zero, sub_zero] at h
  have hdiv : modDivCt q (residue (T : ZMod q)) k1 =
      .ok (residue ((T : ZMod q) / (k1 : ZMod q))) := by
    have h := modDivCt_residue (T : ZMod q) (cast_ne_zero_of_range hk1)
    rwa [← eq_residue_of_range hk1] at h
  have hN : modReduce q (key.N : ℤ) = .ok (residue (key.N : ZMod q)) := by
    rw [modReduce_eq_emod hq2 (Int.natCast_nonneg _) hsize, emod_eq_residue, Int.cast_natCast]
  simp only [recoverScalar, Paillier.N, hN, Paillier.decrypt, hdec, ok_bind, hneg, decide_false,
    Bool.false_eq_true, if_false, modReduce_eq_emod hq2 hT (by omega), emod_eq_residue,
    hzero, hsub, hdiv]

/-- Modulo the order the plaintext is the numerator of the signature, divided by the second party's
nonce. -/
theorem cast_signPlain (x1 m r rho : ℤ) (x2 k2 : ZMod q) :
    (signPlain q x1 m r (residue k2⁻¹) (residue (k2⁻¹ * x2)) rho : ZMod q) =
      (m + r * (x1 + x2)) / k2 := by
  simp only [signPlain, zkEcdsaPlain]
  push_cast
  rw [cast_residue, cast_residue, ZMod.natCast_self, div_eq_mul_inv]
  ring

omit hq in
/-- The ciphertext in the form of the proof encrypts the plaintext of `signPlain`. -/
theorem encrypts_signPlain {x1 m r rho rc cKeyTag c k2Inv temp : ℤ} (hk : 0 ≤ k2Inv) (hr : 0 ≤ r)
    (htag : key.Encrypts cKeyTag (x1 + q * 2 ^ secPStat)) (hgcd : Int.gcd rc key.N = 1)
    (hc : isInRange (key.N * key.N) c = true)
    (heq : (c : ZMod (key.N * key.N)) = (cKeyTag : ZMod (key.N * key.N)) ^ (k2Inv.toNat * r.toNat) *
      ((rc : ZMod (key.N * key.N)) ^ key.N *
        (1 + (zkEcdsaPlain q m r k2Inv temp rho : ℤ) * key.N))) :
    key.Encrypts c (signPlain q x1 m r k2Inv temp rho) := by
  have hcipher : key.Encrypts (key.cipher (zkEcdsaPlain q m r k2Inv temp rho) rc)
      (zkEcdsaPlain q m r k2Inv temp rho) :=
    PaillierPrimes.encrypts_cipher _ hgcd
  have hcipher := hcipher.2
  rw [PaillierPrimes.cast_cipher] at hcipher
  have hmul := (htag.2.pow (k2Inv.toNat * r.toNat)).mul hcipher
  rw [← heq] at hmul
  refine ⟨hc, ?_⟩
  rw [signPlain]
  push_cast at hmul
  rwa [Int.toNat_of_nonneg hk, Int.toNat_of_nonneg hr] at hmul

/-- A signature is given out when it verifies. -/
theorem signP1_ok {hash : ZkEcdsaHash E} {globalAbort : Bool}
    {msg : List (Fin 256)} {k1 c s : ℤ} {R2 : E} {sid : List (Fin 256)} {aux : ℕ}
    {π : Option (ZkEcdsaProof E)} {sig : List (Fin 256)}
    (hs : recoverScalar q key1.paillier k1 c = .ok s)
    (h : signP1 hash curve C key1 globalAbort msg k1 c R2 sid aux π = .ok sig) :
    sig = C.toDer (C.getX ((k1 : ZMod q) • R2) % q, s) ∧
    osslEcdsaVerify curve C key1.Q msg sig = .ok () := by
  obtain ⟨u, -, h⟩ := bind_ok_iff.mp h
  obtain ⟨u', -, h⟩ := bind_ok_iff.mp h
  rw [hs, ok_bind] at h
  obtain ⟨u'', hv, h⟩ := bind_ok_iff.mp h
  cases h
  refine ⟨rfl, ?_⟩
  generalize osslEcdsaVerify curve C key1.Q msg _ = verdict at hv
  cases verdict with
  | ok v => rfl
  | error e => cases e <;> simp [verifyCandidate, fail] at hv

/-- The plaintext of the second party's ciphertext never wraps, and what the first party makes of it
is the scalar of the signature equation, or its negation. -/
theorem signCipher_recoverScalar (h : Ecdsa2pPair curve t key key1 key2)
    (ht : t + 1 ≤ 2 ^ secPStat) (hC : C.Lawful q) (ν : SignNonces q) (hrc : 0 ≤ ν.rc ∧ ν.rc < key.N)
    (hgcd : Int.gcd ν.rc key.N = 1) (msg : List (Fin 256)) (hm : curveMsgToBn C msg < q) :
    ∃ (v : SignCipher) (T s : ℤ),
      signCipher (q := q) C key2 (curveMsgToBn C msg) ν.k2 ν.rho ν.rc
        ((ν.k1 : ZMod q) • curve.generator) = .ok v ∧
      v.r = C.getX ((ν.k1 * ν.k2 : ZMod q) • curve.generator) % q ∧
      key.decrypt v.c = .ok T ∧ 0 ≤ T ∧ T < ((key.N : ℤ) + 1) / 2 ∧
      T = signPlain q key1.xShare (curveMsgToBn C msg) v.r (residue (ν.k2 : ZMod q)⁻¹)
        (residue ((ν.k2 : ZMod q)⁻¹ * (key2.xShare : ZMod q))) ν.rho ∧
      recoverScalar q key1.paillier ν.k1 v.c = .ok s ∧ s ≤ q / 2 ∧
      ((s : ZMod q) = (ν.k1 * ν.k2 : ZMod q)⁻¹ *
        (curveMsgToBn C msg + v.r * (key1.xShare + key2.xShare)) ∨
        (s : ZMod q) = -((ν.k1 * ν.k2 : ZMod q)⁻¹ *
          (curveMsgToBn C msg + v.r * (key1.xShare + key2.xShare)))) ∧
      (∀ hash globalAbort sid aux π sig,
        signP1 hash curve C key1 globalAbort msg ν.k1 v.c
          ((ν.k2 : ZMod q) • curve.generator) sid aux π = .ok sig →
        sig = C.toDer (v.r, s) ∧ osslEcdsaVerify curve C key1.Q msg sig = .ok ()) ∧
      (v.r ≠ 0 → (curveMsgToBn C msg + v.r * (key1.xShare + key2.xShare) : ZMod q) ≠ 0 →
        key1.Q ≠ 0 → osslEcdsaVerify curve C key1.Q msg (C.toDer (v.r, s)) = .ok ()) := by
  have hm0 : 0 ≤ curveMsgToBn C msg ∧ curveMsgToBn C msg < q := ⟨Int.natCast_nonneg _, hm⟩
  obtain ⟨v, hv, hr, -, htag, hcR, hc⟩ :=
    h.signCipher_eq (C := C) ht ν hrc hgcd hm0 ((ν.k1 : ZMod q) • curve.generator)
  have hrange := fun z : ZMod q => (isInRange_iff _).mp (isInRange_residue z)
  have hrR : 0 ≤ v.r ∧ v.r < q := by
    rw [hr]
    exact (isInRange_iff _).mp (isInRange_emod hq.out.pos _)
  have hk1 := cast_ne_zero_of_range ν.k1_range
  have hk2 := cast_ne_zero_of_range ν.k2_range
  rw [smul_smul, mul_comm (ν.k2 : ZMod q)] at hr
  have hbound := signPlain_lt (key.cube_le h.size_N) (h.x1_lt ht) hm0 hrR (hrange (ν.k2 : ZMod q)⁻¹)
    (hrange ((ν.k2 : ZMod q)⁻¹ * (key2.xShare : ZMod q))) ν.rho_range
  have henc := encrypts_signPlain (hrange (ν.k2 : ZMod q)⁻¹).1 hrR.1 htag hgcd hcR hc
  have hcast := cast_signPlain key1.xShare (curveMsgToBn C msg) v.r ν.rho
    (key2.xShare : ZMod q) (ν.k2 : ZMod q)
  generalize hT : signPlain q key1.xShare (curveMsgToBn C msg) v.r (residue (ν.k2 : ZMod q)⁻¹)
    (residue ((ν.k2 : ZMod q)⁻¹ * (key2.xShare : ZMod q))) ν.rho = T at *
  have hdec := henc.decrypt key.decrypts (by omega) (by omega)
  have hrec := recoverScalar_eq hdec (by omega) hbound.2.2 ν.k1_range
  rw [hcast, div_div, mul_comm (ν.k2 : ZMod q)] at hrec
  have hrec1 : recoverScalar q key1.paillier ν.k1 v.c = .ok (lowS q (residue
      (((curveMsgToBn C msg : ZMod q) + (v.r : ZMod q) *
        ((key1.xShare : ZMod q) + (key2.xShare : ZMod q))) /
        ((ν.k1 : ZMod q) * (ν.k2 : ZMod q))))) := by
    rw [h.prv]
    exact hrec
  refine ⟨v, T, _, hv, hr, hdec, by omega, by omega, hT.symm, hrec1, ?_, ?_, ?_, ?_⟩
  · exact lowS_le q _
  · have hlow := cast_lowS (q := q)
      (residue
        (((curveMsgToBn C msg : ZMod q) + (v.r : ZMod q) *
        ((key1.xShare : ZMod q) + (key2.xShare : ZMod q))) / ((ν.k1 : ZMod q) * (ν.k2 : ZMod q))))
    rw [← div_eq_inv_mul]
    rwa [cast_residue] at hlow
  · intro hash globalAbort sid aux π sig hsig
    have hout := signP1_ok hrec1 hsig
    rwa [smul_smul, ← hr] at hout
  · intro hr0 hs hQ
    have hrc : (v.r : ZMod q) =
        (C.getX (((ν.k1 : ZMod q) * (ν.k2 : ZMod q)) • curve.generator) : ZMod q) := by
      rw [hr, cast_emod]
    have hx : (C.getX (((ν.k1 : ZMod q) * (ν.k2 : ZMod q)) • curve.generator) : ZMod q) ≠ 0 := by
      rw [← hrc]
      exact cast_ne_zero_of_range ⟨by omega, hrR.2⟩
    have hvalid := ecdsaValid_lowS (e := curveMsgToBn C msg) (x :=
      (key1.xShare : ZMod q) + (key2.xShare : ZMod q)) hC (mul_ne_zero hk1 hk2) hx
      (by rwa [← hrc])
    have hkey : ((key1.xShare : ZMod q) + key2.xShare) • curve.generator = key1.Q := by
      rw [← h.sum]
      push_cast
      rfl
    rw [hkey, ← hr, ← hrc] at hvalid
    exact osslEcdsaVerify_toDer hC hQ hm hvalid

/-- A key of the curve of ten bits with the secret 11, of which the first party holds 5. -/
def sampleEcdsa2pKey (paillier : Paillier) (xShare : ℤ) : Ecdsa2pKey (ZMod 1009) where
  Q := (11 : ZMod 1009) • sampleCurve.generator
  xShare := xShare
  cKey := samplePaillierKey.cipher 5 1
  paillier := paillier

theorem sampleEcdsa2pPair :
    Ecdsa2pPair sampleCurve 0 samplePaillierKey (sampleEcdsa2pKey samplePaillierKey.prv 5)
    (sampleEcdsa2pKey (.pub samplePaillierKey.N) 6) where
  prv := rfl
  pub := rfl
  Q_eq := rfl
  cKey_eq := rfl
  size_N := by
    have hbits : samplePaillierKey.N.size = paillierBits := samplePaillierKey.bits
    have hq : Nat.size 1009 = 10 := by decide +kernel
    rw [hbits, paillierBits_eq, hq]
    decide
  decrypt_cKey := by
    refine (PaillierPrimes.encrypts_cipher 5 (by simp)).decrypt
      samplePaillierKey.decrypts (by norm_num) ?_
    have h : 2 ^ 3 ≤ samplePaillierKey.N :=
      samplePaillierKey.two_pow_le_N (by rw [paillierBits_eq]; norm_num)
    omega
  x1_range := by decide
  x2_range := by decide
  sum := by
    change ((5 + 6 : ℤ) : ZMod 1009) • sampleCurve.generator =
      (11 : ZMod 1009) • sampleCurve.generator
    norm_num

/-- Nonces of two parties on the curve of ten bits. -/
def sampleNonces : SignNonces 1009 where
  k1 := 3
  k2 := 7
  rho := 2 ^ 100
  rc := 1
  k1_range := by decide
  k2_range := by decide
  rho_range := by decide

theorem signCipher_recoverScalar_sample : ∃ (v : SignCipher) (T s : ℤ),
    signCipher (q := 1009) sampleEcdsaCurve
      (sampleEcdsa2pKey (.pub samplePaillierKey.N) 6) 5 7 (2 ^ 100) 1
      ((3 : ZMod 1009) • sampleCurve.generator) = .ok v ∧ v.r = 21 ∧
    samplePaillierKey.decrypt v.c = .ok T ∧ T < ((samplePaillierKey.N : ℤ) + 1) / 2 ∧
    recoverScalar 1009 samplePaillierKey.prv 3 v.c = .ok s ∧ s ≤ 504 ∧
    osslEcdsaVerify sampleCurve sampleEcdsaCurve
      ((11 : ZMod 1009) • sampleCurve.generator) [0, 5, 9]
      (sampleEcdsaCurve.toDer (21, s)) = .ok () := by
  have hrc : (1 : ℤ) < samplePaillierKey.N := Int.ofNat_lt.mpr samplePaillierKey.one_lt_N
  obtain ⟨v, T, s, hv, hr, hdec, -, hlt, -, hs, hlow, -, -, hvalid⟩ :=
    signCipher_recoverScalar sampleEcdsa2pPair
    (by decide) sampleEcdsaCurve_lawful sampleNonces ⟨by decide, hrc⟩
      Int.one_gcd [0, 5, 9] (by decide)
  have hr' : v.r = 21 := hr.trans (by decide)
  refine ⟨v, T, s, hv, hr', hdec, hlt, hs, hlow, ?_⟩
  rw [hr'] at hvalid
  exact hvalid (by decide) (by decide) (by decide)

end CbMpc
