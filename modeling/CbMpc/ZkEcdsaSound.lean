import CbMpc.Ecdsa2p

/-!
# Completeness and soundness of the proof in two-party signing

The proof for the second party's ciphertext is accepted unless one of its points is infinite. From
two proofs with the same first message the differences of the responses satisfy the equations of the
statement, multiplied by the difference of the challenges.
-/
namespace CbMpc

open NthResidues

/-- The second party's ciphertext in `sign_batch_impl`, from `k2_inv` on. -/
def shareCipher (q : ℕ) (paillier : Paillier) (cKeyTag m r k2 x2 rho rc : ℤ) : Outcome ℤ := do
  let k2Inv ← modInvCt q k2
  let temp ← modMul false q k2Inv x2
  let cTag ← paillier.encrypt false (zkEcdsaPlain q m r k2Inv temp rho) rc
  let scaled ← paillier.mulScalar cKeyTag (k2Inv * r)
  paillier.addCiphers scaled cTag

variable {q : ℕ} [hq : Fact q.Prime] {E : Type} [AddCommGroup E] [Module (ZMod q) E] [DecidableEq E]

section Complete

variable {key : PaillierKey} {cKey m r rho rc : ℤ} {k2 x2 : ZMod q}

/-- The ciphertext exists, and it is what the proof is about. -/
theorem shareCipher_inputs (x2 : ZMod q) {P : Paillier} (hP : P.N = key.N)
    (hsize : 3 * q.size + 3 * secPStat + secPCom + 1 ≤ key.N.size)
    (hcKey : isInRange (key.N * key.N) cKey = true) (hgcd : Int.gcd cKey key.N = 1)
    (hm : 0 ≤ m ∧ m < q) (hr : 0 ≤ r ∧ r < q) (hk2 : k2 ≠ 0)
    (hrho : 0 ≤ rho ∧ rho < (q * q : ℕ) * 2 ^ (2 * secPStat)) (hrc : 0 ≤ rc ∧ rc < key.N)
    (hgcdc : Int.gcd rc key.N = 1) :
    ∃ c, shareCipher q P cKey m r (residue k2) (residue x2) rho rc = .ok c ∧
    ZkEcdsaInputs key cKey c m r rho rc k2 x2 := by
  have hrange := fun z : ZMod q => (isInRange_iff _).mp (isInRange_residue z)
  have hwiden : ∀ z : ZMod q, 0 ≤ residue z ∧
      residue z < q * 2 ^ (secPStat + secPCom + 1) := fun z =>
    ⟨(hrange z).1, lt_of_lt_of_le (hrange z).2
      (le_mul_of_one_le_right (Int.natCast_nonneg q) (one_le_pow₀ (by norm_num)))⟩
  have hrho' : 0 ≤ rho ∧ rho < (q * q : ℕ) * 2 ^ (3 * secPStat + secPCom + 1) :=
    ⟨hrho.1, lt_of_lt_of_le hrho.2
      (mul_le_mul_of_nonneg_left (pow_le_pow_right₀ (by norm_num) (by rw [secPStat]; omega))
      (Int.natCast_nonneg _))⟩
  have hlt := zkEcdsaPlain_lt (key.cube_le hsize) hm hr (hwiden k2⁻¹) (hwiden (k2⁻¹ * x2)) hrho'
  have hk2r : 0 ≤ residue k2⁻¹ * r := mul_nonneg (hrange _).1 hr.1
  generalize hpl : zkEcdsaPlain q m r (residue k2⁻¹) (residue (k2⁻¹ * x2)) rho = plain at hlt
  have henc : P.encrypt false plain rc = .ok (key.cipher plain rc) :=
    PaillierKey.encrypt_eq hP false hlt.1 hlt.2 hrc.1
      (lt_trans hrc.2 (Int.ofNat_lt.mpr key.N_lt_NN)) hgcdc
  have hscaled : P.mulScalar cKey (residue k2⁻¹ * r) =
      .ok (cKey ^ (residue k2⁻¹ * r).toNat % (key.N * key.N : ℕ)) := by
    rw [Paillier.mulScalar, modPow_eq _ hk2r, Paillier.NN, hP]
  refine ⟨cKey ^ (residue k2⁻¹ * r).toNat % (key.N * key.N : ℕ) * key.cipher plain rc %
    (key.N * key.N : ℕ), ?_, hsize, hcKey, hgcd, hk2, hm, hr, hrho, hgcdc,
    isInRange_emod key.NN_pos _, ?_⟩
  · rw [shareCipher, modInvCt_residue hk2, ok_bind, modMul_residue, ok_bind, hpl, henc, ok_bind,
      hscaled, ok_bind, Paillier.addCiphers, Paillier.NN, hP, modMul,
      modOp_eq_emod _ _ (isInRange_emod key.NN_pos _)
        (PaillierPrimes.encrypts_cipher plain hgcdc).1]
  · rw [hpl, cast_emod, Int.cast_mul, cast_emod, Int.cast_pow, PaillierPrimes.cast_cipher,
      Int.toNat_mul (hrange _).1 hr.1]

omit [DecidableEq E] in
/-- Randomness that shares a factor with the modulus ends the proof. -/
theorem zkEcdsaProve_of_gcd_ne {c : ℤ} (h : ZkEcdsaInputs key cKey c m r rho rc k2 x2)
    (hash : ZkEcdsaHash E) {P : Paillier} (hP : P.N = key.N) (Q2 R2 : E) (sid : List (Fin 256))
    (aux : ℕ) (ω : ZkEcdsaRandomness q) (hgcd : Int.gcd ω.rEnc key.N ≠ 1) :
    zkEcdsaProve hash P cKey c Q2 R2 m r (residue k2) (residue x2) rho rc sid aux ω =
      fail .crypto := by
  have hrange := fun z : ZMod q => (isInRange_iff _).mp (isInRange_residue z)
  have hcKey : P.mulScalar cKey r = .ok (cKey ^ r.toNat % P.NN) := by
    rw [Paillier.mulScalar, modPow_eq _ h.r_range.1]
  rw [zkEcdsaProve, hcKey, ok_bind, modInvCt_residue h.k2_ne_zero, ok_bind, modMul_residue, ok_bind,
    intCommit_eq false (hrange _).1 ω.r1W_range.1, ok_bind,
    intCommit_eq false (hrange _).1 ω.r2W_range.1, ok_bind,
    intCommit_eq false h.rho_range.1 ω.r3W_range.1, ok_bind,
    intCommit_eq false ω.w1Tag_range.1 ω.r1WTag_range.1, ok_bind,
    intCommit_eq false ω.w2Tag_range.1 ω.r2WTag_range.1, ok_bind,
    intCommit_eq false ω.w3Tag_range.1 ω.r3WTag_range.1, ok_bind, hP,
    decide_eq_false hgcd, require_false]
  rfl

omit [DecidableEq E] in
/-- The first message does not depend on the oracle. -/
theorem zkEcdsaProve_commitments {hash hash' : ZkEcdsaHash E} {P : Paillier} {c k2 x2 : ℤ}
    {Q2 R2 : E} {sid : List (Fin 256)} {aux : ℕ} {ω : ZkEcdsaRandomness q} {π π' : ZkEcdsaProof E}
    (h : zkEcdsaProve hash P cKey c Q2 R2 m r k2 x2 rho rc sid aux ω = .ok π)
    (h' : zkEcdsaProve hash' P cKey c Q2 R2 m r k2 x2 rho rc sid aux ω = .ok π') :
    π.toZkEcdsaCommitments = π'.toZkEcdsaCommitments := by
  obtain ⟨cKeyTag, hcKey, h⟩ := bind_ok_iff.mp h
  obtain ⟨w1, hw1, h⟩ := bind_ok_iff.mp h
  obtain ⟨w2, hw2, h⟩ := bind_ok_iff.mp h
  obtain ⟨W1, hW1, h⟩ := bind_ok_iff.mp h
  obtain ⟨W2, hW2, h⟩ := bind_ok_iff.mp h
  obtain ⟨W3, hW3, h⟩ := bind_ok_iff.mp h
  obtain ⟨W1Tag, hW1Tag, h⟩ := bind_ok_iff.mp h
  obtain ⟨W2Tag, hW2Tag, h⟩ := bind_ok_iff.mp h
  obtain ⟨W3Tag, hW3Tag, h⟩ := bind_ok_iff.mp h
  obtain ⟨hgcd, h⟩ := require_bind_ok_iff.mp h
  obtain ⟨cEncTag, hcEnc, h⟩ := bind_ok_iff.mp h
  obtain ⟨rcE, -, h⟩ := bind_ok_iff.mp h
  obtain ⟨rEnc, -, h⟩ := bind_ok_iff.mp h
  rw [zkEcdsaProve, hcKey, ok_bind, hw1, ok_bind, hw2, ok_bind, hW1, ok_bind, hW2, ok_bind, hW3,
    ok_bind, hW1Tag, ok_bind, hW2Tag, ok_bind, hW3Tag, ok_bind, hgcd, require_true, ok_bind, hcEnc,
    ok_bind] at h'
  obtain ⟨rcE', -, h'⟩ := bind_ok_iff.mp h'
  obtain ⟨rEnc', -, h'⟩ := bind_ok_iff.mp h'
  rw [← Except.ok.inj h, ← Except.ok.inj h']

/-- The verdict on an honest proof depends on the points only. -/
theorem zkEcdsaVerify_honest {c : ℤ} (h : ZkEcdsaInputs key cKey c m r rho rc k2 x2)
    (hash : ZkEcdsaHash E) (curve : Curve q E) {P V : Paillier} (hP : P.N = key.N)
    (hV : V.N = key.N) (sid : List (Fin 256)) (aux : ℕ) (ω : ZkEcdsaRandomness q)
    (hrEnc : 0 ≤ ω.rEnc ∧ ω.rEnc < key.N) (hgcd : Int.gcd ω.rEnc key.N = 1) :
    ∃ π, zkEcdsaProve hash P cKey c (x2 • curve.generator) (k2 • curve.generator) m r
      (residue k2) (residue x2) rho rc
        sid aux ω = .ok π ∧
      ZkEcdsaAccepted hash curve V cKey c (x2 • curve.generator)
        (k2 • curve.generator) m r sid aux π ∧
      (zkEcdsaVerify hash curve V cKey c (x2 • curve.generator) (k2 • curve.generator)
        m r sid aux π = .ok () ↔
        x2 ≠ 0 ∧ ¬(q : ℤ) ∣ ω.w1Tag ∧ ¬(q : ℤ) ∣ ω.w2Tag) := by
  obtain ⟨π, hprove, hacc, hG, hQ2⟩ := zkEcdsa_honest h hash curve hP hV sid aux ω hrEnc hgcd
  refine ⟨π, hprove, hacc, ?_⟩
  have hR2 : k2 • curve.generator ≠ 0 := fun h0 =>
    h.k2_ne_zero ((smul_generator_eq_zero curve).mp h0)
  rw [zkEcdsaVerify_ok_iff, hG, hQ2, and_iff_left hacc, and_iff_right hR2, ne_eq,
    smul_generator_eq_zero, smul_smul_generator_ne_zero curve h.k2_ne_zero,
    smul_smul_generator_ne_zero curve h.k2_ne_zero, ne_eq, ne_eq, ne_eq,
    ZMod.intCast_zmod_eq_zero_iff_dvd, ZMod.intCast_zmod_eq_zero_iff_dvd]

/-- What the honest second party sends is a ciphertext and a proof that the first party accepts,
unless a point of the proof is infinite. When a failure is to abort for good there is no proof, and
nothing is checked. -/
theorem Ecdsa2pPair.signP2_signCheck {curve : Curve q E} {C : EcdsaCurve E} {t : ℕ}
    {key1 key2 : Ecdsa2pKey E} (hpair : Ecdsa2pPair curve t key key1 key2)
    (ht : t + 1 ≤ 2 ^ secPStat) (ν : SignNonces q) (hrc : 0 ≤ ν.rc ∧ ν.rc < key.N)
    (hgcd : Int.gcd ν.rc key.N = 1) (hm : 0 ≤ m ∧ m < q) (hash : ZkEcdsaHash E) (globalAbort : Bool)
    (R1 : E) (sid : List (Fin 256)) (aux : ℕ) (ω : ZkEcdsaRandomness q)
    (hrEnc : 0 ≤ ω.rEnc ∧ ω.rEnc < key.N) (hgcdEnc : Int.gcd ω.rEnc key.N = 1) :
    ∃ c π, signP2 hash curve C key2 globalAbort m ν.k2 ν.rho ν.rc R1
      ((ν.k2 : ZMod q) • curve.generator) sid aux ω = .ok (c, π) ∧
      (signCheck hash curve key1 globalAbort m (C.getX ((ν.k2 : ZMod q) • R1) % q) c
        ((ν.k2 : ZMod q) • curve.generator)
          sid aux π = .ok () ↔
        globalAbort = true ∨ key2.xShare ≠ 0 ∧ ¬(q : ℤ) ∣ ω.w1Tag ∧ ¬(q : ℤ) ∣ ω.w2Tag) := by
  obtain ⟨v, hv, hvr, htag, hplain, hcR, hceq⟩ := hpair.signCipher_eq (C := C) ht ν hrc hgcd hm R1
  cases globalAbort with
  | true =>
    refine ⟨v.c, none, ?_, ?_⟩
    · rw [signP2, hv, ok_bind, if_pos rfl]
    · rw [signCheck, if_pos rfl]
      exact iff_of_true rfl (.inl rfl)
  | false =>
    have hin : ZkEcdsaInputs key v.cKeyTag v.c m v.r ν.rho ν.rc (ν.k2 : ZMod q)
        (key2.xShare : ZMod q) :=
      ⟨hpair.size_N, hplain.1, (key.isUnit_cast_iff _).mp hplain.2.1,
        cast_ne_zero_of_range ν.k2_range, hm,
        hvr ▸ (isInRange_iff _).mp (isInRange_emod hq.out.pos _), ν.rho_range, hgcd, hcR, hceq⟩
    have hk2 : ν.k2 = residue (ν.k2 : ZMod q) := eq_residue_of_range ν.k2_range
    have hx2 : key2.xShare = residue (key2.xShare : ZMod q) :=
      eq_residue_of_isInRange hpair.x2_range
    have hx20 : (key2.xShare : ZMod q) = 0 ↔ key2.xShare = 0 := by
      refine ⟨fun h => ?_, fun h => by rw [h, Int.cast_zero]⟩
      rw [hx2, h, residue_zero]
    have hP : key2.paillier.N = key.N := by rw [hpair.pub]; rfl
    have hV : key1.paillier.N = key.N := by rw [hpair.prv]; rfl
    obtain ⟨π, hprove, -, hverify⟩ :=
      zkEcdsaVerify_honest hin hash curve hP hV sid aux ω hrEnc hgcdEnc
    rw [← hk2, ← hx2] at hprove
    rw [ne_eq, hx20] at hverify
    -- The first party takes the other point from the public key.
    have hx1 := hpair.x1_lt ht
    have hsize : key1.xShare < 2 ^ 4096 := by
      have hN := key.mul_two_pow_lt hq.out.one_lt hpair.size_N
      have hNN := lt_trans (Int.ofNat_lt.mpr key.N_lt_NN) key.decrypts.NN_lt
      omega
    have hQ2 : key1.Q - (key1.xShare : ZMod q) • curve.generator =
        (key2.xShare : ZMod q) • curve.generator := by
      rw [← hpair.sum, Int.cast_add, add_smul, add_sub_cancel_left]
    refine ⟨v.c, some π, ?_, ?_⟩
    · rw [signP2, hv, ok_bind, if_neg Bool.false_ne_true,
        mulToGenerator_of_isInRange curve hpair.x2_range, ok_bind, hprove, ok_bind]
    · rw [← hvr, signCheck, if_neg Bool.false_ne_true, htag, ok_bind,
        mulToGenerator_of_lt curve hx1.1 hsize, ok_bind, hQ2, hverify,
        or_iff_right Bool.false_ne_true]

end Complete

section Sound

variable {V : Paillier}

/-- What `enc` returns is the ciphertext, also for randomness that shares a factor with the
modulus. -/
theorem Paillier.encrypt_ok {vartime : Bool} {m r c : ℤ} (hr : 0 < r ∧ r < V.N)
    (h : V.encrypt vartime m r = .ok c) :
    (0 ≤ m ∧ m < V.N) ∧ (c : ZMod (V.N * V.N)) = (r : ZMod (V.N * V.N)) ^ V.N * (1 + m * V.N) := by
  obtain ⟨hm, h⟩ := cbAssert_bind_ok_iff.mp h
  obtain ⟨rn, hrn, h⟩ := bind_ok_iff.mp h
  obtain ⟨v, hv, h⟩ := bind_ok_iff.mp h
  obtain ⟨w, hw, hv⟩ := bind_ok_iff.mp hv
  have hrand : (rn : ZMod (V.N * V.N)) = (r : ZMod (V.N * V.N)) ^ V.N := by
    cases V with
    | pub N =>
      obtain ⟨b, -, hrn⟩ := bind_ok_iff.mp hrn
      obtain ⟨-, hrn⟩ := cbAssert_bind_ok_iff.mp hrn
      rw [modPow_eq _ (Int.natCast_nonneg N)] at hrn
      rw [← Except.ok.inj hrn, Paillier.NN, cast_emod, Int.cast_pow, Int.toNat_natCast, Paillier.N]
    | prv key hkey =>
      rw [PaillierPrimes.randPow_ok rfl hrn]
      change ((r ^ key.N % (key.N * key.N : ℕ) : ℤ) : ZMod (key.N * key.N)) =
        (r : ZMod (key.N * key.N)) ^ key.N
      rw [cast_emod, Int.cast_pow]
  refine ⟨of_decide_eq_true hm, ?_⟩
  rw [eq_emod_of_modOp_ok h, eq_emod_of_modOp_ok hv, eq_emod_of_modOp_ok hw, Paillier.NN, cast_emod,
    Int.cast_mul, hrand, cast_emod, Int.cast_add, cast_emod, Int.cast_mul, Int.cast_natCast,
    Int.cast_one, add_comm]

/-- The left side of the last equation of `verify`. -/
def ZkEcdsaProof.answer (N : ℕ) (q : ℕ) (cKey m r : ℤ) (π : ZkEcdsaProof E) : ZMod (N * N) :=
  (π.rEncTagTag : ZMod (N * N)) ^ N *
    (1 + zkEcdsaPlain q m r π.w1TagTag π.w2TagTag π.w3TagTag * N) *
    ((cKey : ZMod (N * N)) ^ r.toNat) ^ π.w1TagTag.toNat

variable {hash : ZkEcdsaHash E} {curve : Curve q E} {cKey c m r : ℤ} {Q2 R2 : E}
  {sid : List (Fin 256)} {aux : ℕ} {π : ZkEcdsaProof E}

omit [DecidableEq E] in
/-- The ciphertext equation of an accepted proof, without the steps of the code. -/
theorem ZkEcdsaAccepted.answer_eq (h : ZkEcdsaAccepted hash curve V cKey c Q2 R2 m r sid aux π) :
    π.answer V.N q cKey m r = (π.cEncTag : ZMod (V.N * V.N)) *
      (c : ZMod (V.N * V.N)) ^ π.e.toNat := by
  obtain ⟨cKeyTag, left, ce, hcKey, hleft, hce, hright⟩ := h.cipher
  obtain ⟨enc, henc, hleft⟩ := bind_ok_iff.mp hleft
  obtain ⟨scaled, hscaled, hleft⟩ := bind_ok_iff.mp hleft
  have he : 0 ≤ π.e := h.challenge ▸ Int.natCast_nonneg _
  rw [Paillier.mulScalar, modPow_eq _ h.r_range.1] at hcKey
  rw [Paillier.mulScalar, modPow_eq _ h.inRange.w1TagTag.1] at hscaled
  rw [Paillier.mulScalar, modPow_eq _ he] at hce
  have hvalue := (eq_emod_of_modOp_ok hleft).symm.trans (eq_emod_of_modOp_ok hright)
  have hcast := congrArg (fun x : ℤ => (x : ZMod (V.N * V.N))) hvalue
  simp only [Paillier.NN, cast_emod, Int.cast_mul] at hcast
  rw [(Paillier.encrypt_ok h.inRange.rEncTagTag henc).2, ← Except.ok.inj hscaled,
    ← Except.ok.inj hce, ← Except.ok.inj hcKey, Paillier.NN] at hcast
  simpa only [ZkEcdsaProof.answer, cast_emod, Int.cast_pow] using hcast

omit [DecidableEq E] in
theorem ZkEcdsaAccepted.plain_lt (h : ZkEcdsaAccepted hash curve V cKey c Q2 R2 m r sid aux π) :
    0 ≤ zkEcdsaPlain q m r π.w1TagTag π.w2TagTag π.w3TagTag ∧
    zkEcdsaPlain q m r π.w1TagTag π.w2TagTag π.w3TagTag < V.N := by
  obtain ⟨cKeyTag, left, ce, hcKey, hleft, hce, hright⟩ := h.cipher
  obtain ⟨enc, henc, hleft⟩ := bind_ok_iff.mp hleft
  exact (Paillier.encrypt_ok h.inRange.rEncTagTag henc).1

theorem Paillier.gcd_of_encrypt_pub {N : ℕ} {m r c : ℤ}
    (h : (Paillier.pub N).encrypt true m r = .ok c) : Int.gcd r N = 1 := by
  obtain ⟨-, h⟩ := cbAssert_bind_ok_iff.mp h
  obtain ⟨rn, hrn, h⟩ := bind_ok_iff.mp h
  obtain ⟨b, hb, hrn⟩ := bind_ok_iff.mp hrn
  obtain ⟨rfl, hrn⟩ := cbAssert_bind_ok_iff.mp hrn
  exact of_decide_eq_true (Except.ok.inj hb)

section

omit [DecidableEq E]

/-- The public key alone tells that the commitment is coprime to the modulus. -/
theorem ZkEcdsaAccepted.gcd_cEncTag {key : PaillierKey}
    (h : ZkEcdsaAccepted hash curve (.pub key.N) cKey c Q2 R2 m r sid aux π)
    (hgcd : Int.gcd cKey key.N = 1) : Int.gcd π.cEncTag key.N = 1 := by
  have hanswer : π.answer key.N q cKey m r = _ := h.answer_eq
  obtain ⟨cKeyTag, left, ce, hcKey, hleft, hce, hright⟩ := h.cipher
  obtain ⟨enc, henc, hleft⟩ := bind_ok_iff.mp hleft
  have hunit : IsUnit (π.answer key.N q cKey m r) :=
    ((((key.isUnit_cast_iff _).mpr (Paillier.gcd_of_encrypt_pub henc)).pow _).mul
      (isUnit_one_add _)).mul
      ((((key.isUnit_cast_iff _).mpr hgcd).pow _).pow _)
  rw [hanswer] at hunit
  exact (key.isUnit_cast_iff _).mp (IsUnit.mul_iff.mp hunit).1

/-- Two answers to one commitment differ by a multiple of the point behind it. -/
theorem sub_smul_of_accepted {w w' e e' : ℤ} {P T : E}
    (h : (w : ZMod q) • R2 = (e : ZMod q) • P + T)
    (h' : (w' : ZMod q) • R2 = (e' : ZMod q) • P + T) :
    ((w - w' : ℤ) : ZMod q) • R2 = ((e - e' : ℤ) : ZMod q) • P := by
  rw [Int.cast_sub, sub_smul, h, h', Int.cast_sub, sub_smul, add_sub_add_right_eq_sub]

/-- The plaintext of an answer, where the commitment and the two ciphertexts are coprime to the
modulus. -/
theorem ZkEcdsaAccepted.isPlain {key : PaillierKey} (hV : V.N = key.N) {M X Z : ℤ}
    (h : ZkEcdsaAccepted hash curve V cKey c Q2 R2 m r sid aux π)
    (hc : IsPlain key.N (c : ZMod (key.N * key.N)) M)
    (hcKey : IsPlain key.N (cKey : ZMod (key.N * key.N)) X)
    (hcEnc : IsPlain key.N (π.cEncTag : ZMod (key.N * key.N)) Z) :
    ((zkEcdsaPlain q m r π.w1TagTag π.w2TagTag π.w3TagTag + π.w1TagTag * (r * X) : ℤ) : ZMod
      key.N) = (Z + π.e * M : ℤ) := by
  have hN : key.N ≠ 0 := by have := key.one_lt_N; omega
  have he : 0 ≤ π.e := h.challenge ▸ Int.natCast_nonneg _
  have hanswer := h.answer_eq
  rw [hV] at hanswer
  have hright : IsPlain key.N (π.answer key.N q cKey m r) (Z + π.e * M) := by
    have hmul := hcEnc.mul (hc.pow π.e.toNat)
    rwa [← hanswer, Int.toNat_of_nonneg he] at hmul
  have hunit : IsUnit (π.rEncTagTag : ZMod (key.N * key.N)) :=
    (isUnit_pow_iff hN).mp (IsUnit.mul_iff.mp (IsUnit.mul_iff.mp hright.1).1).1
  have hleft :=
    ((IsPlain.pow_modulus hunit).mul
      (IsPlain.one_add (zkEcdsaPlain q m r π.w1TagTag π.w2TagTag π.w3TagTag))).mul
    ((hcKey.pow r.toNat).pow π.w1TagTag.toNat)
  rw [Int.toNat_of_nonneg h.inRange.w1TagTag.1, Int.toNat_of_nonneg h.r_range.1, zero_add] at hleft
  exact hleft.unique hN key.coprime_totient hright

end

end Sound

/-- The second party's proof is accepted unless a point is infinite, and two accepted proofs with
one first message relate the differences of their responses to the difference of the challenges. -/
theorem zkEcdsa_complete_sound :
    (∀ (key : PaillierKey) (cKey m r k2 x2 rho rc : ℤ),
      3 * q.size + 3 * secPStat + secPCom + 1 ≤ key.N.size →
      isInRange (key.N * key.N) cKey = true → Int.gcd cKey key.N = 1 → 0 ≤ m ∧ m < q → 0 ≤ r ∧
        r < q → 1 ≤ k2 ∧ k2 < q →
      0 ≤ x2 ∧ x2 < q → 0 ≤ rho ∧ rho < (q * q : ℕ) * 2 ^ (2 * secPStat) → 0 ≤ rc ∧
        rc < key.N → Int.gcd rc key.N = 1 →
      ∀ (hash : ZkEcdsaHash E) (curve : Curve q E) (V : Paillier), V.N = key.N →
      ∀ (sid : List (Fin 256)) (aux : ℕ) (ω : ZkEcdsaRandomness q), 0 ≤ ω.rEnc ∧ ω.rEnc < key.N →
      ∃ c, shareCipher q (.pub key.N) cKey m r k2 x2 rho rc = .ok c ∧
        (Int.gcd ω.rEnc key.N ≠ 1 →
          zkEcdsaProve hash (.pub key.N) cKey c ((x2 : ZMod q) • curve.generator)
          ((k2 : ZMod q) • curve.generator)
          m r k2 x2 rho rc sid aux ω = fail .crypto) ∧
        (Int.gcd ω.rEnc key.N = 1 → ∃ π,
          zkEcdsaProve hash (.pub key.N) cKey c ((x2 : ZMod q) • curve.generator)
            ((k2 : ZMod q) • curve.generator)
            m r k2 x2 rho rc sid aux ω = .ok π ∧
          ZkEcdsaInRange q key.N π ∧
          (0 ≤ zkEcdsaPlain q m r π.w1TagTag π.w2TagTag π.w3TagTag ∧
            zkEcdsaPlain q m r π.w1TagTag π.w2TagTag π.w3TagTag < key.N) ∧
          (zkEcdsaVerify hash curve V cKey c ((x2 : ZMod q) • curve.generator)
            ((k2 : ZMod q) • curve.generator) m r sid aux π =
            .ok () ↔ x2 ≠ 0 ∧ ¬(q : ℤ) ∣ ω.w1Tag ∧ ¬(q : ℤ) ∣ ω.w2Tag))) ∧
    ∀ (V : Paillier) (hash hash' : ZkEcdsaHash E) (curve : Curve q E) (cKey c m r : ℤ) (Q2 R2 : E)
      (sid : List (Fin 256)) (aux : ℕ)
      (π π' : ZkEcdsaProof E), zkEcdsaVerify hash curve V cKey c Q2 R2 m r sid aux π = .ok () →
      zkEcdsaVerify hash' curve V cKey c Q2 R2 m r sid aux π' = .ok () →
      π.toZkEcdsaCommitments = π'.toZkEcdsaCommitments →
      ((π.w1TagTag - π'.w1TagTag : ℤ) : ZMod q) • R2 =
        ((π.e - π'.e : ℤ) : ZMod q) • curve.generator ∧
      ((π.w2TagTag - π'.w2TagTag : ℤ) : ZMod q) • R2 = ((π.e - π'.e : ℤ) : ZMod q) • Q2 ∧
      π.answer V.N q cKey m r * (c : ZMod (V.N * V.N)) ^ π'.e.toNat =
        π'.answer V.N q cKey m r * (c : ZMod (V.N * V.N)) ^ π.e.toNat ∧
      ∀ key : PaillierKey, V.N = key.N → Int.gcd π.cEncTag key.N = 1 → ∀ M X,
        key.decrypt c = .ok M → key.decrypt cKey = .ok X →
        (π.e - π'.e) * M ≡ (π.w1TagTag - π'.w1TagTag) * (r * X) +
          zkEcdsaPlain q m r (π.w1TagTag - π'.w1TagTag) (π.w2TagTag - π'.w2TagTag)
            (π.w3TagTag - π'.w3TagTag) [ZMOD key.N] := by
  apply And.intro
  · intro key cKey m r k2 x2 rho rc hsize hcKey hgcd hm hr hk2 hx2 hrho hrc hgcdc hash
      curve V hV sid aux ω hrEnc
    have hk2r : k2 = residue (k2 : ZMod q) := eq_residue_of_range hk2
    have hx2r : x2 = residue (x2 : ZMod q) := eq_residue_of_isInRange ((isInRange_iff x2).mpr hx2)
    have hx20 : (x2 : ZMod q) = 0 ↔ x2 = 0 := by
      constructor
      · intro h
        rw [hx2r, h, residue_zero]
      · rintro rfl
        exact Int.cast_zero
    obtain ⟨c, hc, hin⟩ := shareCipher_inputs (x2 : ZMod q) (P := .pub key.N)
      rfl hsize hcKey hgcd hm hr
      (cast_ne_zero_of_range hk2) hrho hrc hgcdc
    rw [← hk2r, ← hx2r] at hc
    refine ⟨c, hc, fun hne => ?_, fun hcop => ?_⟩
    · have hfail := zkEcdsaProve_of_gcd_ne hin hash (P := .pub key.N) rfl
        ((x2 : ZMod q) • curve.generator)
        ((k2 : ZMod q) • curve.generator) sid aux ω hne
      rwa [← hk2r, ← hx2r] at hfail
    · obtain ⟨π, hprove, hacc, hverify⟩ :=
        zkEcdsaVerify_honest hin hash curve (P := .pub key.N) rfl hV sid aux ω hrEnc hcop
      rw [← hk2r, ← hx2r] at hprove
      rw [ne_eq, hx20] at hverify
      exact ⟨π, hprove, hV ▸ hacc.inRange, hV ▸ hacc.plain_lt, hverify⟩
  · intro V hash hash' curve cKey c m r Q2 R2 sid aux π π' h h' hcom
    obtain ⟨-, h⟩ := zkEcdsaVerify_ok_iff.mp h
    obtain ⟨-, h'⟩ := zkEcdsaVerify_ok_iff.mp h'
    have hG := h'.point1
    have hQ := h'.point2
    have hanswer := h'.answer_eq
    rw [← hcom] at hG hQ hanswer
    refine ⟨sub_smul_of_accepted h.point1 hG, sub_smul_of_accepted h.point2 hQ, ?_, ?_⟩
    · rw [h.answer_eq, hanswer]
      ring
    · intro key hV hgcd M X hM hX
      have hN : key.N ≠ 0 := by have := key.one_lt_N; omega
      obtain ⟨Z, hZ⟩ := exists_isPlain hN key.coprime_totient ((key.isUnit_cast_iff _).mpr hgcd)
      have hZ' := hZ
      rw [show π.cEncTag = π'.cEncTag by rw [hcom]] at hZ'
      have hplain := h.isPlain hV (PaillierPrimes.encrypts_of_decrypt key.decrypts hM).2
        (PaillierPrimes.encrypts_of_decrypt key.decrypts hX).2 hZ
      have hplain' := h'.isPlain hV (PaillierPrimes.encrypts_of_decrypt key.decrypts hM).2
        (PaillierPrimes.encrypts_of_decrypt key.decrypts hX).2 hZ'
      rw [← ZMod.intCast_eq_intCast_iff]
      simp only [zkEcdsaPlain] at hplain hplain' ⊢
      push_cast at hplain hplain' ⊢
      linear_combination hplain' - hplain

/-- Masks on the curve of ten bits. -/
def sampleZkEcdsaRandomness : ZkEcdsaRandomness 1009 where
  r1W := 2
  r2W := 3
  r3W := 4
  w1Tag := 5
  w2Tag := 6
  w3Tag := 7
  r1WTag := 8
  r2WTag := 9
  r3WTag := 10
  rEnc := 1
  r1W_range := by decide +kernel
  r2W_range := by decide +kernel
  r3W_range := by decide +kernel
  w1Tag_range := by decide +kernel
  w2Tag_range := by decide +kernel
  w3Tag_range := by decide +kernel
  r1WTag_range := by decide +kernel
  r2WTag_range := by decide +kernel
  r3WTag_range := by decide +kernel

/-- The ciphertext of the second party under the key of the samples, for the nonce 7. -/
theorem shareCipher_sample (x2 : ZMod 1009) : ∃ c,
    shareCipher 1009 (.pub samplePaillierKey.N) (samplePaillierKey.cipher 5 1) 5 21 7
      (residue x2) (2 ^ 100) 1 = .ok c ∧
    ZkEcdsaInputs samplePaillierKey (samplePaillierKey.cipher 5 1) c 5 21 (2 ^ 100) 1
      (7 : ZMod 1009) x2 := by
  have hcKey := samplePaillierKey.encrypts_cipher 5 Int.one_gcd
  have hrho : 0 ≤ (2 : ℤ) ^ 100 ∧ (2 : ℤ) ^ 100 < ((1009 * 1009 : ℕ) : ℤ) * 2 ^ (2 * secPStat) := by
    rw [secPStat]
    norm_num
  have hone : (0 : ℤ) ≤ 1 ∧ (1 : ℤ) < samplePaillierKey.N :=
    ⟨by norm_num, Int.ofNat_lt.mpr samplePaillierKey.one_lt_N⟩
  obtain ⟨c, hc, hin⟩ := shareCipher_inputs (m := 5) (r := 21) x2 (P := .pub samplePaillierKey.N)
    rfl sampleEcdsa2pPair.size_N hcKey.1
    hcKey.gcd (by norm_num) (by norm_num) (show (7 : ZMod 1009) ≠ 0 by decide) hrho hone Int.one_gcd
  exact ⟨c, hc, hin⟩

theorem zkEcdsa_complete_sound_sample : ∃ (c : ℤ) (π π' : ZkEcdsaProof (ZMod 1009)) (M : ℤ),
    shareCipher 1009 (.pub samplePaillierKey.N) (samplePaillierKey.cipher 5 1) 5 21
      7 6 (2 ^ 100) 1 = .ok c ∧
    π.e = 3 ∧ π'.e = 8 ∧ ((π.w1TagTag - π'.w1TagTag : ℤ) : ZMod 1009) •
      (7 : ZMod 1009) • sampleCurve.generator =
      ((3 - 8 : ℤ) : ZMod 1009) • sampleCurve.generator ∧
    samplePaillierKey.decrypt c = .ok M ∧
    (3 - 8) * M ≡ (π.w1TagTag - π'.w1TagTag) * (21 * 5) +
      zkEcdsaPlain 1009 5 21 (π.w1TagTag - π'.w1TagTag) (π.w2TagTag - π'.w2TagTag)
        (π.w3TagTag - π'.w3TagTag)
      [ZMOD samplePaillierKey.N] := by
  have hcKey := samplePaillierKey.encrypts_cipher 5 Int.one_gcd
  have hdecKey : samplePaillierKey.decrypt (samplePaillierKey.cipher 5 1) = .ok 5 :=
    sampleEcdsa2pPair.decrypt_cKey
  have hone : (0 : ℤ) ≤ 1 ∧ (1 : ℤ) < samplePaillierKey.N :=
    ⟨by norm_num, Int.ofNat_lt.mpr samplePaillierKey.one_lt_N⟩
  obtain ⟨c, hc, hin⟩ := shareCipher_sample 6
  obtain ⟨hcomplete, hsound⟩ := zkEcdsa_complete_sound (q := 1009) (E := ZMod 1009)
  have hrun := hcomplete samplePaillierKey (samplePaillierKey.cipher 5 1) 5 21 7 6 (2 ^ 100) 1
    sampleEcdsa2pPair.size_N hcKey.1
    hcKey.gcd (by norm_num) (by norm_num) (by norm_num) (by norm_num)
      (by rw [secPStat]; norm_num) hone Int.one_gcd
  obtain ⟨d, hd, -, hrun3⟩ :=
    hrun (fun _ _ => ⟨3, by decide⟩) sampleCurve (.pub samplePaillierKey.N) rfl [] 0
    sampleZkEcdsaRandomness hone
  obtain ⟨d', hd', -, hrun8⟩ :=
    hrun (fun _ _ => ⟨8, by decide⟩) sampleCurve (.pub samplePaillierKey.N) rfl [] 0
    sampleZkEcdsaRandomness hone
  obtain rfl : d = c := Except.ok.inj (hd.symm.trans hc)
  obtain rfl : d' = d := Except.ok.inj (hd'.symm.trans hc)
  obtain ⟨π, hprove, -, -, hverify⟩ := hrun3 Int.one_gcd
  obtain ⟨π', hprove', -, -, hverify'⟩ := hrun8 Int.one_gcd
  have hv := hverify.mpr (by decide)
  have hv' := hverify'.mpr (by decide)
  have hacc := (zkEcdsaVerify_ok_iff.mp hv).2
  have he : π.e = 3 := hacc.challenge
  have he' : π'.e = 8 := (zkEcdsaVerify_ok_iff.mp hv').2.challenge
  obtain ⟨hG, -, -, hplain⟩ :=
    hsound _ _ _ _ _ _ _ _ _ _ _ _ _ _ hv hv' (zkEcdsaProve_commitments hprove hprove')
  have hrange := (isInRange_iff _).mp hin.c_range
  have hgcd := (samplePaillierKey.isUnit_cast_iff _).mp hin.isUnit_c
  obtain ⟨M, hM, -, -⟩ := PaillierPrimes.decrypt_isPlain samplePaillierKey.decrypts
    (PaillierPrimes.pos_of_gcd hrange.1 hgcd) hrange.2 hgcd
  have hrel := hplain samplePaillierKey rfl (hacc.gcd_cEncTag hcKey.gcd) M 5 hM hdecKey
  rw [he, he'] at hG hrel
  exact ⟨d', π, π', M, hc, he, he', hG, hM, hrel⟩

/-- A share of zero has an infinite point, and its proof is turned down. -/
theorem zkEcdsaVerify_zero_share : ∃ (c : ℤ) (π : ZkEcdsaProof (ZMod 1009)),
    shareCipher 1009 (.pub samplePaillierKey.N) (samplePaillierKey.cipher 5 1) 5 21
      7 0 (2 ^ 100) 1 = .ok c ∧
    zkEcdsaProve (fun _ _ => ⟨3, by decide⟩) (.pub samplePaillierKey.N)
      (samplePaillierKey.cipher 5 1) c
      ((0 : ZMod 1009) • sampleCurve.generator) ((7 : ZMod 1009) • sampleCurve.generator)
        5 21 7 0 (2 ^ 100) 1 [] 0
      sampleZkEcdsaRandomness = .ok π ∧
    zkEcdsaVerify (fun _ _ => ⟨3, by decide⟩) sampleCurve samplePaillierKey.prv
      (samplePaillierKey.cipher 5 1) c
      ((0 : ZMod 1009) • sampleCurve.generator) ((7 : ZMod 1009) • sampleCurve.generator) 5
        21 [] 0 π ≠ .ok () := by
  obtain ⟨c, hc, hin⟩ := shareCipher_sample 0
  have hone : (0 : ℤ) ≤ 1 ∧ (1 : ℤ) < samplePaillierKey.N :=
    ⟨by norm_num, Int.ofNat_lt.mpr samplePaillierKey.one_lt_N⟩
  obtain ⟨π, hprove, -, hverify⟩ :=
    zkEcdsaVerify_honest hin (fun _ _ => ⟨3, by decide⟩) sampleCurve (P := .pub samplePaillierKey.N)
    (V := samplePaillierKey.prv) rfl rfl [] 0 sampleZkEcdsaRandomness hone Int.one_gcd
  exact ⟨c, π, hc, hprove, fun h => (hverify.mp h).1 rfl⟩

end CbMpc
