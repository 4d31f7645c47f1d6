import CbMpc.Ecdsa2p
import CbMpc.ZkTwoPaillier

/-!
# Keys of two-party ECDSA

`ecdsa2pc::dkg` and `ecdsa2pc::refresh` as runs of two honest parties. A refresh adds the
same shift to the first party's share as an integer, to the second party's share modulo the
order and to the ciphertext under a new Paillier key. The verdicts on the proofs that are
not modelled enter as arguments, so the results hold whatever they are.
-/
namespace CbMpc

/-- The second party's checks on a modulus, and `create_pub`. -/
def acceptModulus (q N : ℕ) : Outcome Paillier := do
  require (decide (3 * q.size + 3 * secPStat + secPCom + 1 ≤ N.size)) .crypto
  require (decide (N.size = paillierBits)) .crypto
  require (decide (1 < N ∧ N.size ≤ maxModulusBits ∧ N % 2 = 1)) .crypto
  .ok (.pub N)

/-- What the parties sample in `dkg`. -/
structure DkgRandomness (q : ℕ) where
  paillier : PaillierKey
  x1 : ℤ
  x2 : ℤ
  rKey : ℤ
  x1_range : 0 ≤ x1 ∧ x1 < q
  x2_range : 0 ≤ x2 ∧ x2 < q
  rKey_range : 0 ≤ rKey ∧ rKey < paillier.N

/-- The verdicts on the proofs of `dkg_2p_t` and of `paillier_gen_interactive_t`. -/
structure DkgVerdicts where
  pi1 : Outcome Unit
  pi2 : Outcome Unit
  valid : Outcome Unit
  pdl : Outcome Unit
  equal : Outcome Unit
  range : Outcome Unit

/-- What the parties sample in `refresh`. -/
structure RefreshRandomness (q : ℕ) where
  paillier : PaillierKey
  rho1 : ℤ
  rho2 : ℤ
  rKeyTag : ℤ
  masks : Fin paillierReps → EqualMask
  e : List (Fin 256)
  rho1_range : 0 ≤ rho1 ∧ rho1 < q
  rho2_range : 0 ≤ rho2 ∧ rho2 < q
  rKeyTag_range : 0 ≤ rKeyTag ∧ rKeyTag < paillier.N
  e_length : bitsToBytes (paillierReps * paddedLogAlpha) = e.length

variable {q : ℕ} [hq : Fact q.Prime] {E : Type} [AddCommGroup E] [Module (ZMod q) E] [DecidableEq E]

/-- `ecdsa2pc::dkg` between honest parties. -/
def ecdsa2pDkg (curve : Curve q E) (ω : DkgRandomness q) (zk : DkgVerdicts) :
    Outcome (Ecdsa2pKey E × Ecdsa2pKey E) := do
  let Q1 ← curve.mulToGenerator ω.x1
  cbAssert (decide (q * q * q * 2 ^ (3 * secPStat + secPCom + 1) < ω.paillier.N))
  let cKey ← ω.paillier.prv.encrypt false ω.x1 ω.rKey
  let Q2 ← curve.mulToGenerator ω.x2
  -- The first party's third step.
  let Q2 ← curveCheck false (.on Q2)
  zk.pi2
  -- The second party's last step.
  let Q1 ← curveCheck false (.on Q1)
  zk.pi1
  let paillier ← acceptModulus q ω.paillier.N
  paillier.verifyCipher cKey
  zk.valid
  zk.pdl
  zk.equal
  zk.range
  .ok (⟨Q1 + Q2, ω.x1, cKey, ω.paillier.prv⟩, ⟨Q1 + Q2, ω.x2, cKey, paillier⟩)

/-- `ecdsa2pc::refresh` between honest parties. The first party asserts that it holds the private
key. -/
def ecdsa2pRefresh (keys : Ecdsa2pKey E × Ecdsa2pKey E) (ω : RefreshRandomness q)
    (zkValid : Outcome Unit) :
    Outcome (Ecdsa2pKey E × Ecdsa2pKey E) :=
  match keys.1.paillier with
  | .pub _ => throwing .assertionFailed
  | .prv key hkey => do
    let cKeyTag ← ω.paillier.prv.encrypt false keys.1.xShare ω.rKeyTag
    let rKey ← key.getCipherRandomness keys.1.xShare keys.1.cKey
    let states ← equalProverMsg1 q (.prv key hkey) ω.paillier.prv (List.ofFn ω.masks)
    let paillier ← acceptModulus q ω.paillier.N
    paillier.verifyCipher cKeyTag
    let reps ← equalProverMsg2 (.prv key hkey) ω.paillier.prv keys.1.xShare
      rKey ω.rKeyTag ω.e states
    zkValid
    equalVerify q keys.2.paillier keys.2.cKey paillier cKeyTag ω.e reps
    let rho ← modAdd false q ω.rho1 ω.rho2
    let cKey1 ← ω.paillier.prv.addScalar cKeyTag rho
    let cKey2 ← paillier.addScalar cKeyTag rho
    let x2 ← modSub false q keys.2.xShare rho
    .ok (⟨keys.1.Q, keys.1.xShare + rho, cKey1, ω.paillier.prv⟩, ⟨keys.2.Q, x2, cKey2, paillier⟩)

/-- A number of refreshes, one after the other. -/
def refreshRun (keys : Ecdsa2pKey E × Ecdsa2pKey E)
    (run : List (RefreshRandomness q × Outcome Unit)) :
    Outcome (Ecdsa2pKey E × Ecdsa2pKey E) :=
  run.foldlM (fun keys step => ecdsa2pRefresh keys step.1 step.2) keys

theorem acceptModulus_ok_iff {q N : ℕ} {P : Paillier} : acceptModulus q N = .ok P ↔
    3 * q.size + 3 * secPStat + secPCom + 1 ≤ N.size ∧ N.size = paillierBits ∧
      (1 < N ∧ N.size ≤ maxModulusBits ∧ N % 2 = 1) ∧ P = .pub N := by
  rw [acceptModulus, require_bind_ok_iff, require_bind_ok_iff, require_bind_ok_iff,
    decide_eq_true_eq, decide_eq_true_eq, decide_eq_true_eq, Except.ok.injEq, @eq_comm _ _ P]

/-- A verified ciphertext of an honest key is the one of the formula. -/
theorem PaillierKey.encrypts_of_verifyCipher {key : PaillierKey} {P : Paillier}
    (hP : P.N = key.N) {m r c : ℤ} (henc : key.prv.encrypt false m r = .ok c)
    (hver : P.verifyCipher c = .ok ()) :
    c = key.cipher m r ∧ Int.gcd r key.N = 1 ∧ 0 ≤ m ∧ m < key.N := by
  obtain ⟨hm, rfl⟩ := PaillierPrimes.encrypt_ok rfl henc
  have hgcd : Int.gcd (key.cipher m r) key.N = 1 := by
    obtain ⟨u, -, hver⟩ := bind_ok_iff.mp hver
    simpa [coprime, hP] using hver
  exact ⟨rfl, PaillierPrimes.gcd_of_cipher hgcd, hm⟩

theorem ecdsa2pDkg_pair {curve : Curve q E} {ω : DkgRandomness q} {zk : DkgVerdicts}
    {keys : Ecdsa2pKey E × Ecdsa2pKey E} (h : ecdsa2pDkg curve ω zk = .ok keys) :
    Ecdsa2pPair curve 0 ω.paillier keys.1 keys.2 := by
  have hx1 : isInRange q ω.x1 = true := (isInRange_iff _).mpr ω.x1_range
  have hx2 : isInRange q ω.x2 = true := (isInRange_iff _).mpr ω.x2_range
  rw [ecdsa2pDkg, mulToGenerator_of_isInRange curve hx1, mulToGenerator_of_isInRange curve hx2,
    ok_bind] at h
  obtain ⟨-, h⟩ := cbAssert_bind_ok_iff.mp h
  obtain ⟨cKey, henc, h⟩ := bind_ok_iff.mp h
  rw [ok_bind] at h
  obtain ⟨Q2, hQ2, h⟩ := bind_ok_iff.mp h
  obtain ⟨u1, -, h⟩ := bind_ok_iff.mp h
  obtain ⟨Q1, hQ1, h⟩ := bind_ok_iff.mp h
  obtain ⟨u2, -, h⟩ := bind_ok_iff.mp h
  obtain ⟨P, hP, h⟩ := bind_ok_iff.mp h
  obtain ⟨u3, hver, h⟩ := bind_ok_iff.mp h
  obtain ⟨u4, -, h⟩ := bind_ok_iff.mp h
  obtain ⟨u5, -, h⟩ := bind_ok_iff.mp h
  obtain ⟨u6, -, h⟩ := bind_ok_iff.mp h
  obtain ⟨u7, -, h⟩ := bind_ok_iff.mp h
  cases h
  obtain ⟨hsize, -, -, rfl⟩ := acceptModulus_ok_iff.mp hP
  obtain ⟨rfl, hgcd, hx0, hxN⟩ := PaillierKey.encrypts_of_verifyCipher rfl henc hver
  have hQ1 := eq_of_curveCheck_on hQ1
  have hQ2 := eq_of_curveCheck_on hQ2
  subst hQ1 hQ2
  refine ⟨rfl, rfl, rfl, rfl, hsize,
    (PaillierPrimes.encrypts_cipher ω.x1 hgcd).decrypt ω.paillier.decrypts hx0 hxN, ?_, hx2, ?_⟩
  · have := ω.x1_range
    simpa using this
  · rw [Int.cast_add, add_smul]

omit [DecidableEq E] in
/-- A refresh of a pair makes a pair again, under the new Paillier key. -/
theorem Ecdsa2pPair.refresh {curve : Curve q E} {t : ℕ} {key : PaillierKey}
    {keys keys' : Ecdsa2pKey E × Ecdsa2pKey E} (hpair : Ecdsa2pPair curve t key keys.1 keys.2)
    (ht : t + 2 ≤ 2 ^ secPStat) {ω : RefreshRandomness q} {zkValid : Outcome Unit}
    (h : ecdsa2pRefresh keys ω zkValid = .ok keys') :
    Ecdsa2pPair curve (t + 1) ω.paillier keys'.1 keys'.2 := by
  rw [ecdsa2pRefresh, hpair.prv] at h
  obtain ⟨cKeyTag, henc, h⟩ := bind_ok_iff.mp h
  obtain ⟨rKey, -, h⟩ := bind_ok_iff.mp h
  obtain ⟨states, -, h⟩ := bind_ok_iff.mp h
  obtain ⟨P, hP, h⟩ := bind_ok_iff.mp h
  obtain ⟨u1, hver, h⟩ := bind_ok_iff.mp h
  obtain ⟨reps, -, h⟩ := bind_ok_iff.mp h
  obtain ⟨u2, -, h⟩ := bind_ok_iff.mp h
  obtain ⟨u3, -, h⟩ := bind_ok_iff.mp h
  obtain ⟨rho, hrho, h⟩ := bind_ok_iff.mp h
  obtain ⟨cKey1, hc1, h⟩ := bind_ok_iff.mp h
  obtain ⟨cKey2, hc2, h⟩ := bind_ok_iff.mp h
  obtain ⟨x2, hx2, h⟩ := bind_ok_iff.mp h
  cases h
  obtain ⟨hsize, -, -, rfl⟩ := acceptModulus_ok_iff.mp hP
  obtain ⟨rfl, hgcd, hx0, hxN⟩ := PaillierKey.encrypts_of_verifyCipher rfl henc hver
  have hbound := ω.paillier.mul_two_pow_lt hq.out.one_lt hsize
  have hr1 := (isInRange_iff _).mpr ω.rho1_range
  have hr2 := (isInRange_iff _).mpr ω.rho2_range
  rw [modAdd, modOp_of_isInRange _ _ hr1 hr2] at hrho
  obtain rfl := Except.ok.inj hrho
  generalize ((fun a b : ℤ => a + b) ω.rho1 ω.rho2 : ZMod q) = rho at *
  have hrhoR := (isInRange_iff _).mp (isInRange_residue rho)
  have hgrow : keys.1.xShare + residue rho < (((t + 1 : ℕ) : ℤ) + 1) * q := by
    have := hpair.x1_range.2
    push_cast
    linarith
  have hsmall : (((t + 1 : ℕ) : ℤ) + 1) * q ≤ 2 ^ secPStat * q :=
    mul_le_mul_of_nonneg_right (by exact_mod_cast ht) (Int.natCast_nonneg q)
  have hqN : (q : ℤ) ≤ 2 ^ secPStat * q :=
    le_mul_of_one_le_left (Int.natCast_nonneg q) (one_le_pow₀ (by norm_num))
  obtain ⟨c, hc, hplain⟩ :=
    (PaillierPrimes.encrypts_cipher keys.1.xShare hgcd).addScalar (P := ω.paillier.prv) rfl
    (PaillierPrimes.isInRange_of_lt_N hrhoR.1 (by omega))
  rw [hc] at hc1
  cases hc1
  have hsame : (Paillier.pub ω.paillier.N).N = ω.paillier.prv.N := rfl
  rw [Paillier.addScalar_congr hsame, hc] at hc2
  cases hc2
  rw [eq_residue_of_isInRange hpair.x2_range, modSub_residue] at hx2
  cases hx2
  refine ⟨rfl, rfl, hpair.Q_eq, rfl, hsize,
    hplain.decrypt ω.paillier.decrypts (by omega) (by omega), ⟨add_nonneg hx0 hrhoR.1, hgrow⟩,
    isInRange_residue _, ?_⟩
  rw [← hpair.sum]
  push_cast
  rw [cast_residue, cast_residue]
  congr 1
  ring

omit [DecidableEq E] in
/-- Refreshes of a pair make a pair, however many there are below `2 ^ SEC_P_STAT`. -/
theorem Ecdsa2pPair.refreshRun {curve : Curve q E}
    {run : List (RefreshRandomness q × Outcome Unit)} {t : ℕ} {key : PaillierKey}
    {keys keys' : Ecdsa2pKey E × Ecdsa2pKey E} (hpair : Ecdsa2pPair curve t key keys.1 keys.2)
    (ht : t + run.length + 1 ≤ 2 ^ secPStat) (h : refreshRun keys run = .ok keys') :
    ∃ key', Ecdsa2pPair curve (t + run.length) key' keys'.1 keys'.2 := by
  induction run generalizing t key keys with
  | nil =>
    cases h
    exact ⟨key, hpair⟩
  | cons step run ih =>
    obtain ⟨next, hnext, h⟩ := bind_ok_iff.mp h
    rw [List.length_cons] at ht
    obtain ⟨key', hkey'⟩ := ih (hpair.refresh (by omega) hnext) (by omega) h
    refine ⟨key', ?_⟩
    rwa [List.length_cons, show t + (run.length + 1) = t + 1 + run.length by omega]

omit hq in
theorem acceptModulus_eq (key : PaillierKey)
    (hsize : 3 * q.size + 3 * secPStat + secPCom + 1 ≤ key.N.size) :
    acceptModulus q key.N = .ok (.pub key.N) := by
  have hbits : key.N.size = paillierBits := key.bits
  refine acceptModulus_ok_iff.mpr ⟨hsize, hbits, ⟨key.one_lt_N, ?_, key.odd_N⟩, rfl⟩
  rw [hbits, paillierBits_eq, maxModulusBits]
  norm_num

/-- `dkg` succeeds for nonzero shares, when the proofs are accepted. -/
theorem ecdsa2pDkg_ok (curve : Curve q E) {ω : DkgRandomness q} (hx1 : ω.x1 ≠ 0) (hx2 : ω.x2 ≠ 0)
    (hgcd : Int.gcd ω.rKey ω.paillier.N = 1)
    (hsize : 3 * q.size + 3 * secPStat + secPCom + 1 ≤ ω.paillier.N.size) :
    ∃ keys, ecdsa2pDkg curve ω ⟨.ok (), .ok (), .ok (), .ok (), .ok (), .ok ()⟩ = .ok keys := by
  have hr1 := ω.x1_range
  have hr2 := ω.x2_range
  have hrK := ω.rKey_range
  have hNN := ω.paillier.N_lt_NN
  have hc1 := curveCheck_smul_generator curve false (cast_ne_zero_of_range ⟨by omega, hr1.2⟩)
  have hc2 := curveCheck_smul_generator curve false (cast_ne_zero_of_range ⟨by omega, hr2.2⟩)
  have hcube : q * q * q * 2 ^ (3 * secPStat + secPCom + 1) < ω.paillier.N := by
    refine lt_of_lt_of_le ?_ (ω.paillier.cube_le hsize)
    have hq0 := hq.out.pos
    rw [show q * q * q = q ^ 3 by ring]
    exact Nat.mul_lt_mul_of_pos_left (Nat.pow_lt_pow_right (by norm_num) (by omega)) (by positivity)
  have hbound := ω.paillier.mul_two_pow_lt hq.out.one_lt hsize
  have hqN : (q : ℤ) ≤ 2 ^ secPStat * q :=
    le_mul_of_one_le_left (Int.natCast_nonneg q) (one_le_pow₀ (by norm_num))
  have henc : ω.paillier.prv.encrypt false ω.x1 ω.rKey = .ok (ω.paillier.cipher ω.x1 ω.rKey) :=
    PaillierKey.encrypt_eq rfl false hr1.1 (by omega) hrK.1 (by omega) hgcd
  have hver : (Paillier.pub ω.paillier.N).verifyCipher (ω.paillier.cipher ω.x1 ω.rKey) = .ok () :=
    (PaillierPrimes.encrypts_cipher ω.x1 hgcd).verifyCipher rfl
  rw [ecdsa2pDkg, mulToGenerator_of_isInRange curve ((isInRange_iff _).mpr hr1),
    mulToGenerator_of_isInRange curve ((isInRange_iff _).mpr hr2)]
  simp only [ok_bind, hcube, decide_true, cbAssert_true, henc, hc1, hc2,
    acceptModulus_eq ω.paillier hsize, hver]
  exact ⟨_, rfl⟩

/-- Randomness of a refresh for which the checks on ranges and units pass, given the first party's
share `x`. -/
structure RefreshRandomness.Good (key : PaillierKey) (x : ℤ) (ω : RefreshRandomness q) : Prop where
  size_N : 3 * q.size + 3 * secPStat + secPCom + 1 ≤ ω.paillier.N.size
  gcd_rKeyTag : Int.gcd ω.rKeyTag ω.paillier.N = 1
  masks_good : ∀ i, (ω.masks i).Good q key ω.paillier x (getLogAlphaBits ω.e i)

omit [DecidableEq E] in
/-- From a pair a refresh succeeds when the range checks pass and the proof about the new key is
accepted. -/
theorem Ecdsa2pPair.refresh_ok {curve : Curve q E} {t : ℕ} {key : PaillierKey}
    {keys : Ecdsa2pKey E × Ecdsa2pKey E} (hpair : Ecdsa2pPair curve t key keys.1 keys.2)
    (ht : t + 1 ≤ 2 ^ secPStat) {ω : RefreshRandomness q} (hgood : ω.Good key keys.1.xShare) :
    ∃ keys', ecdsa2pRefresh keys ω (.ok ()) = .ok keys' := by
  have hx := hpair.x1_lt ht
  have hNN := ω.paillier.N_lt_NN
  have hrK := ω.rKeyTag_range
  have hbound := ω.paillier.mul_two_pow_lt hq.out.one_lt hgood.size_N
  have hbound0 := key.mul_two_pow_lt hq.out.one_lt hpair.size_N
  have hlen0 : equalTestLen q ≤ key.N.size := by
    have := hpair.size_N
    rw [equalTestLen, logAlpha, secPStat]
    rw [secPStat, secPCom] at this
    omega
  have hlen1 : equalTestLen q ≤ ω.paillier.N.size := by
    have := hgood.size_N
    rw [equalTestLen, logAlpha, secPStat]
    rw [secPStat, secPCom] at this
    omega
  have henc : ω.paillier.prv.encrypt false keys.1.xShare ω.rKeyTag =
      .ok (ω.paillier.cipher keys.1.xShare ω.rKeyTag) :=
    PaillierKey.encrypt_eq rfl false hx.1 (by omega) hrK.1 (by omega) hgood.gcd_rKeyTag
  have hcKey := PaillierPrimes.encrypts_of_decrypt key.decrypts hpair.decrypt_cKey
  obtain ⟨rKey, hrKey, -, hgcd, hcipher⟩ := hcKey.getCipherRandomness key.updates hx.1 (by omega)
  have hmasks : ∀ μ ∈ (List.ofFn ω.masks).zipIdx,
      μ.1.Good q key ω.paillier keys.1.xShare (getLogAlphaBits ω.e μ.2) := by
    rintro ⟨μ, i⟩ hμ
    have hget : (List.ofFn ω.masks)[i]? = some μ := List.mem_zipIdx_iff_getElem?.mp hμ
    obtain ⟨hi, rfl⟩ := List.getElem?_eq_some_iff.mp hget
    simpa using hgood.masks_good ⟨i, by simpa using hi⟩
  obtain ⟨states, reps, hstates, hreps, haccepted⟩ :=
    equalProver_accepted hlen0 hlen1 hx.1 hgcd hgood.gcd_rKeyTag
    ω.e_length hmasks
  rw [hcipher] at haccepted
  have hc1 := PaillierPrimes.encrypts_cipher keys.1.xShare hgood.gcd_rKeyTag
  have hP0 : keys.2.paillier.N = key.N := by rw [hpair.pub]; rfl
  have hver : (Paillier.pub ω.paillier.N).verifyCipher
      (ω.paillier.cipher keys.1.xShare ω.rKeyTag) = .ok () :=
    hc1.verifyCipher rfl
  have hequal : equalVerify q keys.2.paillier keys.2.cKey (.pub ω.paillier.N)
      (ω.paillier.cipher keys.1.xShare ω.rKeyTag) ω.e reps = .ok () := by
    rw [hpair.cKey_eq]
    exact equalVerify_ok hP0 rfl hlen0 hlen1 hcKey hc1 ω.e_length haccepted
  have hr1 := (isInRange_iff _).mpr ω.rho1_range
  have hr2 := (isInRange_iff _).mpr ω.rho2_range
  have hrho : modAdd false q ω.rho1 ω.rho2 = .ok (residue ((ω.rho1 + ω.rho2 : ℤ) : ZMod q)) :=
    modOp_of_isInRange _ _ hr1 hr2
  have hrhoR := (isInRange_iff _).mp (isInRange_residue ((ω.rho1 + ω.rho2 : ℤ) : ZMod q))
  have hqN : (q : ℤ) ≤ 2 ^ secPStat * q :=
    le_mul_of_one_le_left (Int.natCast_nonneg q) (one_le_pow₀ (by norm_num))
  obtain ⟨c, hc, -⟩ := hc1.addScalar (P := ω.paillier.prv) rfl
    (PaillierPrimes.isInRange_of_lt_N hrhoR.1 (by omega))
  have hsame : (Paillier.pub ω.paillier.N).N = ω.paillier.prv.N := rfl
  have hx2 : modSub false q keys.2.xShare (residue ((ω.rho1 + ω.rho2 : ℤ) : ZMod q)) =
      .ok (residue ((keys.2.xShare : ZMod q) - ((ω.rho1 + ω.rho2 : ℤ) : ZMod q))) := by
    rw [eq_residue_of_isInRange hpair.x2_range, modSub_residue, cast_residue]
  simp only [ecdsa2pRefresh, hpair.prv, henc, hrKey, hstates,
    acceptModulus_eq ω.paillier hgood.size_N, hver, hreps, hequal,
    hrho, Paillier.addScalar_congr hsame, hc, hx2, ok_bind]
  exact ⟨_, rfl⟩

/-- After a key generation and any number of refreshes below `2 ^ SEC_P_STAT` the parties hold a
pair of keys, and from there a refresh whose range checks pass succeeds. -/
theorem ecdsa2p_keys {curve : Curve q E} {ω : DkgRandomness q} {zk : DkgVerdicts}
    {run : List (RefreshRandomness q × Outcome Unit)} {keys keys' : Ecdsa2pKey E × Ecdsa2pKey E}
    (hdkg : ecdsa2pDkg curve ω zk = .ok keys) (hrun : refreshRun keys run = .ok keys')
    (hlen : run.length < 2 ^ secPStat) :
    ∃ key : PaillierKey, keys'.1.paillier = key.prv ∧
    keys'.2.paillier = .pub key.N ∧ keys'.2.Q = keys'.1.Q ∧
      keys'.2.cKey = keys'.1.cKey ∧ key.decrypt keys'.1.cKey = .ok keys'.1.xShare ∧
      (0 ≤ keys'.1.xShare ∧ keys'.1.xShare < (run.length + 1) * q ∧ keys'.1.xShare < key.N) ∧
      (0 ≤ keys'.2.xShare ∧ keys'.2.xShare < q) ∧
      ((keys'.1.xShare + keys'.2.xShare : ℤ) : ZMod q) • curve.generator = keys'.1.Q ∧
      ∀ next : RefreshRandomness q, next.Good key keys'.1.xShare →
        ∃ keys'', ecdsa2pRefresh keys' next (.ok ()) = .ok keys'' := by
  obtain ⟨key, hpair⟩ := (ecdsa2pDkg_pair hdkg).refreshRun (by omega) hrun
  rw [zero_add] at hpair
  have hx := hpair.x1_lt hlen
  have hbound := key.mul_two_pow_lt hq.out.one_lt hpair.size_N
  exact ⟨key, hpair.prv, hpair.pub, hpair.Q_eq, hpair.cKey_eq, hpair.decrypt_cKey,
    ⟨hx.1, hpair.x1_range.2, by omega⟩, (isInRange_iff _).mp hpair.x2_range, hpair.sum,
    fun next hnext => hpair.refresh_ok hlen hnext⟩

theorem one_lt_sampleN : (1 : ℤ) < samplePaillierKey.N :=
  Int.ofNat_lt.mpr samplePaillierKey.one_lt_N

theorem size_sampleN : 3 * Nat.size 1009 + 3 * secPStat + secPCom + 1 ≤ samplePaillierKey.N.size :=
  sampleEcdsa2pPair.size_N

def sampleDkgRandomness : DkgRandomness 1009 where
  paillier := samplePaillierKey
  x1 := 5
  x2 := 6
  rKey := 1
  x1_range := by decide
  x2_range := by decide
  rKey_range := ⟨by decide, one_lt_sampleN⟩

/-- A refresh by 3 with the challenge 0. -/
def sampleRefreshRandomness : RefreshRandomness 1009 where
  paillier := samplePaillierKey
  rho1 := 1
  rho2 := 2
  rKeyTag := 1
  masks _ := ⟨0, 1, 1⟩
  e := List.replicate 8 0
  rho1_range := by decide
  rho2_range := by decide
  rKeyTag_range := ⟨by decide, one_lt_sampleN⟩
  e_length := by decide

theorem sampleRefreshRandomness_good (x : ℤ) :
    sampleRefreshRandomness.Good samplePaillierKey x where
  size_N := size_sampleN
  gcd_rKeyTag := Int.one_gcd
  masks_good i := by
    have hei : getLogAlphaBits sampleRefreshRandomness.e i = 0 := by
      fin_cases i <;> decide
    have hslack : (0 : ℤ) < qWithSlack 1009 := by decide
    refine ⟨⟨le_refl 0, hslack⟩, ⟨zero_le_one, one_lt_sampleN⟩, ⟨zero_le_one, one_lt_sampleN⟩,
      Int.one_gcd, Int.one_gcd, ?_⟩
    rw [hei, Nat.cast_zero, zero_mul, zero_add]
    exact hslack

theorem ecdsa2p_keys_sample : ∃ keys keys' : Ecdsa2pKey (ZMod 1009) × Ecdsa2pKey (ZMod 1009),
    ecdsa2pDkg sampleCurve sampleDkgRandomness ⟨.ok (), .ok (), .ok (), .ok (), .ok (),
      .ok ()⟩ = .ok keys ∧
    refreshRun keys [(sampleRefreshRandomness, .ok ())] = .ok keys' ∧
    ∃ key : PaillierKey, keys'.1.paillier = key.prv ∧ keys'.2.cKey = keys'.1.cKey ∧
      key.decrypt keys'.1.cKey = .ok keys'.1.xShare ∧ keys'.1.xShare < 2 * 1009 ∧
      ((keys'.1.xShare + keys'.2.xShare : ℤ) : ZMod 1009) • sampleCurve.generator = keys'.1.Q := by
  obtain ⟨keys, hkeys⟩ := ecdsa2pDkg_ok sampleCurve (ω := sampleDkgRandomness) (by decide)
    (by decide) Int.one_gcd size_sampleN
  have hpair := ecdsa2pDkg_pair hkeys
  obtain ⟨keys', hkeys'⟩ :=
    hpair.refresh_ok (by decide) (sampleRefreshRandomness_good keys.1.xShare)
  have hrun : refreshRun keys [(sampleRefreshRandomness, .ok ())] = .ok keys' := by
    simp only [refreshRun, List.foldlM_cons, List.foldlM_nil, hkeys', ok_bind]
    rfl
  obtain ⟨key, hprv, -, -, hcKey, hdec, hx1, -, hsum, -⟩ := ecdsa2p_keys hkeys hrun (by decide)
  exact ⟨keys, keys', hkeys, hrun, key, hprv, hcKey, hdec, hx1.2.1, hsum⟩

end CbMpc
