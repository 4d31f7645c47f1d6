import CbMpc.CommonFraction
import CbMpc.RangePedersen
import CbMpc.ZkEcdsaSound

/-!
# Equality of a Paillier plaintext and a committed integer

`paillier_pedersen_equal_t` and `paillier_pedersen_equal_interactive_t`: the plaintext is masked
once for each digit of the challenge, and the digits of the mask are committed to together. The
verifier leaves out the test of the ciphertext and takes one product of all units instead.
-/
namespace CbMpc

open CommonFraction NthResidues

/-- `ei`: the digit of the challenge for one repetition. -/
def challengeDigit (e : ℤ) (i : ℕ) : ℕ := digit logAlpha e.toNat i

/-- `d += di[i] << (i * log_alpha)` over all repetitions. -/
def shiftedSum {t : ℕ} (v : Fin t → ℤ) : ℤ := ofDigits logAlpha v

/-- `q_with_slack_p`. -/
def equalSlackP (t q : ℕ) : ℤ := q * 2 ^ (secPStat + t * logAlpha + logAlpha + 2)

/-- `q_with_slack_N`. -/
def equalSlackN (t q : ℕ) : ℤ := q * 2 ^ (secPStat + t * logAlpha + 2 * logAlpha + 1)

/-- What the prover draws. -/
structure EqualityMasks (t : ℕ) where
  ri : Fin t → ℤ
  RTilde : Fin t → ℤ
  mu : ℤ

/-- The answers of the prover. -/
structure EqualityAnswer (t : ℕ) where
  di : Fin t → ℤ
  D : Fin t → ℤ
  nu : ℤ

/-- The first message of the prover. -/
structure EqualityFirst (t : ℕ) where
  cTilde : Fin t → ℤ
  ComTilde : ℤ

/-- `paillier_pedersen_equal_interactive_t::prover_msg1`, without the commitment to it. The proof
that is not interactive begins the same way. -/
def equalityProverMsg1 {t : ℕ} (P : PedersenParams) (paillier : Paillier)
    (q : ℕ) (ω : EqualityMasks t) :
    Outcome (EqualityFirst t) := do
  cbAssert paillier.hasPrivateKey
  cbAssert (decide (equalSlackP t q < P.p))
  cbAssert (decide (equalSlackN t q < paillier.N))
  let cTilde ← fillArray fun i => paillier.encrypt false (ω.ri i) (ω.RTilde i)
  let ComTilde ← P.commit false P.g P.h (shiftedSum ω.ri) ω.mu
  .ok ⟨cTilde, ComTilde⟩

/-- `paillier_pedersen_equal_interactive_t::prover_msg2`. -/
def equalityProverMsg2 {t : ℕ} (P : PedersenParams) (paillier : Paillier)
    (e x R rho : ℤ) (ω : EqualityMasks t) :
    Outcome (EqualityAnswer t) := do
  let D ← fillArray fun i => equalAnswer paillier.N R (ω.RTilde i) (challengeDigit e i)
  let er ← modMul false P.pTag e rho
  let nu ← modAdd false P.pTag er ω.mu
  .ok ⟨fun i => challengeDigit e i * x + ω.ri i, D, nu⟩

/-- What is hashed to the challenge of `paillier_pedersen_equal_t`. -/
structure EqualityHash where
  N : ℕ
  c : ℤ
  p : ℕ
  q : ℕ
  g : ℤ
  h : ℤ
  Com : ℤ
  first : EqualityFirst nonInteractiveReps
  sessionId : List (Fin 256)
  aux : ℕ

/-- `ro::hash_string(…).bitlen(lambda)`, read by `from_bin_bitlen`. -/
abbrev EqualityOracle : Type := EqualityHash → Fin (2 ^ (logAlpha * nonInteractiveReps))

/-- `paillier_pedersen_equal_t`. -/
structure PaillierPedersenEqual extends EqualityAnswer nonInteractiveReps where
  e : ℤ
  ComTilde : ℤ

/-- `paillier_pedersen_equal_t::prove` on the masks that it draws. -/
def paillierPedersenEqualProve (P : PedersenParams) (O : EqualityOracle)
    (paillier : Paillier) (c : ℤ) (q : ℕ) (Com x R rho : ℤ) (sessionId : List (Fin 256)) (aux : ℕ)
    (ω : EqualityMasks nonInteractiveReps) :
    Outcome PaillierPedersenEqual := do
  let first ← equalityProverMsg1 P paillier q ω
  let e : ℤ := (O ⟨paillier.N, c, P.p, q, P.g, P.h, Com, first, sessionId, aux⟩).val
  let answer ← equalityProverMsg2 P paillier e x R rho ω
  .ok ⟨answer, e, first.ComTilde⟩

/-- The flags of both verifiers. -/
structure EqualityFlags where
  paillierValidKey : ZkFlag
  paillierNoSmallFactors : ZkFlag

/-- The loop body of `paillier_pedersen_equal_t::verify` that tests the ranges. -/
def equalityRange {t : ℕ} (paillier : Paillier) (q : ℕ) (a : EqualityAnswer t) (DProd : ℤ)
    (i : Fin t) : Outcome ℤ := do
  let DProd ← modMul true paillier.N DProd (a.D i)
  checkOpenRange 0 (a.D i) paillier.N
  checkOpenRange 0 (a.di i) (qWithSlack q)
  .ok DProd

/-- The ciphertext that `paillier_pedersen_equal_t::verify` computes for one repetition. -/
def equalityTilde (paillier : Paillier) (cInv : ℤ) (ei : ℕ) (di D : ℤ) : Outcome ℤ := do
  let cTag ← modPow paillier.NN cInv ei
  let enc ← paillier.encrypt true di D
  modMul true paillier.NN cTag enc

/-- All these ciphertexts. -/
def equalityTildes (paillier : Paillier) (c : ℤ) (π : PaillierPedersenEqual) :
    Outcome (Fin nonInteractiveReps → ℤ) := do
  let cInv ← modInv paillier.NN c
  fillArray fun i => equalityTilde paillier cInv (challengeDigit π.e i) (π.di i) (π.D i)

/-- The test of the commitments at the end of both verifiers. -/
def equalityTest (P : PedersenParams) (Com ComTilde e d nu : ℤ) : Outcome Unit := do
  let ce ← modPow P.p Com e
  let left ← modMul true P.p ce ComTilde
  let right ← P.commit true P.g P.h d nu
  require (decide (left = right)) .crypto

/-- `paillier_pedersen_equal_t::verify`, which gives the flag back that it sets. -/
def paillierPedersenEqualVerify (P : PedersenParams) (O : EqualityOracle) (flags : EqualityFlags)
    (paillier : Paillier) (c : ℤ) (q : ℕ) (Com : ℤ) (sessionId : List (Fin 256)) (aux : ℕ)
    (π : PaillierPedersenEqual) : Outcome ZkFlag := do
  require (decide (flags.paillierValidKey ≠ .unverified)) .crypto
  require (decide (equalSlackP nonInteractiveReps q < P.p)) .crypto
  require (decide (0 < paillier.N)) .crypto
  require (decide (equalSlackN nonInteractiveReps q < paillier.N)) .crypto
  P.checkSafePrimeSubgroup Com
  P.checkSafePrimeSubgroup π.ComTilde
  let noSmallFactors ← checkSmallFactors paillier.N flags.paillierNoSmallFactors
  require (decide (0 ≤ π.e)) .crypto
  require (decide (0 ≤ π.nu)) .crypto
  checkOpenRange 0 c paillier.NN
  let DProd ← (List.finRange nonInteractiveReps).foldlM
    (equalityRange paillier q π.toEqualityAnswer) c
  require (decide (DProd ≠ 0)) .crypto
  let isCoprime ← coprime true DProd paillier.N
  require isCoprime .crypto
  let cTilde ← equalityTildes paillier c π
  require (decide
    (π.e = (O ⟨paillier.N, c, P.p, q, P.g, P.h, Com, ⟨cTilde, π.ComTilde⟩, sessionId, aux⟩).val))
      .crypto
  equalityTest P Com π.ComTilde π.e (shiftedSum π.di) π.nu
  .ok noSmallFactors

/-- The loop body of `paillier_pedersen_equal_interactive_t::verify` that tests the ranges. -/
def equalityInteractiveRange {t : ℕ} (paillier : Paillier) (q : ℕ) (cTilde : Fin t → ℤ)
    (a : EqualityAnswer t) (CD : ℤ) (i : Fin t) : Outcome ℤ := do
  checkRightOpenRange 0 (a.di i) (qWithSlack q)
  checkOpenRange 0 (a.D i) paillier.N
  equalProduct paillier.N CD (a.D i) (cTilde i)

/-- The loop body that tests the encryptions. -/
def equalityEncryption {t : ℕ} (paillier : Paillier) (c e : ℤ) (cTilde : Fin t → ℤ)
    (a : EqualityAnswer t) (i : Fin t) :
    Outcome Unit := do
  let ce ← modPow paillier.NN c (challengeDigit e i)
  let C ← modMul true paillier.NN (cTilde i) ce
  let enc ← paillier.encrypt true (a.di i) (a.D i)
  require (decide (C = enc)) .crypto

/-- `paillier_pedersen_equal_interactive_t::verify`, where `comOpen` is the opening of the
commitment to the first message. -/
def equalityInteractiveVerify {t : ℕ} (P : PedersenParams)
    (comOpen : EqualityFirst t → Outcome Unit) (flags : EqualityFlags) (paillier : Paillier) (c : ℤ)
    (q : ℕ) (Com e : ℤ) (first : EqualityFirst t) (a : EqualityAnswer t) : Outcome ZkFlag := do
  require (decide (flags.paillierValidKey ≠ .unverified)) .crypto
  let noSmallFactors ← checkSmallFactors paillier.N flags.paillierNoSmallFactors
  require (decide (0 ≤ e)) .crypto
  require (decide (0 ≤ a.nu)) .crypto
  require (decide (0 < paillier.N)) .crypto
  require (decide (equalSlackP t q < P.p)) .crypto
  require (decide (equalSlackN t q < paillier.N)) .crypto
  comOpen first
  P.checkSafePrimeSubgroup Com
  P.checkSafePrimeSubgroup first.ComTilde
  let CD ← (List.finRange t).foldlM (equalityInteractiveRange paillier q first.cTilde a) c
  require (decide (CD ≠ 0)) .crypto
  let isCoprime ← coprime true CD paillier.N
  require isCoprime .crypto
  forEach (equalityEncryption paillier c e first.cTilde a) (List.finRange t)
  equalityTest P Com first.ComTilde e (shiftedSum a.di) a.nu
  .ok noSmallFactors

variable {P : PedersenParams} {V : Paillier} {t q : ℕ}

theorem fillArray_ok {f : Fin t → Outcome ℤ} {v : Fin t → ℤ} (h : fillArray f = .ok v)
    (i : Fin t) : f i = .ok (v i) := by
  obtain ⟨l, hl, -⟩ := bind_ok_iff.mp h
  choose g hg using fun i => exists_mapM_ok_iff.mp ⟨l, hl⟩ i (List.mem_finRange i)
  rw [fillArray_eq hg] at h
  rw [hg i, ← Except.ok.inj h]

theorem lambda_lt_pTag (hq : 0 < q) (h : equalSlackP t q < P.p) : 2 ^ (logAlpha * t) < P.pTag := by
  have hp := P.p_eq
  have hexp : (2 : ℤ) ^ (secPStat + t * logAlpha + logAlpha + 2) =
      2 ^ (logAlpha * t) * 2 ^ (secPStat + logAlpha + 2) := by
    rw [← pow_add]
    congr 1
    ring
  have hbig : (4 : ℤ) ≤ 2 ^ (secPStat + logAlpha + 2) := by norm_num [secPStat, logAlpha]
  have hq' : (1 : ℤ) ≤ q := by exact_mod_cast hq
  have hpos : (0 : ℤ) < 2 ^ (logAlpha * t) := by positivity
  have hle : (2 : ℤ) ^ (logAlpha * t) * 4 ≤ equalSlackP t q := by
    rw [equalSlackP, hexp]
    calc (2 : ℤ) ^ (logAlpha * t) * 4 ≤ 2 ^ (logAlpha * t) *
      2 ^ (secPStat + logAlpha + 2) := by gcongr
      _ = 1 * (2 ^ (logAlpha * t) * 2 ^ (secPStat + logAlpha + 2)) := (one_mul _).symm
      _ ≤ q * (2 ^ (logAlpha * t) * 2 ^ (secPStat + logAlpha + 2)) := by gcongr
  zify
  omega

theorem qWithSlack_nonneg (q : ℕ) : 0 ≤ qWithSlack q := by
  rw [qWithSlack]
  positivity

theorem slack_mul_le {l α s : ℤ} (hl : 1 ≤ l) (hα : 0 ≤ α) (hs : 0 ≤ s) (q : ℕ) :
    2 * (α * (q * s)) ≤ q * (l * (2 * (α * s))) := by
  have hq : (0 : ℤ) ≤ q * (2 * (α * s)) := by positivity
  calc 2 * (α * (q * s)) = 1 * (q * (2 * (α * s))) := by ring
    _ ≤ l * (q * (2 * (α * s))) := mul_le_mul_of_nonneg_right hl hq
    _ = q * (l * (2 * (α * s))) := by ring

/-- The bound on the modulus leaves room for two products of an answer and a digit. -/
theorem qWithSlack_mul_le (t q : ℕ) : 2 * (2 ^ logAlpha * qWithSlack q) ≤ equalSlackN t q := by
  have hexp : secPStat + t * logAlpha + 2 * logAlpha + 1 = logAlpha * t +
    (1 + (logAlpha + (logAlpha + secPStat))) := by ring
  have hle := slack_mul_le (one_le_pow₀ (n := logAlpha * t) (by norm_num : (1 : ℤ) ≤ 2))
    (by positivity : (0 : ℤ) ≤ 2 ^ logAlpha) (by positivity : (0 : ℤ) ≤ 2 ^ (logAlpha + secPStat)) q
  rwa [equalSlackN, qWithSlack, hexp, pow_add 2 (logAlpha * t), pow_add 2 1, pow_one,
    pow_add 2 logAlpha (logAlpha + secPStat)]

theorem qWithSlack_le (t q : ℕ) : qWithSlack q ≤ equalSlackN t q := by
  have hmul := qWithSlack_mul_le t q
  have hnonneg := qWithSlack_nonneg q
  have hone : (1 : ℤ) ≤ 2 ^ logAlpha := one_le_pow₀ (by norm_num)
  nlinarith

/-- What both verifiers establish of a proof that they accept. -/
structure EqualityAccepted (P : PedersenParams) (V : Paillier) (c : ℤ) (q : ℕ) (Com e : ℤ)
    (first : EqualityFirst t) (a : EqualityAnswer t) : Prop where
  slackP : equalSlackP t q < P.p
  slackN : equalSlackN t q < V.N
  sub : (Com : ZMod P.p) ^ P.pTag = 1
  e_nonneg : 0 ≤ e
  gcd_c : Int.gcd c V.N = 1
  gcd_D : ∀ i, Int.gcd (a.D i) V.N = 1
  di_range : ∀ i, 0 ≤ a.di i ∧ a.di i < qWithSlack q
  row : ∀ i : Fin t, (c : ZMod (V.N * V.N)) ^ challengeDigit e i * first.cTilde i =
    (a.D i : ZMod (V.N * V.N)) ^ V.N * (1 + a.di i * V.N)
  commitments : (Com : ZMod P.p) ^ e * first.ComTilde = P.opening (shiftedSum a.di) a.nu

theorem shiftedSum_nonneg {v : Fin t → ℤ} (h : ∀ i, 0 ≤ v i) : 0 ≤ shiftedSum v := by
  rw [shiftedSum, ofDigits]
  apply Finset.sum_nonneg
  intro i _
  exact mul_nonneg (h i) (by positivity)

theorem equalityTest_ok_iff {Com ComTilde e d nu : ℤ} (he : 0 ≤ e) (hd : 0 ≤ d) (hnu : 0 ≤ nu) :
    equalityTest P Com ComTilde e d nu = .ok () ↔
    (Com : ZMod P.p) ^ e * ComTilde = P.opening d nu := by
  obtain ⟨right, hright, hrange, hcast⟩ := P.commit_eq true P.g P.h hd hnu
  have hopen : (right : ZMod P.p) = P.opening d nu := hcast
  have hleft : ((Com ^ e.toNat % P.p * ComTilde % P.p : ℤ) : ZMod P.p) =
      (Com : ZMod P.p) ^ e * ComTilde := by
    rw [cast_emod, Int.cast_mul, cast_emod, Int.cast_pow, ← zpow_natCast, Int.toNat_of_nonneg he]
  rw [equalityTest, modPow_eq Com he, ok_bind, modMul, modOp, if_pos rfl, ok_bind, hright, ok_bind,
    require_ok_iff, decide_eq_true_iff, ← hopen, ← hleft]
  exact ⟨fun h => by rw [h], eq_of_isInRange (isInRange_emod P.p_pos _) hrange⟩

theorem equalityRange_loop {a : EqualityAnswer t} {c r : ℤ} :
    (List.finRange t).foldlM (equalityRange V q a) c = .ok r ↔
      (∀ i, (0 < a.D i ∧ a.D i < V.N) ∧ 0 < a.di i ∧ a.di i < qWithSlack q) ∧
        (List.finRange t).foldl (fun prod i => prod * a.D i % V.N) c = r := by
  have hstep : ∀ (acc : ℤ) (i : Fin t), True → equalityRange V q a acc i = ((do
      checkOpenRange 0 (a.D i) V.N
      checkOpenRange 0 (a.di i) (qWithSlack q)) >>= fun _ => .ok (acc * a.D i % V.N)) ∧ True := by
    intro acc i _
    refine ⟨?_, trivial⟩
    simp only [equalityRange, modMul, modOp, if_true, ok_bind]
    cases checkOpenRange 0 (a.D i) V.N with
    | error e => rfl
    | ok u => rfl
  rw [foldlM_guarded (I := fun _ => True) hstep _ trivial, unit_bind_ok_iff, forEach_ok_iff,
    Except.ok.injEq]
  simp only [List.mem_finRange, forall_const, unit_bind_ok_iff, checkOpenRange_ok_iff]

theorem equalityInteractiveRange_loop {cTilde : Fin t → ℤ} {a : EqualityAnswer t} {c r : ℤ} :
    (List.finRange t).foldlM (equalityInteractiveRange V q cTilde a) c = .ok r ↔
      (∀ i, (0 ≤ a.di i ∧ a.di i < qWithSlack q) ∧ 0 < a.D i ∧ a.D i < V.N) ∧
        (List.finRange t).foldl (fun prod i => prod * (a.D i * cTilde i % V.N) % V.N) c = r := by
  have hstep : ∀ (acc : ℤ) (i : Fin t), True → equalityInteractiveRange V q cTilde a acc i = ((do
      checkRightOpenRange 0 (a.di i) (qWithSlack q)
      checkOpenRange 0 (a.D i) V.N) >>= fun _ => .ok (acc * (a.D i * cTilde i % V.N) % V.N)) ∧
          True := by
    intro acc i _
    refine ⟨?_, trivial⟩
    simp only [equalityInteractiveRange, equalProduct, modMul, modOp, if_true, ok_bind]
    cases checkRightOpenRange 0 (a.di i) (qWithSlack q) with
    | error e => rfl
    | ok u => rfl
  rw [foldlM_guarded (I := fun _ => True) hstep _ trivial, unit_bind_ok_iff, forEach_ok_iff,
    Except.ok.injEq]
  simp only [List.mem_finRange, forall_const, unit_bind_ok_iff, checkRightOpenRange_ok_iff,
    checkOpenRange_ok_iff]

/-- The ciphertext computed for a repetition satisfies the equation of the repetition. -/
theorem equalityTilde_ok {c cInv d D v : ℤ} {ei : ℕ}
    (hinv : (c : ZMod (V.N * V.N)) * cInv = 1) (hD : 0 < D ∧ D < V.N)
    (h : equalityTilde V cInv ei d D = .ok v) :
    (c : ZMod (V.N * V.N)) ^ ei * v = (D : ZMod (V.N * V.N)) ^ V.N * (1 + d * V.N) := by
  obtain ⟨cTag, hcTag, h⟩ := bind_ok_iff.mp h
  obtain ⟨enc, henc, h⟩ := bind_ok_iff.mp h
  rw [modPow_eq cInv (Int.natCast_nonneg ei), Int.toNat_natCast] at hcTag
  have hcast : (v : ZMod (V.N * V.N)) = (cInv : ZMod (V.N * V.N)) ^ ei * enc := by
    have hv : v = cTag * enc % (V.NN : ℕ) := eq_emod_of_modOp_ok h
    rw [hv, ← Except.ok.inj hcTag, Paillier.NN, cast_emod, Int.cast_mul, cast_emod, Int.cast_pow]
  rw [hcast, (Paillier.encrypt_ok hD henc).2, ← mul_assoc, ← mul_pow, hinv, one_pow, one_mul]

theorem equalityEncryption_ok {c e : ℤ} {cTilde : Fin t → ℤ} {a : EqualityAnswer t} {i : Fin t}
    (hD : 0 < a.D i ∧ a.D i < V.N) (h : equalityEncryption V c e cTilde a i = .ok ()) :
    (c : ZMod (V.N * V.N)) ^ challengeDigit e i * cTilde i =
      (a.D i : ZMod (V.N * V.N)) ^ V.N * (1 + a.di i * V.N) := by
  obtain ⟨ce, hce, h⟩ := bind_ok_iff.mp h
  obtain ⟨C, hC, h⟩ := bind_ok_iff.mp h
  obtain ⟨enc, henc, h⟩ := bind_ok_iff.mp h
  rw [require_ok_iff, decide_eq_true_iff] at h
  rw [modPow_eq c (Int.natCast_nonneg _), Int.toNat_natCast] at hce
  have hcast : (C : ZMod (V.N * V.N)) = cTilde i * (c : ZMod (V.N * V.N)) ^ challengeDigit e i := by
    have hv : C = cTilde i * ce % (V.NN : ℕ) := eq_emod_of_modOp_ok hC
    rw [hv, ← Except.ok.inj hce, Paillier.NN, cast_emod, Int.cast_mul, cast_emod, Int.cast_pow]
  rw [← (Paillier.encrypt_ok hD henc).2, ← h, hcast]
  exact mul_comm _ _

theorem isUnit_of_gcd {N : ℕ} {a : ℤ} (h : Int.gcd a N = 1) : IsUnit (a : ZMod (N * N)) :=
  ⟨ZMod.unitOfIsCoprime a (Int.isCoprime_iff_gcd_eq_one.mpr ((gcd_square_iff a).mpr h)), rfl⟩

/-- What `paillier_pedersen_equal_t::verify` establishes. -/
theorem paillierPedersenEqualVerify_ok {O : EqualityOracle} {flags : EqualityFlags} {c Com : ℤ}
    {sessionId : List (Fin 256)} {aux : ℕ} {π : PaillierPedersenEqual} {flag : ZkFlag}
    (h : paillierPedersenEqualVerify P O flags V c q Com sessionId aux π = .ok flag) :
    ∃ cTilde, equalityTildes V c π = .ok cTilde ∧
      EqualityAccepted P V c q Com π.e ⟨cTilde, π.ComTilde⟩ π.toEqualityAnswer ∧ (∀ i, 0 < π.di i) ∧
      π.e = (O ⟨V.N, c, P.p, q, P.g, P.h, Com, ⟨cTilde, π.ComTilde⟩, sessionId, aux⟩).val := by
  obtain ⟨-, h⟩ := require_bind_ok_iff.mp h
  obtain ⟨hP, h⟩ := require_bind_ok_iff.mp h
  obtain ⟨hpos, h⟩ := require_bind_ok_iff.mp h
  obtain ⟨hN, h⟩ := require_bind_ok_iff.mp h
  obtain ⟨hsub, h⟩ := unit_bind_ok_iff.mp h
  obtain ⟨-, h⟩ := unit_bind_ok_iff.mp h
  obtain ⟨_, -, h⟩ := bind_ok_iff.mp h
  obtain ⟨he, h⟩ := require_bind_ok_iff.mp h
  obtain ⟨hnu, h⟩ := require_bind_ok_iff.mp h
  obtain ⟨-, h⟩ := unit_bind_ok_iff.mp h
  obtain ⟨DProd, hprod, h⟩ := bind_ok_iff.mp h
  obtain ⟨-, h⟩ := require_bind_ok_iff.mp h
  rw [coprime, if_pos rfl, ok_bind] at h
  obtain ⟨hgcd, h⟩ := require_bind_ok_iff.mp h
  obtain ⟨cTilde, hTildes, h⟩ := bind_ok_iff.mp h
  obtain ⟨hchallenge, h⟩ := require_bind_ok_iff.mp h
  obtain ⟨htest, -⟩ := unit_bind_ok_iff.mp h
  rw [decide_eq_true_iff] at hP hpos hN he hnu hgcd hchallenge
  obtain ⟨hrange, hfold⟩ := equalityRange_loop.mp hprod
  rw [← hfold, gcd_foldl_mul_emod_iff] at hgcd
  obtain ⟨cInv, hcInv, hfill⟩ := bind_ok_iff.mp hTildes
  have hone := (modInv_ok (Nat.mul_pos hpos hpos) hcInv).2
  have hnonneg := shiftedSum_nonneg fun i => (hrange i).2.1.le
  refine ⟨cTilde, hTildes, ⟨hP, hN, P.checkSafePrimeSubgroup_ok_iff.mp hsub, he, hgcd.1, fun i =>
    hgcd.2 i (List.mem_finRange i),
    fun i => ⟨(hrange i).2.1.le, (hrange i).2.2⟩, fun i => ?_,
    (equalityTest_ok_iff he hnonneg hnu).mp htest⟩,
    fun i => (hrange i).2.1, hchallenge⟩
  exact equalityTilde_ok hone (hrange i).1 (fillArray_ok hfill i)

/-- What `paillier_pedersen_equal_interactive_t::verify` establishes. -/
theorem equalityInteractiveVerify_ok {comOpen : EqualityFirst t → Outcome Unit}
    {flags : EqualityFlags} {c Com e : ℤ} {first : EqualityFirst t}
    {a : EqualityAnswer t} {flag : ZkFlag}
    (h : equalityInteractiveVerify P comOpen flags V c q Com e first a = .ok flag) :
    EqualityAccepted P V c q Com e first a := by
  obtain ⟨-, h⟩ := require_bind_ok_iff.mp h
  obtain ⟨_, -, h⟩ := bind_ok_iff.mp h
  obtain ⟨he, h⟩ := require_bind_ok_iff.mp h
  obtain ⟨hnu, h⟩ := require_bind_ok_iff.mp h
  obtain ⟨-, h⟩ := require_bind_ok_iff.mp h
  obtain ⟨hP, h⟩ := require_bind_ok_iff.mp h
  obtain ⟨hN, h⟩ := require_bind_ok_iff.mp h
  obtain ⟨-, h⟩ := unit_bind_ok_iff.mp h
  obtain ⟨hsub, h⟩ := unit_bind_ok_iff.mp h
  obtain ⟨-, h⟩ := unit_bind_ok_iff.mp h
  obtain ⟨CD, hprod, h⟩ := bind_ok_iff.mp h
  obtain ⟨-, h⟩ := require_bind_ok_iff.mp h
  rw [coprime, if_pos rfl, ok_bind] at h
  obtain ⟨hgcd, h⟩ := require_bind_ok_iff.mp h
  obtain ⟨henc, h⟩ := unit_bind_ok_iff.mp h
  obtain ⟨htest, -⟩ := unit_bind_ok_iff.mp h
  rw [decide_eq_true_iff] at hP hN he hnu hgcd
  obtain ⟨hrange, hfold⟩ := equalityInteractiveRange_loop.mp hprod
  rw [← hfold, gcd_foldl_mul_emod_iff] at hgcd
  have hnonneg := shiftedSum_nonneg fun i => (hrange i).1.1
  refine ⟨hP, hN, P.checkSafePrimeSubgroup_ok_iff.mp hsub, he, hgcd.1, fun i => ?_, fun i =>
    (hrange i).1, fun i => ?_, (equalityTest_ok_iff he hnonneg hnu).mp htest⟩
  · have hfactor := hgcd.2 i (List.mem_finRange i)
    rw [Int.gcd_emod, ← Int.isCoprime_iff_gcd_eq_one, IsCoprime.mul_left_iff] at hfactor
    exact Int.isCoprime_iff_gcd_eq_one.mp hfactor.1
  · exact equalityEncryption_ok (hrange i).2 (forEach_ok_iff.mp henc i (List.mem_finRange i))

/-- A fraction that a plaintext and a committed integer have in common, with the exponent of `h`
that opens the power of the commitment. -/
structure EqualityFraction where
  delta : ℤ
  v : ℤ
  s : ℤ

/-- What two answers to one first message reveal in the repetition `j`. -/
def equalityExtract (P : PedersenParams) (e e' : ℤ) (a a' : EqualityAnswer t)
    (j : Fin t) : EqualityFraction where
  delta := (challengeDigit e j : ℤ) - challengeDigit e' j
  v := a.di j - a'.di j
  s := ((challengeDigit e j : ℤ) - challengeDigit e' j) * (a.nu - a'.nu) *
    residue ((e - e' : ℤ) : ZMod P.pTag)⁻¹

/-- The fraction stands for the plaintext `m` and for what `Com` holds. -/
structure EqualityFraction.Holds (P : PedersenParams) (N q : ℕ) (Com m : ℤ)
    (f : EqualityFraction) : Prop where
  delta_ne : f.delta ≠ 0
  delta_lt : |f.delta| < 2 ^ logAlpha
  v_lt : |f.v| < qWithSlack q
  plain : ((f.delta * m : ℤ) : ZMod N) = f.v
  opens : (Com : ZMod P.p) ^ f.delta = P.opening f.v f.s

/-- Two accepted answers to one first message: the plaintext and the committed integer are one
fraction, whose denominator is the difference of two digits. -/
theorem EqualityAccepted.extract (hq : 0 < q) {c Com : ℤ} {e e' : ℕ} {first : EqualityFirst t}
    {a a' : EqualityAnswer t} (h : EqualityAccepted P V c q Com e first a)
    (h' : EqualityAccepted P V c q Com e' first a') (he : e < 2 ^ (logAlpha * t))
    (he' : e' < 2 ^ (logAlpha * t)) (hne : e ≠ e') (hcop : V.N.Coprime V.N.totient) {m : ℤ}
    (hm : IsPlain V.N c m) :
    ∃ j, (equalityExtract P e e' a a' j).Holds P V.N q Com m := by
  have hslack : (0 : ℤ) ≤ equalSlackN t q := (qWithSlack_nonneg q).trans (qWithSlack_le t q)
  have hN : V.N ≠ 0 := by
    have := h.slackN
    omega
  let δ : Fin t → ℤ := fun i => (digit logAlpha e i : ℤ) - digit logAlpha e' i
  let v : Fin t → ℤ := fun i => a.di i - a'.di i
  have hδ : ∀ i, |δ i| < 2 ^ logAlpha := fun i => by
    have h1 : (digit logAlpha e i : ℤ) < 2 ^ logAlpha := by exact_mod_cast digit_lt logAlpha e i
    have h2 : (digit logAlpha e' i : ℤ) < 2 ^ logAlpha := by exact_mod_cast digit_lt logAlpha e' i
    rw [abs_lt]
    constructor <;> simp only [δ] <;> omega
  have hv : ∀ i, |v i| < qWithSlack q := fun i => by
    have h1 := h.di_range i
    have h2 := h'.di_range i
    rw [abs_lt]
    constructor <;> simp only [v] <;> omega
  have hfraction : ∀ i, ((δ i * m : ℤ) : ZMod V.N) = v i := fun i =>
    fraction_of_answers hN hcop hm (isUnit_of_gcd (h.gcd_D i))
      (isUnit_of_gcd (h'.gcd_D i)) (h.row i) (h'.row i)
  obtain ⟨j, hj⟩ := exists_digit_ne he he' hne
  have hδj : δ j ≠ 0 := sub_ne_zero.mpr fun heq => hj (by exact_mod_cast heq)
  have hcross : ∀ i, δ i * v j = δ j * v i := fun i =>
    cross_eq (hδ i) (hδ j) (hv i) (hv j) ((qWithSlack_mul_le t q).trans h.slackN.le)
      (hfraction i) (hfraction j)
  have hsum : ((e : ℤ) - e') * v j = δ j * (shiftedSum a.di - shiftedSum a'.di) := by
    have hdigits := ofDigits_cross (k := logAlpha) hcross
    rwa [← ofDigits_sub, ← ofDigits_sub, ofDigits_digit he, ofDigits_digit he'] at hdigits
  have hCom : (Com : ZMod P.p) ^ ((e : ℤ) - e') =
      P.opening (shiftedSum a.di - shiftedSum a'.di) (a.nu - a'.nu) := by
    have hne : (Com : ZMod P.p) ≠ 0 := PrimeOrder.ne_zero_of_pow_eq_one P.pTag_prime h.sub
    have htilde : (first.ComTilde : ZMod P.p) ≠ 0 := by
      intro hzero
      apply P.opening_ne_zero (shiftedSum a.di) a.nu
      rw [← h.commitments, hzero, mul_zero]
    rw [P.opening_sub, ← h.commitments, ← h'.commitments, mul_div_mul_right _ _ htilde,
      zpow_sub₀ hne]
  have hlt := lambda_lt_pTag hq h.slackP
  have hdvd : ¬(P.pTag : ℤ) ∣ (e : ℤ) - e' := by
    intro hdvd
    have hsmall : |(e : ℤ) - e'| < P.pTag := by
      rw [abs_lt]
      omega
    have := Int.eq_zero_of_abs_lt_dvd hdvd hsmall
    omega
  have hfact : Fact P.pTag.Prime := ⟨P.pTag_prime⟩
  let k : ℤ := residue (((e : ℤ) - e' : ℤ) : ZMod P.pTag)⁻¹
  have hk : ((k * (e - e') : ℤ) : ZMod P.pTag) = 1 := by
    have hunit : (((e : ℤ) - e' : ℤ) : ZMod P.pTag) ≠ 0 := fun h0 =>
      hdvd ((ZMod.intCast_zmod_eq_zero_iff_dvd _ _).mp h0)
    rw [Int.cast_mul, cast_residue, inv_mul_cancel₀ hunit]
  refine ⟨j, hδj, hδ j, hv j, hfraction j, ?_⟩
  change (Com : ZMod P.p) ^ δ j = P.opening (v j) (δ j * (a.nu - a'.nu) * k)
  have hpow : ((Com : ZMod P.p) ^ δ j) ^ P.pTag = 1 := by
    rw [← zpow_natCast, zpow_comm, zpow_natCast, h.sub, one_zpow]
  apply PrimeOrder.eq_of_zpow_eq P.pTag_prime hpow (P.opening_pow_pTag _ _) hdvd
  calc ((Com : ZMod P.p) ^ δ j) ^ ((e : ℤ) - e') =
      P.opening (shiftedSum a.di - shiftedSum a'.di) (a.nu - a'.nu) ^ δ j := by
        rw [zpow_comm, hCom]
    _ = P.opening ((e - e') * v j) (δ j * (a.nu - a'.nu)) := by rw [← P.opening_mul, hsum]
    _ = P.opening ((e - e') * v j) ((e - e') * (δ j * (a.nu - a'.nu) * k)) := by
        refine P.opening_congr rfl ?_
        rw [show ((e : ℤ) - e') * (δ j * (a.nu - a'.nu) * k) =
          δ j * (a.nu - a'.nu) * (k * (e - e')) by ring, Int.cast_mul _ (k * _), hk, mul_one]
    _ = P.opening (v j) (δ j * (a.nu - a'.nu) * k) ^ ((e : ℤ) - e') := by rw [P.opening_mul]

variable {key : PaillierKey}

/-- The prime factors of a key are about as large as the square root of the modulus. -/
theorem PaillierPrimes.lt_factor (key : PaillierPrimes) {b : ℕ} (hb : 2 * b * b ≤ key.N) {r : ℕ}
    (hr : r.Prime) (hdvd : r ∣ key.N) :
    b < r := by
  have hlt := key.lt
  have htwo := key.lt_two_mul
  have hmul : key.N < 2 * key.q * key.q := by
    rw [PaillierPrimes.N]
    exact Nat.mul_lt_mul_of_pos_right htwo key.prime_q.pos
  have hq : b < key.q := by
    by_contra hnot
    have hsq : 2 * key.q * key.q ≤ 2 * b * b := by
      rw [not_lt] at hnot
      gcongr
    omega
  rcases (Nat.Prime.dvd_mul hr).mp hdvd with hp | hq'
  · rw [(Nat.prime_dvd_prime_iff_eq hr key.prime_p).mp hp]
    omega
  · rwa [(Nat.prime_dvd_prime_iff_eq hr key.prime_q).mp hq']

/-- A key has no factor that the trial division could find. -/
theorem PaillierKey.alpha_lt_factor (key : PaillierKey) {r : ℕ} (hr : r.Prime)
    (hdvd : r ∣ key.N) : paillierAlpha < r := by
  have hle := key.two_pow_le_N (k := 27) (by rw [paillierBits_eq]; norm_num)
  have hval : 2 * paillierAlpha * paillierAlpha = 2 ^ 27 := by norm_num [paillierAlpha, logAlpha]
  exact key.lt_factor (by omega) hr hdvd

/-- What the honest prover draws. -/
structure EqualityMasks.Drawn (P : PedersenParams) (key : PaillierKey) (q : ℕ)
    (ω : EqualityMasks t) : Prop where
  ri : ∀ i, 0 ≤ ω.ri i ∧ ω.ri i < qWithSlack q
  RTilde : ∀ i, 0 ≤ ω.RTilde i ∧ ω.RTilde i < key.N
  gcd_RTilde : ∀ i, Int.gcd (ω.RTilde i) key.N = 1
  mu : isInRange P.pTag ω.mu = true

/-- What the honest prover is given. -/
structure EqualityInputs (P : PedersenParams) (key : PaillierKey) (t q : ℕ)
    (x R rho Com : ℤ) : Prop where
  q_pos : 0 < q
  slackP : equalSlackP t q < P.p
  slackN : equalSlackN t q < key.N
  x_range : 0 ≤ x ∧ x < q
  gcd_R : Int.gcd R key.N = 1
  rho_range : isInRange P.pTag rho = true
  Com_eq : P.commit false P.g P.h x rho = .ok Com

theorem EqualityInputs.cast_Com {x R rho Com : ℤ} (h : EqualityInputs P key t q x R rho Com) :
    (Com : ZMod P.p) = P.opening x rho := by
  obtain ⟨c, hc, -, hcast⟩ :=
    P.commit_eq false P.g P.h h.x_range.1 ((isInRange_iff _).mp h.rho_range).1
  rw [Except.ok.inj (h.Com_eq.symm.trans hc)]
  exact hcast

/-- The honest first message, and the honest answers to every challenge. -/
theorem equality_honest {x R rho Com : ℤ}
    (h : EqualityInputs P key t q x R rho Com) {ω : EqualityMasks t} (hω : ω.Drawn P key q) :
    ∃ first, equalityProverMsg1 P key.prv q ω = .ok first ∧
      (∀ i, key.Encrypts (first.cTilde i) (ω.ri i)) ∧ (first.ComTilde : ZMod P.p) ^ P.pTag = 1 ∧
      ∀ e : ℕ, e < 2 ^ (logAlpha * t) → ∃ a, equalityProverMsg2 P key.prv e x R rho ω = .ok a ∧
        (∀ i, a.di i = challengeDigit e i * x + ω.ri i) ∧ 0 ≤ a.nu ∧
        (∀ i : Fin t, EqualSide key (key.cipher x R) (challengeDigit e i)
          (first.cTilde i) (a.di i) (a.D i)) ∧
        (Com : ZMod P.p) ^ (e : ℤ) * first.ComTilde = P.opening (shiftedSum a.di) a.nu := by
  have hmu := (isInRange_iff _).mp hω.mu
  have hslack := qWithSlack_le t q
  have hNN := key.N_lt_NN
  have henc : (fillArray fun i => key.prv.encrypt false (ω.ri i) (ω.RTilde i)) =
      .ok fun i => key.cipher (ω.ri i) (ω.RTilde i) := by
    refine fillArray_eq fun i => ?_
    have hri := hω.ri i
    have hR := hω.RTilde i
    have hN := h.slackN
    exact PaillierKey.encrypt_eq rfl false hri.1 (by omega) hR.1 (by omega) (hω.gcd_RTilde i)
  obtain ⟨ComTilde, hComTilde, -, hopen⟩ :=
    P.commit_eq false P.g P.h (shiftedSum_nonneg fun i => (hω.ri i).1) hmu.1
  have hcast : (ComTilde : ZMod P.p) = P.opening (shiftedSum ω.ri) ω.mu := hopen
  refine ⟨⟨fun i => key.cipher (ω.ri i) (ω.RTilde i), ComTilde⟩, ?_,
    fun i => PaillierPrimes.encrypts_cipher _
      (hω.gcd_RTilde i), by rw [hcast, P.opening_pow_pTag], ?_⟩
  · rw [equalityProverMsg1, Paillier.hasPrivateKey, cbAssert_true, ok_bind, decide_eq_true h.slackP,
      cbAssert_true, ok_bind, Paillier.N, decide_eq_true h.slackN, cbAssert_true, ok_bind, henc,
      ok_bind, hComTilde, ok_bind]
  · intro e he
    choose D hD hside using fun i : Fin t =>
      equalSide_answer key x (ω.ri i) h.gcd_R (hω.RTilde i) (hω.gcd_RTilde i)
      (challengeDigit e i)
    have her : isInRange P.pTag (e : ℤ) = true := by
      have hlt := lambda_lt_pTag h.q_pos h.slackP
      exact (isInRange_iff _).mpr ⟨Int.natCast_nonneg e, by omega⟩
    have hprod : isInRange P.pTag (e * rho % P.pTag) = true := isInRange_emod P.pTag_pos _
    have hnu : isInRange P.pTag ((e * rho % P.pTag + ω.mu) % P.pTag) = true :=
      isInRange_emod P.pTag_pos _
    refine ⟨⟨fun i => challengeDigit e i * x + ω.ri i, D, (e * rho % P.pTag + ω.mu) % P.pTag⟩, ?_,
      fun i => rfl, ((isInRange_iff _).mp hnu).1, hside, ?_⟩
    · have hfill : (fillArray fun i => equalAnswer key.N R (ω.RTilde i) (challengeDigit e i)) =
        .ok D := fillArray_eq hD
      rw [equalityProverMsg2, Paillier.N, hfill, ok_bind, modMul, modOp_eq_emod _ _ her h.rho_range,
        ok_bind, modAdd, modOp_eq_emod _ _ hprod hω.mu, ok_bind]
    · have hsum : shiftedSum (fun i : Fin t => challengeDigit e i * x + ω.ri i) =
          e * x + shiftedSum ω.ri := by
        have hdigits : ofDigits logAlpha (fun i : Fin t => (challengeDigit e i : ℤ)) = e :=
          ofDigits_digit he
        rw [shiftedSum, ofDigits_mul_add, hdigits, shiftedSum]
      have hexp : (((e * rho % P.pTag + ω.mu) % P.pTag : ℤ) : ZMod P.pTag) =
          (e * rho + ω.mu : ℤ) := by
        rw [cast_emod, Int.cast_add, cast_emod, ← Int.cast_add]
      rw [hsum, P.opening_congr rfl hexp, P.opening_add, P.opening_mul, h.cast_Com, hcast]

theorem EqualSide.encrypt_eq (hV : V.N = key.N) {c cTilde d D : ℤ} {ei : ℕ}
    (hside : EqualSide key c ei cTilde d D) (hd : 0 ≤ d ∧ d < key.N) :
    V.encrypt true d D = .ok (key.cipher d D) := by
  have hNN := key.N_lt_NN
  have hD := hside.rHat_range
  exact PaillierKey.encrypt_eq hV true hd.1 hd.2 hD.1.le (by omega) hside.gcd_rHat

theorem EqualSide.product_eq {c cTilde d D : ℤ} {ei : ℕ} (hside : EqualSide key c ei cTilde d D) :
    cTilde * (c ^ ei % (key.N * key.N : ℕ)) % (key.N * key.N : ℕ) = key.cipher d D := by
  rw [← hside.cipher_eq, mul_comm, (Int.mod_modEq (c ^ ei) _).mul_right cTilde]

/-- The row of an honest answer gives the ciphertext back. -/
theorem equalityTilde_eq (hV : V.N = key.N) {c cInv cTilde d D : ℤ} {ei : ℕ}
    (hinv : (c : ZMod (key.N * key.N)) * cInv = 1) (hside : EqualSide key c ei cTilde d D)
    (htilde : isInRange (key.N * key.N) cTilde = true) (hd : 0 ≤ d ∧ d < key.N) :
    equalityTilde V cInv ei d D = .ok cTilde := by
  have hvalue : cInv ^ ei % (key.N * key.N : ℕ) * key.cipher d D %
      (key.N * key.N : ℕ) = cTilde := by
    apply eq_of_isInRange (isInRange_emod key.NN_pos _) htilde
    rw [cast_emod, Int.cast_mul, cast_emod, Int.cast_pow, ← hside.cipher_eq, cast_emod,
      Int.cast_mul, Int.cast_pow, ← mul_assoc, ← mul_pow, mul_comm (cInv : ZMod (key.N * key.N)),
      hinv, one_pow, one_mul]
  rw [equalityTilde, Paillier.NN, hV, modPow_eq cInv (Int.natCast_nonneg ei), Int.toNat_natCast,
    ok_bind, hside.encrypt_eq hV hd, ok_bind]
  exact congrArg Except.ok hvalue

theorem equalityEncryption_eq (hV : V.N = key.N) {c e : ℤ} {cTilde : Fin t → ℤ}
    {a : EqualityAnswer t} {i : Fin t}
    (hside : EqualSide key c (challengeDigit e i) (cTilde i) (a.di i) (a.D i))
    (hd : 0 ≤ a.di i ∧ a.di i < key.N) :
    equalityEncryption V c e cTilde a i = .ok () := by
  rw [equalityEncryption, Paillier.NN, hV, modPow_eq c (Int.natCast_nonneg _), Int.toNat_natCast,
    ok_bind, modMul, modOp, if_pos rfl, ok_bind, hside.encrypt_eq hV hd, ok_bind,
    decide_eq_true hside.product_eq, require_true]

theorem ne_zero_of_gcd {v : ℤ} (h : Int.gcd v key.N = 1) : v ≠ 0 := by
  intro hzero
  rw [hzero, Int.gcd_zero_left, Int.natAbs_natCast] at h
  have := key.one_lt_N
  omega

variable {x R rho Com : ℤ}

/-- The honest answers are plaintexts. -/
theorem EqualityInputs.answer_range (h : EqualityInputs P key t q x R rho Com) {r : ℤ}
    (hr : 0 ≤ r ∧ r < qWithSlack q) (e : ℤ) (i : ℕ) :
    0 ≤ challengeDigit e i * x + r ∧ challengeDigit e i * x + r < key.N := by
  have hdigit : (challengeDigit e i : ℤ) < 2 ^ logAlpha := by
    exact_mod_cast digit_lt logAlpha e.toNat i
  have hxle : x ≤ qWithSlack q := by
    have hone : (1 : ℤ) ≤ 2 ^ (logAlpha + secPStat) := one_le_pow₀ (by norm_num)
    rw [qWithSlack]
    nlinarith [h.x_range.2]
  have hprod : (challengeDigit e i : ℤ) * x ≤ (2 ^ logAlpha - 1) * qWithSlack q :=
    mul_le_mul (by omega) hxle h.x_range.1 (by omega)
  have hslack := qWithSlack_mul_le t q
  have hnonneg := mul_nonneg (Int.natCast_nonneg (challengeDigit e i)) h.x_range.1
  have hpos := mul_nonneg (by positivity : (0 : ℤ) ≤ 2 ^ logAlpha) (qWithSlack_nonneg q)
  have hslackN := h.slackN
  rw [sub_mul, one_mul] at hprod
  omega

/-- An honest proof, and the answers with which the verifier accepts it. -/
theorem paillierPedersenEqual_honest (h : EqualityInputs P key nonInteractiveReps q x R rho Com)
    {ω : EqualityMasks nonInteractiveReps} (hω : ω.Drawn P key q) (O : EqualityOracle)
    (sessionId : List (Fin 256)) (aux : ℕ) : ∃ π,
      paillierPedersenEqualProve P O key.prv (key.cipher x R) q Com x R rho
        sessionId aux ω = .ok π ∧
      (∃ first, equalityProverMsg1 P key.prv q ω = .ok first ∧
        π.e = (O ⟨key.N, key.cipher x R, P.p, q, P.g, P.h, Com, first, sessionId, aux⟩).val ∧
          π.ComTilde = first.ComTilde ∧
        ∀ V : Paillier, V.N = key.N → equalityTildes V (key.cipher x R) π = .ok first.cTilde) ∧
      ∀ (V : Paillier) (flags : EqualityFlags), V.N = key.N → flags.paillierValidKey ≠ .unverified →
        ((∃ flag, paillierPedersenEqualVerify P O flags V (key.cipher x R) q Com
          sessionId aux π = .ok flag) ↔
          ∀ i : Fin nonInteractiveReps, 0 < challengeDigit π.e i * x + ω.ri i ∧
            challengeDigit π.e i * x + ω.ri i < qWithSlack q) := by
  obtain ⟨first, hfirst, htildes, hsub, hanswers⟩ := equality_honest h hω
  let eFin := O ⟨key.N, key.cipher x R, P.p, q, P.g, P.h, Com, first, sessionId, aux⟩
  obtain ⟨a, ha, hdi, hnu, hside, hopen⟩ := hanswers eFin.val eFin.isLt
  have hlt : ∀ i, 0 ≤ a.di i ∧ a.di i < key.N := fun i => by
    rw [hdi i]
    exact h.answer_range (hω.ri i) _ _
  have hcipher := PaillierPrimes.encrypts_cipher x h.gcd_R
  have htilde : ∀ V : Paillier, V.N = key.N →
      equalityTildes V (key.cipher x R) ⟨a, eFin.val, first.ComTilde⟩ = .ok first.cTilde := by
    intro V hV
    obtain ⟨cInv, hcInv, -, hinv⟩ :=
      modInv_of_gcd key.NN_pos ((gcd_square_iff (key.cipher x R)).mpr hcipher.gcd)
    rw [equalityTildes, Paillier.NN, hV, hcInv, ok_bind]
    exact fillArray_eq fun i => equalityTilde_eq hV hinv (hside i) (htildes i).1 (hlt i)
  refine ⟨⟨a, eFin.val, first.ComTilde⟩, ?_, ⟨first, hfirst, rfl, rfl, htilde⟩,
    fun V flags hV hkey => ?_⟩
  · rw [paillierPedersenEqualProve, hfirst, ok_bind]
    change equalityProverMsg2 P key.prv eFin.val x R rho ω >>= _ = _
    rw [ha, ok_bind]
    rfl
  · obtain ⟨noSmall, hnoSmall⟩ :=
      checkSmallFactors_ok (N := V.N) (fun r hr hdvd => key.alpha_lt_factor hr (hV ▸ hdvd))
      flags.paillierNoSmallFactors
    have hpos : 0 < V.N := by
      have := key.one_lt_N
      omega
    constructor
    · rintro ⟨flag, hflag⟩ i
      obtain ⟨_, -, hacc, hlow, -⟩ := paillierPedersenEqualVerify_ok hflag
      rw [← hdi i]
      exact ⟨hlow i, (hacc.di_range i).2⟩
    · intro hrange
      have hslackN := h.slackN
      have hd : ∀ i, 0 < a.di i ∧ a.di i < qWithSlack q := fun i => by
        rw [hdi i]
        exact hrange i
      have hloop : (List.finRange nonInteractiveReps).foldlM
          (equalityRange V q a) (key.cipher x R) =
          .ok ((List.finRange nonInteractiveReps).foldl (fun prod i =>
            prod * a.D i % V.N) (key.cipher x R)) :=
        equalityRange_loop.mpr ⟨fun i => ⟨by rw [hV]; exact (hside i).rHat_range, hd i⟩, rfl⟩
      have hgcd :=
        (gcd_foldl_mul_emod_iff (N := key.N) a.D
          (List.finRange nonInteractiveReps) (key.cipher x R)).mpr
        ⟨hcipher.gcd, fun i _ => (hside i).gcd_rHat⟩
      have hne := ne_zero_of_gcd hgcd
      rw [← hV] at hgcd hne
      have hchallenge : (eFin.val : ℤ) =
        (O ⟨V.N, key.cipher x R, P.p, q, P.g, P.h, Com, first, sessionId, aux⟩).val := by rw [hV]
      have htest :=
        (equalityTest_ok_iff (Int.natCast_nonneg eFin.val) (shiftedSum_nonneg fun i =>
          (hd i).1.le) hnu).mpr hopen
      have hCom : P.checkSafePrimeSubgroup Com = .ok () :=
        P.checkSafePrimeSubgroup_ok_iff.mpr (by rw [h.cast_Com, P.opening_pow_pTag])
      refine ⟨noSmall, ?_⟩
      rw [paillierPedersenEqualVerify, decide_eq_true hkey, require_true, ok_bind,
        decide_eq_true h.slackP, require_true, ok_bind, decide_eq_true hpos, require_true, ok_bind,
        decide_eq_true (hV ▸ hslackN), require_true, ok_bind, hCom, ok_bind,
        P.checkSafePrimeSubgroup_ok_iff.mpr hsub, ok_bind, hnoSmall, ok_bind,
        decide_eq_true (Int.natCast_nonneg _), require_true, ok_bind, decide_eq_true hnu,
        require_true, ok_bind, checkOpenRange_ok_iff.mpr
          ⟨hcipher.pos, by rw [Paillier.NN, hV]; exact hcipher.lt⟩, ok_bind, hloop, ok_bind,
        decide_eq_true hne, require_true, ok_bind, coprime, if_pos rfl, ok_bind,
        decide_eq_true hgcd, require_true, ok_bind, htilde V hV, ok_bind, decide_eq_true hchallenge,
        require_true, ok_bind, htest, ok_bind]

/-- The honest first message with the honest answers to a challenge. -/
theorem equalityInteractive_honest (h : EqualityInputs P key t q x R rho Com) {ω : EqualityMasks t}
    (hω : ω.Drawn P key q) :
    ∃ first, equalityProverMsg1 P key.prv q ω = .ok first ∧ ∀ e : ℕ, e < 2 ^ (logAlpha * t) →
      ∃ a, equalityProverMsg2 P key.prv e x R rho ω = .ok a ∧
        ∀ (V : Paillier) (flags : EqualityFlags) (comOpen : EqualityFirst t → Outcome Unit),
          V.N = key.N →
          flags.paillierValidKey ≠ .unverified → comOpen first = .ok () →
          ((∃ flag, equalityInteractiveVerify P comOpen flags V (key.cipher x R) q
            Com e first a = .ok flag) ↔
            ∀ i : Fin t, challengeDigit e i * x + ω.ri i < qWithSlack q) := by
  obtain ⟨first, hfirst, htildes, hsub, hanswers⟩ := equality_honest h hω
  refine ⟨first, hfirst, fun e he => ?_⟩
  obtain ⟨a, ha, hdi, hnu, hside, hopen⟩ := hanswers e he
  refine ⟨a, ha, fun V flags comOpen hV hkey hcom => ?_⟩
  have hcipher := PaillierPrimes.encrypts_cipher x h.gcd_R
  obtain ⟨noSmall, hnoSmall⟩ :=
    checkSmallFactors_ok (N := V.N) (fun r hr hdvd => key.alpha_lt_factor hr (hV ▸ hdvd))
    flags.paillierNoSmallFactors
  have hpos : 0 < V.N := by
    have := key.one_lt_N
    omega
  constructor
  · rintro ⟨flag, hflag⟩ i
    rw [← hdi i]
    exact ((equalityInteractiveVerify_ok hflag).di_range i).2
  · intro hrange
    have hslackN := h.slackN
    have hlt : ∀ i, 0 ≤ a.di i ∧ a.di i < key.N := fun i => by
      rw [hdi i]
      exact h.answer_range (hω.ri i) _ _
    have hd : ∀ i, 0 ≤ a.di i ∧ a.di i < qWithSlack q := fun i =>
      ⟨(hlt i).1, by rw [hdi i]; exact hrange i⟩
    have hloop : (List.finRange t).foldlM
        (equalityInteractiveRange V q first.cTilde a) (key.cipher x R) =
        .ok ((List.finRange t).foldl (fun prod i =>
          prod * (a.D i * first.cTilde i % V.N) % V.N) (key.cipher x R)) :=
      equalityInteractiveRange_loop.mpr ⟨fun i =>
        ⟨hd i, by rw [hV]; exact (hside i).rHat_range⟩, rfl⟩
    have hgcd :=
      (gcd_foldl_mul_emod_iff (N := key.N) (fun i =>
        a.D i * first.cTilde i % key.N) (List.finRange t)
      (key.cipher x R)).mpr ⟨hcipher.gcd, fun i _ =>
        PaillierPrimes.gcd_mul_emod (hside i).gcd_rHat (hside i).gcd_cTilde⟩
    have hne := ne_zero_of_gcd hgcd
    rw [← hV] at hgcd hne
    have henc : forEach (equalityEncryption V (key.cipher x R) e first.cTilde a)
        (List.finRange t) = .ok () :=
      forEach_ok_iff.mpr fun i _ => equalityEncryption_eq hV (hside i) (hlt i)
    have htest :=
      (equalityTest_ok_iff (Int.natCast_nonneg e) (shiftedSum_nonneg fun i =>
        (hd i).1) hnu).mpr hopen
    have hCom : P.checkSafePrimeSubgroup Com = .ok () :=
      P.checkSafePrimeSubgroup_ok_iff.mpr (by rw [h.cast_Com, P.opening_pow_pTag])
    refine ⟨noSmall, ?_⟩
    rw [equalityInteractiveVerify, decide_eq_true hkey, require_true, ok_bind, hnoSmall, ok_bind,
      decide_eq_true (Int.natCast_nonneg _), require_true, ok_bind, decide_eq_true hnu,
      require_true, ok_bind, decide_eq_true hpos, require_true, ok_bind, decide_eq_true h.slackP,
      require_true, ok_bind, decide_eq_true (hV ▸ hslackN), require_true, ok_bind,
      hcom, ok_bind, hCom, ok_bind, P.checkSafePrimeSubgroup_ok_iff.mpr hsub, ok_bind, hloop,
      ok_bind, decide_eq_true hne, require_true, ok_bind, coprime, if_pos rfl, ok_bind,
      decide_eq_true hgcd, require_true, ok_bind, henc, ok_bind, htest, ok_bind]

/-- An honest proof is accepted exactly when its masked answers lie in the range of the verifier. -/
theorem paillierPedersenEqual_complete :
    (EqualityInputs P key nonInteractiveReps q x R rho Com → ∀ ω : EqualityMasks nonInteractiveReps,
      ω.Drawn P key q →
      ∀ (O : EqualityOracle) (sessionId : List (Fin 256)) (aux : ℕ), ∃ π,
        paillierPedersenEqualProve P O key.prv (key.cipher x R) q Com x R rho
          sessionId aux ω = .ok π ∧
        ∀ (V : Paillier) (flags : EqualityFlags), V.N = key.N →
          flags.paillierValidKey ≠ .unverified →
          ((∃ flag, paillierPedersenEqualVerify P O flags V (key.cipher x R) q Com
            sessionId aux π = .ok flag) ↔
            ∀ i : Fin nonInteractiveReps, 0 < challengeDigit π.e i * x + ω.ri i ∧
              challengeDigit π.e i * x + ω.ri i < qWithSlack q)) ∧
    (EqualityInputs P key t q x R rho Com → ∀ ω : EqualityMasks t, ω.Drawn P key q →
      ∃ first, equalityProverMsg1 P key.prv q ω = .ok first ∧ ∀ e : ℕ, e < 2 ^ (logAlpha * t) →
        ∃ a, equalityProverMsg2 P key.prv e x R rho ω = .ok a ∧
          ∀ (V : Paillier) (flags : EqualityFlags) (comOpen : EqualityFirst t → Outcome Unit),
            V.N = key.N →
            flags.paillierValidKey ≠ .unverified → comOpen first = .ok () →
            ((∃ flag, equalityInteractiveVerify P comOpen flags V (key.cipher x R) q
              Com e first a = .ok flag) ↔
              ∀ i : Fin t, challengeDigit e i * x + ω.ri i < qWithSlack q)) := by
  constructor
  · intro h ω hω O sessionId aux
    obtain ⟨π, hπ, -, hverify⟩ := paillierPedersenEqual_honest h hω O sessionId aux
    exact ⟨π, hπ, hverify⟩
  · intro h ω hω
    exact equalityInteractive_honest h hω

/-- The masks of a sample prover. -/
theorem sampleMasks_drawn : EqualityMasks.Drawn samplePedersenParams samplePaillierKey 1009
    (⟨fun _ => 1, fun _ => 1, 0⟩ : EqualityMasks nonInteractiveReps) where
  ri i := by
    rw [qWithSlack, logAlpha, secPStat]
    norm_num
  RTilde i := ⟨by norm_num, Int.ofNat_lt.mpr samplePaillierKey.one_lt_N⟩
  gcd_RTilde i := Int.gcd_one_left _
  mu := (isInRange_iff 0).mpr ⟨le_rfl, by exact_mod_cast samplePedersenParams.pTag_pos⟩

theorem sampleMasks_answer (e : ℤ) (i : ℕ) :
    0 < (challengeDigit e i : ℤ) * 5 + 1 ∧ (challengeDigit e i : ℤ) * 5 + 1 < qWithSlack 1009 := by
  have hdigit := digit_lt logAlpha e.toNat i
  rw [qWithSlack, logAlpha, secPStat, challengeDigit]
  norm_num [logAlpha] at hdigit ⊢
  omega

theorem sampleEqualityInputs :
    ∃ Com, EqualityInputs samplePedersenParams samplePaillierKey
      nonInteractiveReps 1009 5 1 7 Com := by
  obtain ⟨Com, hCom, -, -⟩ :=
    samplePedersenParams.commit_eq false samplePedersenParams.g samplePedersenParams.h
    (by norm_num : (0 : ℤ) ≤ 5) (by norm_num : (0 : ℤ) ≤ 7)
  have hN : 2 ^ 240 ≤ samplePaillierKey.N :=
    samplePaillierKey.two_pow_le_N (by rw [paillierBits_eq]; norm_num)
  have hslackN : equalSlackN nonInteractiveReps 1009 < 2 ^ 240 := by
    norm_num [equalSlackN, secPStat, logAlpha, nonInteractiveReps, secPCom]
  refine ⟨Com, by norm_num, ?_, lt_of_lt_of_le hslackN (by exact_mod_cast hN), sampleRange_witness,
    Int.gcd_one_left _, sampleRange_randomness, hCom⟩
  rw [samplePedersenParams_p]
  norm_num [equalSlackP, secPStat, logAlpha, nonInteractiveReps, secPCom]

theorem paillierPedersenEqual_complete_sample : ∃ Com π flag,
    paillierPedersenEqualProve samplePedersenParams (fun _ =>
      ⟨0, Nat.two_pow_pos _⟩) samplePaillierKey.prv
      (samplePaillierKey.cipher 5 1) 1009 Com 5 1 7 [] 0 ⟨fun _ => 1, fun _ => 1, 0⟩ = .ok π ∧
    paillierPedersenEqualVerify samplePedersenParams (fun _ => ⟨0, Nat.two_pow_pos _⟩)
      ⟨.verified, .unverified⟩
      (.pub samplePaillierKey.N) (samplePaillierKey.cipher 5 1) 1009 Com [] 0 π = .ok flag := by
  obtain ⟨Com, h⟩ := sampleEqualityInputs
  obtain ⟨hproof, -⟩ :
      _ ∧ (EqualityInputs samplePedersenParams samplePaillierKey 1 1009 5 1 7 Com → _) :=
    paillierPedersenEqual_complete
  obtain ⟨π, hπ, hverify⟩ := hproof h _ sampleMasks_drawn (fun _ => ⟨0, Nat.two_pow_pos _⟩) [] 0
  obtain ⟨flag, hflag⟩ :=
    (hverify (.pub samplePaillierKey.N) ⟨.verified, .unverified⟩ rfl (by decide)).mpr fun i =>
      sampleMasks_answer π.e i
  exact ⟨Com, π, flag, hπ, hflag⟩

theorem paillierPedersenEqual_extract (hq : 0 < q) (hcop : V.N.Coprime V.N.totient)
    {c m : ℤ} (hm : IsPlain V.N c m) {O O' : EqualityOracle} {flags flags' : EqualityFlags}
    {sessionId sessionId' : List (Fin 256)} {aux aux' : ℕ}
    {π π' : PaillierPedersenEqual} {flag flag' : ZkFlag}
    (h : paillierPedersenEqualVerify P O flags V c q Com sessionId aux π = .ok flag)
    (h' : paillierPedersenEqualVerify P O' flags' V c q Com sessionId' aux' π' = .ok flag')
    (htildes : equalityTildes V c π = equalityTildes V c π')
    (hComTilde : π.ComTilde = π'.ComTilde) (hne : π.e ≠ π'.e) :
    ∃ j, (equalityExtract P π.e π'.e π.toEqualityAnswer π'.toEqualityAnswer j).Holds P V.N
      q Com m := by
  obtain ⟨cTilde, hcTilde, hacc, -, hchallenge⟩ := paillierPedersenEqualVerify_ok h
  obtain ⟨cTilde', hcTilde', hacc', -, hchallenge'⟩ := paillierPedersenEqualVerify_ok h'
  have heq : cTilde' = cTilde := Except.ok.inj (hcTilde'.symm.trans (htildes.symm.trans hcTilde))
  rw [heq, ← hComTilde] at hacc'
  rw [hchallenge, hchallenge'] at hne ⊢
  rw [hchallenge] at hacc
  rw [hchallenge'] at hacc'
  exact hacc.extract hq hacc' (Fin.isLt _) (Fin.isLt _) (fun h => hne (congrArg Nat.cast h)) hcop hm

/-- Two accepted proofs with one first message and different challenges. Some repetition gives a
fraction that is both the plaintext and the committed integer. -/
theorem paillierPedersenEqual_sound (hq : 0 < q) (hcop : V.N.Coprime V.N.totient) {c m : ℤ}
    (hm : IsPlain V.N c m) :
    (∀ (O O' : EqualityOracle) (flags flags' : EqualityFlags)
      (sessionId sessionId' : List (Fin 256)) (aux aux' : ℕ)
      (π π' : PaillierPedersenEqual) (flag flag' : ZkFlag),
      paillierPedersenEqualVerify P O flags V c q Com sessionId aux π = .ok flag →
      paillierPedersenEqualVerify P O' flags' V c q Com sessionId' aux' π' = .ok flag' →
      equalityTildes V c π = equalityTildes V c π' → π.ComTilde = π'.ComTilde → π.e ≠ π'.e →
      ∃ j, (equalityExtract P π.e π'.e π.toEqualityAnswer π'.toEqualityAnswer j).Holds P
        V.N q Com m) ∧
    ∀ (comOpen comOpen' : EqualityFirst t → Outcome Unit) (flags flags' : EqualityFlags)
      (e e' : Fin (2 ^ (logAlpha * t)))
      (first : EqualityFirst t) (a a' : EqualityAnswer t) (flag flag' : ZkFlag),
      equalityInteractiveVerify P comOpen flags V c q Com e.val first a = .ok flag →
      equalityInteractiveVerify P comOpen' flags' V c q Com e'.val first a' = .ok flag' → e ≠ e' →
      ∃ j, (equalityExtract P e.val e'.val a a' j).Holds P V.N q Com m := by
  constructor
  · intro O O' flags flags' sessionId sessionId' aux aux' π π' flag flag' h h' htildes hComTilde hne
    exact paillierPedersenEqual_extract hq hcop hm h h' htildes hComTilde hne
  · intro comOpen comOpen' flags flags' e e' first a a' flag flag' h h' hne
    exact (equalityInteractiveVerify_ok h).extract hq
      (equalityInteractiveVerify_ok h') e.isLt e'.isLt
      (fun h => hne (Fin.ext h)) hcop hm

/-- Two proofs about one sample first message. -/
theorem paillierPedersenEqual_sound_sample :
    ∃ (Com : ℤ) (π π' : PaillierPedersenEqual) (j : Fin nonInteractiveReps), π.e ≠ π'.e ∧
    (equalityExtract samplePedersenParams π.e π'.e π.toEqualityAnswer π'.toEqualityAnswer j).Holds
      samplePedersenParams
      (Paillier.pub samplePaillierKey.N).N 1009 Com 5 := by
  obtain ⟨Com, h⟩ := sampleEqualityInputs
  let O (k : Fin 2) : EqualityOracle := fun _ =>
    ⟨k, k.isLt.trans (by norm_num [logAlpha, nonInteractiveReps, secPCom])⟩
  have hproof : ∀ k, ∃ π flag,
      paillierPedersenEqualVerify samplePedersenParams (O k) ⟨.verified, .unverified⟩
      (.pub samplePaillierKey.N) (samplePaillierKey.cipher 5 1) 1009 Com [] 0 π =
        .ok flag ∧ π.e = (k : ℕ) ∧
      ∃ first, equalityProverMsg1 samplePedersenParams samplePaillierKey.prv 1009
        (⟨fun _ => 1, fun _ => 1, 0⟩ : EqualityMasks nonInteractiveReps) = .ok first ∧
        π.ComTilde = first.ComTilde ∧
        equalityTildes (.pub samplePaillierKey.N) (samplePaillierKey.cipher 5 1) π =
          .ok first.cTilde := by
    intro k
    obtain ⟨π, -, ⟨first, hfirst, he, hComTilde, htilde⟩, hverify⟩ :=
      paillierPedersenEqual_honest h sampleMasks_drawn (O k) [] 0
    obtain ⟨flag, hflag⟩ :=
      (hverify (.pub samplePaillierKey.N) ⟨.verified, .unverified⟩ rfl (by decide)).mpr fun i =>
        sampleMasks_answer π.e i
    exact ⟨π, flag, hflag, he, first, hfirst, hComTilde, htilde _ rfl⟩
  obtain ⟨π, flag, hflag, he, first, hfirst, hComTilde, htilde⟩ := hproof 0
  obtain ⟨π', flag', hflag', he', first', hfirst', hComTilde', htilde'⟩ := hproof 1
  have heq : first' = first := Except.ok.inj (hfirst'.symm.trans hfirst)
  rw [heq] at hComTilde' htilde'
  have hne : π.e ≠ π'.e := by
    rw [he, he']
    norm_num
  have hplain : IsPlain (Paillier.pub samplePaillierKey.N).N (samplePaillierKey.cipher 5 1 : ℤ) 5 :=
    (PaillierPrimes.encrypts_cipher 5 (Int.gcd_one_left _)).2
  obtain ⟨j, hj⟩ :=
    (paillierPedersenEqual_sound (P := samplePedersenParams) (t := 1) (by norm_num : 0 < 1009)
    (V := .pub samplePaillierKey.N) samplePaillierKey.coprime_totient hplain).1 (O 0) (O 1) _ _ []
      [] 0 0 π π' flag flag' hflag
    hflag' (htilde.trans htilde'.symm) (hComTilde.trans hComTilde'.symm) hne
  exact ⟨Com, π, π', j, hne, hj⟩

end CbMpc
