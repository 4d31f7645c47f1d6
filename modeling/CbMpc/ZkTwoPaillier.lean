import CbMpc.ZkEcdsa2p
import CbMpc.Bytes

/-!
# Equality of plaintexts under two Paillier keys

`two_paillier_equal_interactive_t`: the prover masks the plaintext with an integer that is
encrypted under both keys, and the verifier bounds the answer before it recomputes the two
encryptions. The commitment to the first message is opened to what was committed to.
-/
namespace CbMpc

open NthResidues

/-- `SEC_P_STAT_SHORT`. -/
def secPStatShort : ℕ := 50

/-- `param_t::log_alpha`. -/
def logAlpha : ℕ := 13

/-- `param_t::padded_log_alpha`. -/
def paddedLogAlpha : ℕ := 16

/-- `paillier_interactive_param_t::t`. -/
def paillierReps : ℕ := (secPStatShort + logAlpha - 1) / logAlpha

/-- `param_t::get_log_alpha_bits`: the low bits of a big-endian pair of bytes. -/
def getLogAlphaBits (e : List (Fin 256)) (i : ℕ) : ℕ :=
  ((e.getD (2 * i) 0).val * 256 + (e.getD (2 * i + 1) 0).val) % 2 ^ logAlpha

/-- `q << (log_alpha + SEC_P_STAT)`. -/
def qWithSlack (q : ℕ) : ℤ := q * 2 ^ (logAlpha + secPStat)

/-- `test_len`. -/
def equalTestLen (q : ℕ) : ℕ := q.size + logAlpha + secPStat + 1

/-- What the prover samples for one repetition. -/
structure EqualMask where
  tau : ℤ
  R0 : ℤ
  R1 : ℤ

/-- The prover's state for one repetition. -/
structure EqualState extends EqualMask where
  c0Tilde : ℤ
  c1Tilde : ℤ

/-- One repetition of `prover_msg2_t`. -/
structure EqualRep where
  c0Tilde : ℤ
  c1Tilde : ℤ
  d : ℤ
  r0Hat : ℤ
  r1Hat : ℤ

def Paillier.hasPrivateKey : Paillier → Bool
  | .pub _ => false
  | .prv _ _ => true

/-- `two_paillier_equal_interactive_t::prover_msg1`. -/
def equalProverMsg1 (q : ℕ) (P0 P1 : Paillier) (masks : List EqualMask) :
    Outcome (List EqualState) := do
  cbAssert P0.hasPrivateKey
  cbAssert P1.hasPrivateKey
  cbAssert (decide (max 2048 (equalTestLen q) ≤ P0.N.size))
  cbAssert (decide (max 2048 (equalTestLen q) ≤ P1.N.size))
  masks.mapM fun μ => do
    let c0Tilde ← P0.encrypt false μ.tau μ.R0
    let c1Tilde ← P1.encrypt false μ.tau μ.R1
    .ok ⟨μ, c0Tilde, c1Tilde⟩

/-- `r.pow(ei) * R_tilde` inside `MODULO(N)`. -/
def equalAnswer (N : ℕ) (r R : ℤ) (ei : ℕ) : Outcome ℤ := do
  let re ← modPow N r ei
  modMul false N re R

/-- `two_paillier_equal_interactive_t::prover_msg2`. -/
def equalProverMsg2 (P0 P1 : Paillier) (x r0 r1 : ℤ) (e : List (Fin 256))
    (states : List EqualState) :
    Outcome (List EqualRep) := do
  require (decide (bitsToBytes (paillierReps * paddedLogAlpha) = e.length)) .format
  states.zipIdx.mapM fun σ => do
    let ei := getLogAlphaBits e σ.2
    let r0Hat ← equalAnswer P0.N r0 σ.1.R0 ei
    let r1Hat ← equalAnswer P1.N r1 σ.1.R1 ei
    .ok ⟨σ.1.c0Tilde, σ.1.c1Tilde, ei * x + σ.1.tau, r0Hat, r1Hat⟩

/-- `H_test *= r_hat * c_tilde` inside `MODULO(N)`. -/
def equalProduct (N : ℕ) (H rHat cTilde : ℤ) : Outcome ℤ := do
  let v ← modMul true N rHat cTilde
  modMul true N H v

/-- The checks on the ranges of one repetition. -/
def equalRange (q : ℕ) (P0 P1 : Paillier) (H : ℤ × ℤ) (rep : EqualRep) : Outcome (ℤ × ℤ) := do
  checkRightOpenRange 0 rep.d (qWithSlack q)
  require (decide (0 < rep.r0Hat)) .crypto
  require (decide (0 < rep.r1Hat)) .crypto
  let H0 ← equalProduct P0.N H.1 rep.r0Hat rep.c0Tilde
  let H1 ← equalProduct P1.N H.2 rep.r1Hat rep.c1Tilde
  .ok (H0, H1)

/-- `c.pow(ei) * c_tilde` inside `MODULO(NN)`. -/
def equalCipher (P : Paillier) (c : ℤ) (ei : ℕ) (cTilde : ℤ) : Outcome ℤ := do
  let ce ← modPow P.NN c ei
  modMul true P.NN ce cTilde

/-- The recomputation of the encryptions of one repetition. -/
def equalEncryptions (P0 P1 : Paillier) (c0 c1 : ℤ) (ei : ℕ) (rep : EqualRep) : Outcome Unit := do
  let t0 ← equalCipher P0 c0 ei rep.c0Tilde
  let t1 ← equalCipher P1 c1 ei rep.c1Tilde
  let e0 ← P0.encrypt true rep.d rep.r0Hat
  require (decide (t0 = e0)) .crypto
  let e1 ← P1.encrypt true rep.d rep.r1Hat
  require (decide (t1 = e1)) .crypto

/-- `two_paillier_equal_interactive_t::verify`, with the flags that `ecdsa2pc::refresh` sets. -/
def equalVerify (q : ℕ) (P0 : Paillier) (c0 : ℤ) (P1 : Paillier) (c1 : ℤ) (e : List (Fin 256))
    (reps : List EqualRep) :
    Outcome Unit := do
  require (decide (0 < P0.N)) .crypto
  require (decide (0 < P1.N)) .crypto
  require (decide (max paillierBits (equalTestLen q) ≤ P0.N.size)) .crypto
  require (decide (max paillierBits (equalTestLen q) ≤ P1.N.size)) .crypto
  P0.verifyCipher c0
  P1.verifyCipher c1
  require (decide (bitsToBytes (paillierReps * paddedLogAlpha) = e.length)) .format
  let H ← reps.foldlM (equalRange q P0 P1) (c0, c1)
  require (decide (H.1 ≠ 0)) .crypto
  require (decide (H.2 ≠ 0)) .crypto
  let coprime0 ← coprime true H.1 P0.N
  require coprime0 .crypto
  let coprime1 ← coprime true H.2 P1.N
  require coprime1 .crypto
  forEach (fun ρ => equalEncryptions P0 P1 c0 c1 (getLogAlphaBits e ρ.2) ρ.1) reps.zipIdx

/-- A repetition under one key that the verifier accepts for the challenge `ei`. -/
structure EqualSide (key : PaillierKey) (c : ℤ) (ei : ℕ) (cTilde d rHat : ℤ) : Prop where
  rHat_range : 0 < rHat ∧ rHat < key.N
  gcd_rHat : Int.gcd rHat key.N = 1
  gcd_cTilde : Int.gcd cTilde key.N = 1
  cipher_eq : c ^ ei * cTilde % (key.N * key.N : ℕ) = key.cipher d rHat

/-- The answer of the prover opens the product of the ciphertexts. -/
theorem equalSide_answer (key : PaillierKey) (x tau : ℤ) {r R : ℤ} (hr : Int.gcd r key.N = 1)
    (hR : 0 ≤ R ∧ R < key.N) (hgcd : Int.gcd R key.N = 1) (ei : ℕ) :
    ∃ rHat, equalAnswer key.N r R ei = .ok rHat ∧
      EqualSide key (key.cipher x r) ei (key.cipher tau R) (ei * x + tau) rHat := by
  have hN := key.one_lt_N
  have hRr : isInRange key.N R = true := (isInRange_iff _).mpr hR
  have hunit := PaillierPrimes.gcd_mul_emod (PaillierPrimes.gcd_pow_emod hr ei) hgcd
  have hrange := (isInRange_iff _).mp (isInRange_emod (m := key.N) (by omega) (r ^ ei % key.N * R))
  have hcast : ((r ^ ei % key.N * R % key.N : ℤ) : ZMod key.N) = (r ^ ei * R : ℤ) := by
    rw [cast_emod, Int.cast_mul, cast_emod, ← Int.cast_mul]
  refine ⟨r ^ ei % key.N * R % key.N, ?_,
    ⟨PaillierPrimes.pos_of_gcd hrange.1 hunit, hrange.2⟩, hunit,
    (PaillierPrimes.encrypts_cipher tau hgcd).gcd, ?_⟩
  · rw [equalAnswer, modPow_eq _ (Int.natCast_nonneg ei), Int.toNat_natCast, ok_bind, modMul,
      modOp_eq_emod _ _ (isInRange_emod (by omega) _) hRr]
  · refine eq_of_isInRange (isInRange_emod key.NN_pos _) (isInRange_emod key.NN_pos _) ?_
    have hplain : (1 + ((ei * x + tau : ℤ) : ZMod (key.N * key.N)) * key.N) =
        (1 + x * key.N) ^ ei * (1 + tau * key.N) := by
      rw [one_add_pow, one_add_mul_one_add]
      push_cast
      ring
    rw [PaillierPrimes.cast_cipher, PaillierPrimes.pow_modulus_congr hcast, hplain, cast_emod,
      Int.cast_mul, Int.cast_mul, Int.cast_pow, Int.cast_pow, PaillierPrimes.cast_cipher,
      PaillierPrimes.cast_cipher]
    generalize (1 + (x : ZMod (key.N * key.N)) * key.N) = v
    ring

/-- A repetition that the verifier accepts. -/
structure EqualAccepted (q : ℕ) (key0 key1 : PaillierKey) (c0 c1 : ℤ) (ei : ℕ)
    (rep : EqualRep) : Prop where
  d_range : 0 ≤ rep.d ∧ rep.d < qWithSlack q
  side0 : EqualSide key0 c0 ei rep.c0Tilde rep.d rep.r0Hat
  side1 : EqualSide key1 c1 ei rep.c1Tilde rep.d rep.r1Hat

variable {q : ℕ} {key0 key1 : PaillierKey} {P0 P1 : Paillier} {c0 c1 : ℤ}

theorem equalProduct_eq {key : PaillierKey} {H rHat cTilde : ℤ} (hH : Int.gcd H key.N = 1)
    (hr : Int.gcd rHat key.N = 1) (hc : Int.gcd cTilde key.N = 1) :
    ∃ H', equalProduct key.N H rHat cTilde = .ok H' ∧ Int.gcd H' key.N = 1 :=
  ⟨_, rfl, PaillierPrimes.gcd_mul_emod hH (PaillierPrimes.gcd_mul_emod hr hc)⟩

theorem equalRange_eq (hP0 : P0.N = key0.N) (hP1 : P1.N = key1.N) {ei : ℕ} {rep : EqualRep}
    (hrep : EqualAccepted q key0 key1 c0 c1 ei rep) {H : ℤ × ℤ}
    (hH : Int.gcd H.1 key0.N = 1 ∧ Int.gcd H.2 key1.N = 1) :
    ∃ H', equalRange q P0 P1 H rep = .ok H' ∧ Int.gcd H'.1 key0.N = 1 ∧
    Int.gcd H'.2 key1.N = 1 := by
  obtain ⟨H0, h0, hgcd0⟩ := equalProduct_eq hH.1 hrep.side0.gcd_rHat hrep.side0.gcd_cTilde
  obtain ⟨H1, h1, hgcd1⟩ := equalProduct_eq hH.2 hrep.side1.gcd_rHat hrep.side1.gcd_cTilde
  refine ⟨(H0, H1), ?_, hgcd0, hgcd1⟩
  simp only [equalRange, checkRightOpenRange_ok_iff.mpr hrep.d_range, ok_bind,
    hrep.side0.rHat_range.1, hrep.side1.rHat_range.1, decide_true, require_true, hP0, hP1, h0, h1]

theorem qWithSlack_lt {key : PaillierKey} (h : equalTestLen q ≤ key.N.size) :
    qWithSlack q < key.N := by
  have hq : q < 2 ^ q.size := Nat.lt_size_self q
  have hbits : key.N.size = paillierBits := key.bits
  have hnat : q * 2 ^ (logAlpha + secPStat) < key.N :=
    calc q * 2 ^ (logAlpha + secPStat) < 2 ^ q.size * 2 ^ (logAlpha + secPStat) :=
          Nat.mul_lt_mul_of_pos_right hq (by positivity)
      _ = 2 ^ (q.size + (logAlpha + secPStat)) := (pow_add 2 _ _).symm
      _ ≤ key.N := key.two_pow_le_N (by
        rw [equalTestLen] at h
        omega)
  rw [qWithSlack]
  exact_mod_cast hnat

theorem equalEncryptions_eq (hP0 : P0.N = key0.N) (hP1 : P1.N = key1.N)
    (h0 : equalTestLen q ≤ key0.N.size) (h1 : equalTestLen q ≤ key1.N.size) {ei : ℕ}
    {rep : EqualRep} (hrep : EqualAccepted q key0 key1 c0 c1 ei rep) :
    equalEncryptions P0 P1 c0 c1 ei rep = .ok () := by
  have hside : ∀ {key : PaillierKey} {P : Paillier} {c cTilde rHat : ℤ}, P.N = key.N →
      equalTestLen q ≤ key.N.size →
      EqualSide key c ei cTilde rep.d rHat →
      equalCipher P c ei cTilde = .ok (key.cipher rep.d rHat) ∧
        P.encrypt true rep.d rHat = .ok (key.cipher rep.d rHat) := by
    intro key P c cTilde rHat hP hlen hs
    have hlt := qWithSlack_lt hlen
    have hd := hrep.d_range
    have hr := hs.rHat_range
    have hNN := key.N_lt_NN
    refine ⟨?_, PaillierKey.encrypt_eq hP true hd.1 (by omega) hr.1.le (by omega) hs.gcd_rHat⟩
    rw [equalCipher, modPow_eq _ (Int.natCast_nonneg ei), ok_bind, Int.toNat_natCast, Paillier.NN,
      hP, ← hs.cipher_eq]
    change Except.ok (c ^ ei % ((key.N * key.N : ℕ) : ℤ) * cTilde % ((key.N * key.N : ℕ) : ℤ)) = _
    rw [(Int.mod_modEq (c ^ ei) _).mul_right cTilde]
  obtain ⟨ht0, he0⟩ := hside hP0 h0 hrep.side0
  obtain ⟨ht1, he1⟩ := hside hP1 h1 hrep.side1
  simp [equalEncryptions, ht0, ht1, he0, he1]

/-- The verifier accepts when every repetition is as it should be. -/
theorem equalVerify_ok (hP0 : P0.N = key0.N) (hP1 : P1.N = key1.N)
    (h0 : equalTestLen q ≤ key0.N.size) (h1 : equalTestLen q ≤ key1.N.size) {m0 m1 : ℤ}
    (hc0 : key0.Encrypts c0 m0) (hc1 : key1.Encrypts c1 m1) {e : List (Fin 256)}
    (he : bitsToBytes (paillierReps * paddedLogAlpha) = e.length) {reps : List EqualRep}
    (hreps : ∀ ρ ∈ reps.zipIdx, EqualAccepted q key0 key1 c0 c1 (getLogAlphaBits e ρ.2) ρ.1) :
    equalVerify q P0 c0 P1 c1 e reps = .ok () := by
  have hbits0 : key0.N.size = paillierBits := key0.bits
  have hbits1 : key1.N.size = paillierBits := key1.bits
  have hN0 := key0.one_lt_N
  have hN1 := key1.one_lt_N
  have hloop : ∃ H, reps.foldlM (equalRange q P0 P1) (c0, c1) = .ok H ∧ Int.gcd H.1 key0.N = 1 ∧
      Int.gcd H.2 key1.N = 1 := by
    refine foldlM_ok_of_invariant (I := fun H : ℤ × ℤ => Int.gcd H.1 key0.N = 1 ∧
      Int.gcd H.2 key1.N = 1) ?_ ⟨hc0.gcd, hc1.gcd⟩
    intro H rep hrep hH
    obtain ⟨i, hi⟩ := List.getElem?_of_mem hrep
    exact equalRange_eq hP0 hP1 (hreps (rep, i) (List.mem_zipIdx_iff_getElem?.mpr hi)) hH
  obtain ⟨H, hH, hg0, hg1⟩ := hloop
  have hne : ∀ {key : PaillierKey} {v : ℤ}, Int.gcd v key.N = 1 → v ≠ 0 := by
    intro key v hv h
    rw [h, Int.gcd_zero_left, Int.natAbs_natCast] at hv
    have := key.one_lt_N
    omega
  have henc : forEach (fun ρ : EqualRep × ℕ =>
      equalEncryptions P0 P1 c0 c1 (getLogAlphaBits e ρ.2) ρ.1) reps.zipIdx = .ok () :=
    forEach_ok_iff.mpr fun ρ hρ => equalEncryptions_eq hP0 hP1 h0 h1 (hreps ρ hρ)
  have hpos0 : 0 < key0.N := by omega
  have hpos1 : 0 < key1.N := by omega
  simp only [equalVerify, hP0, hP1, hpos0, hpos1, hbits0, hbits1, max_le_iff, le_refl, true_and,
    hbits0 ▸ h0, decide_true, require_true, ok_bind, hc0.verifyCipher hP0, hc1.verifyCipher hP1, he,
    hH, ne_eq, hne hg0, hne hg1, not_false_eq_true, coprime, if_true, hg0, hg1, henc]

/-- What the prover samples for one repetition, when the ranges that the verifier checks are met. -/
structure EqualMask.Good (q : ℕ) (key0 key1 : PaillierKey) (x : ℤ) (ei : ℕ)
    (μ : EqualMask) : Prop where
  tau_range : 0 ≤ μ.tau ∧ μ.tau < qWithSlack q
  R0_range : 0 ≤ μ.R0 ∧ μ.R0 < key0.N
  R1_range : 0 ≤ μ.R1 ∧ μ.R1 < key1.N
  gcd_R0 : Int.gcd μ.R0 key0.N = 1
  gcd_R1 : Int.gcd μ.R1 key1.N = 1
  d_lt : ei * x + μ.tau < qWithSlack q

/-- The prover's messages are accepted. -/
theorem equalProver_accepted (h0 : equalTestLen q ≤ key0.N.size)
    (h1 : equalTestLen q ≤ key1.N.size) {x r0 r1 : ℤ} (hx : 0 ≤ x) (hr0 : Int.gcd r0 key0.N = 1)
    (hr1 : Int.gcd r1 key1.N = 1) {e : List (Fin 256)}
    (he : bitsToBytes (paillierReps * paddedLogAlpha) = e.length) {masks : List EqualMask}
    (hgood : ∀ μ ∈ masks.zipIdx, μ.1.Good q key0 key1 x (getLogAlphaBits e μ.2)) :
    ∃ states reps, equalProverMsg1 q key0.prv key1.prv masks = .ok states ∧
      equalProverMsg2 key0.prv key1.prv x r0 r1 e states = .ok reps ∧
      ∀ ρ ∈ reps.zipIdx, EqualAccepted q key0 key1 (key0.cipher x r0) (key1.cipher x r1)
        (getLogAlphaBits e ρ.2) ρ.1 := by
  have hbits0 : key0.N.size = paillierBits := key0.bits
  have hbits1 : key1.N.size = paillierBits := key1.bits
  have hmsg1 : equalProverMsg1 q key0.prv key1.prv masks =
      .ok (masks.map fun μ => ⟨μ, key0.cipher μ.tau μ.R0, key1.cipher μ.tau μ.R1⟩) := by
    have henc : ∀ μ ∈ masks, (do
        let c0Tilde ← key0.prv.encrypt false μ.tau μ.R0
        let c1Tilde ← key1.prv.encrypt false μ.tau μ.R1
        .ok ⟨μ, c0Tilde, c1Tilde⟩ : Outcome EqualState) =
            .ok ⟨μ, key0.cipher μ.tau μ.R0, key1.cipher μ.tau μ.R1⟩ := by
      intro μ hμ
      obtain ⟨i, hi⟩ := List.getElem?_of_mem hμ
      have hg := hgood (μ, i) (List.mem_zipIdx_iff_getElem?.mpr hi)
      obtain ⟨ht0, ht1⟩ := hg.tau_range
      have hlt0 := qWithSlack_lt h0
      have hlt1 := qWithSlack_lt h1
      have hNN0 := key0.N_lt_NN
      have hNN1 := key1.N_lt_NN
      have hR0 := hg.R0_range
      have hR1 := hg.R1_range
      rw [PaillierKey.encrypt_eq (P := key0.prv) rfl false ht0 (by omega)
        hR0.1 (by omega) hg.gcd_R0,
        PaillierKey.encrypt_eq (P := key1.prv) rfl false ht0 (by omega) hR1.1 (by omega) hg.gcd_R1]
      rfl
    have hlen0 : max 2048 (equalTestLen q) ≤ key0.N.size := by
      rw [hbits0, paillierBits_eq] at *
      omega
    have hlen1 : max 2048 (equalTestLen q) ≤ key1.N.size := by
      rw [hbits1, paillierBits_eq] at *
      omega
    simp only [equalProverMsg1, Paillier.hasPrivateKey, cbAssert_true, ok_bind, Paillier.N, hlen0,
      hlen1, decide_true]
    exact mapM_ok henc
  have hstep : ∀ σ ∈ (masks.map fun μ =>
      (⟨μ, key0.cipher μ.tau μ.R0, key1.cipher μ.tau μ.R1⟩ : EqualState)).zipIdx,
      ∃ rep : EqualRep, (do
        let r0Hat ← equalAnswer key0.N r0 σ.1.R0 (getLogAlphaBits e σ.2)
        let r1Hat ← equalAnswer key1.N r1 σ.1.R1 (getLogAlphaBits e σ.2)
        .ok ⟨σ.1.c0Tilde, σ.1.c1Tilde, getLogAlphaBits e σ.2 * x + σ.1.tau, r0Hat,
          r1Hat⟩ : Outcome EqualRep) = .ok rep ∧
      EqualAccepted q key0 key1 (key0.cipher x r0) (key1.cipher x r1)
        (getLogAlphaBits e σ.2) rep := by
    rintro ⟨σ, i⟩ hσ
    rw [List.zipIdx_map] at hσ
    obtain ⟨⟨μ, j⟩, hμ, heq⟩ := List.mem_map.mp hσ
    cases heq
    have hg := hgood _ hμ
    obtain ⟨r0Hat, hr0Hat, hside0⟩ := equalSide_answer key0 x μ.tau hr0 hg.R0_range hg.gcd_R0
      (getLogAlphaBits e j)
    obtain ⟨r1Hat, hr1Hat, hside1⟩ := equalSide_answer key1 x μ.tau hr1 hg.R1_range hg.gcd_R1
      (getLogAlphaBits e j)
    refine ⟨⟨key0.cipher μ.tau μ.R0, key1.cipher μ.tau μ.R1, getLogAlphaBits e j * x + μ.tau,
      r0Hat, r1Hat⟩, ?_, ⟨?_, hg.d_lt⟩, hside0, hside1⟩
    · simp only [hr0Hat, hr1Hat, ok_bind, id_eq]
    · have := hg.tau_range.1
      positivity
  obtain ⟨reps, hreps, haccepted⟩ := zipIdx_mapM_ok (R := fun rep i =>
    EqualAccepted q key0 key1 (key0.cipher x r0) (key1.cipher x r1) (getLogAlphaBits e i) rep) hstep
  refine ⟨_, reps, hmsg1, ?_, haccepted⟩
  simp only [equalProverMsg2, he, decide_true, require_true, ok_bind, Paillier.N]
  exact hreps

end CbMpc
