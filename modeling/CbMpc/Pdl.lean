import CbMpc.PaillierPedersenEqual

/-!
# The logarithm of a point is the plaintext of a ciphertext

`paillier_range_exp_slack_t` bounds the plaintext through a Pedersen commitment to it, and `pdl_t`
compares the bounded plaintext with the logarithm. What two accepted proofs reveal is either this
plaintext or a relation between the bases of the commitment.
-/
namespace CbMpc

open CommonFraction NthResidues

/-- `paillier_range_exp_slack_t`. -/
structure PaillierRangeExpSlack where
  zkPaillierPedersenEqual : PaillierPedersenEqual
  zkRangePedersen : RangePedersen
  Com : ℤ

/-- What `pdl_t` hashes. -/
structure PdlHash (E : Type) where
  cKey : ℤ
  N : ℕ
  Q1 : E
  cR : ℤ
  R : E
  sid : List (Fin 256)
  aux : ℕ

/-- The hashes of `pdl_t` and of the proofs in it. -/
structure PdlOracles (q : ℕ) (E : Type) where
  pdl : PdlHash E → ZMod q
  equal : EqualityOracle
  range : RangeOracle

/-- `pdl_t`. The proof of the range is empty when it is skipped. -/
structure Pdl (E : Type) where
  cR : ℤ
  R : WirePoint E
  z : ℤ
  rZ : ℤ
  zkPaillierRangeExpSlack : Option PaillierRangeExpSlack

/-- The flags of `pdl_t`. -/
structure PdlFlags where
  paillierValidKey : ZkFlag
  paillierNoSmallFactors : ZkFlag
  paillierValidCiphertext : ZkFlag
  paillierRangeExpSlackProof : ZkFlag

/-- What `paillier_range_exp_slack_t::prove` draws. -/
structure SlackRandomness where
  rho : ℤ
  equal : EqualityMasks nonInteractiveReps
  range : RangeMasks secPCom

/-- What `pdl_t::prove` draws. -/
structure PdlRandomness (q : ℕ) where
  rRand : ℤ
  rModQ : ZMod q
  rHigh : ℤ
  slack : SlackRandomness

/-- `response_upper_bound`. -/
def pdlBound (q : ℕ) : ℤ := q * q * 2 ^ secPStat + q * q

/-- The size of the modulus that makes the response an integer. -/
def pdlSlack (q : ℕ) : ℤ := q * q * 2 ^ (secPStat + 1) + q * q * 2

/-- `paillier_range_exp_slack_t::prove`. -/
def paillierRangeExpSlackProve (P : PedersenParams) (OE : EqualityOracle) (OR : RangeOracle)
    (paillier : Paillier) (q : ℕ) (c x r : ℤ) (sid : List (Fin 256)) (aux : ℕ)
    (ω : SlackRandomness) : Outcome PaillierRangeExpSlack := do
  let Com ← P.commit false P.g P.h x ω.rho
  let equal ← paillierPedersenEqualProve P OE paillier c q Com x r ω.rho sid aux ω.equal
  let range ← rangePedersenProve P OR q Com x ω.rho sid aux ω.range
  .ok ⟨equal, range, Com⟩

/-- `paillier_range_exp_slack_t::verify`. -/
def paillierRangeExpSlackVerify (P : PedersenParams) (OE : EqualityOracle)
    (OR : RangeOracle) (flags : EqualityFlags) (paillier : Paillier) (q : ℕ) (c : ℤ)
    (sid : List (Fin 256)) (aux : ℕ) (rho : Fin secPCom → Fin (2 ^ secPStat))
    (π : PaillierRangeExpSlack) : Outcome Unit := do
  let _ ← paillierPedersenEqualVerify P OE flags paillier c q π.Com sid aux
    π.zkPaillierPedersenEqual
  rangePedersenVerify P OR q π.Com sid aux rho π.zkRangePedersen

section Curve

variable {q : ℕ} {E : Type} [AddCommGroup E] [Module (ZMod q) E] [DecidableEq E]

/-- `pdl_t::prove`. -/
def pdlProve (P : PedersenParams) (O : PdlOracles q E) (slackProof : ZkFlag) (curve : Curve q E)
    (cKey : ℤ) (paillier : Paillier) (Q1 : E) (x1 rKey : ℤ) (sid : List (Fin 256)) (aux : ℕ)
    (ω : PdlRandomness q) : Outcome (Pdl E) := do
  cbAssert paillier.hasPrivateKey
  cbAssert (decide (2048 ≤ paillier.N.size ∧ pdlSlack q ≤ paillier.N))
  let r := ω.rHigh * q + residue ω.rModQ
  let cR ← paillier.encrypt false r ω.rRand
  let R ← curve.mulToGenerator (residue ω.rModQ)
  let e := residue (O.pdl ⟨cKey, paillier.N, Q1, cR, R, sid, aux⟩)
  let re ← modPow paillier.N rKey e
  let rZ ← modMul false paillier.N ω.rRand re
  if slackProof ≠ .skip then do
    let slack ← paillierRangeExpSlackProve P O.equal O.range paillier q cKey x1 rKey sid aux ω.slack
    .ok ⟨cR, .on R, r + e * x1, rZ, some slack⟩
  else .ok ⟨cR, .on R, r + e * x1, rZ, none⟩

/-- The end of `pdl_t::verify`, after the flags are set. -/
def pdlSlackCheck (P : PedersenParams) (O : PdlOracles q E) (flags : PdlFlags)
    (cKey : ℤ) (paillier : Paillier) (sid : List (Fin 256)) (aux : ℕ)
    (rho : Fin secPCom → Fin (2 ^ secPStat)) (π : Pdl E) : Outcome Unit :=
  if flags.paillierRangeExpSlackProof ≠ .skip then
    match π.zkPaillierRangeExpSlack with
    | some slack =>
      paillierRangeExpSlackVerify P O.equal O.range ⟨flags.paillierValidKey,
        flags.paillierNoSmallFactors⟩ paillier q
        cKey sid aux rho slack
    | none => fail .crypto
  else .ok ()

/-- `pdl_t::verify`, which gives the flags back that it sets. -/
def pdlVerify (P : PedersenParams) (O : PdlOracles q E) (flags : PdlFlags) (curve : Curve q E)
    (cKey : ℤ) (paillier : Paillier) (Q1 : E) (sid : List (Fin 256)) (aux : ℕ)
    (rho : Fin secPCom → Fin (2 ^ secPStat)) (π : Pdl E) : Outcome PdlFlags := do
  let Q1 ← curveCheck false (.on Q1)
  let R ← curveCheck true π.R
  let e := residue (O.pdl ⟨cKey, paillier.N, Q1, π.cR, R, sid, aux⟩)
  require (decide (flags.paillierValidKey ≠ .unverified)) .crypto
  let noSmallFactors ← checkSmallFactors paillier.N flags.paillierNoSmallFactors
  let validCiphertext ← checkCiphertext paillier.N cKey flags.paillierValidCiphertext
  require (decide (2048 ≤ paillier.N.size ∧ pdlSlack q < paillier.N)) .crypto
  checkOpenRange 0 π.cR paillier.NN
  let ce ← modMul true paillier.N π.cR e
  let gcdTest ← modMul true paillier.N ce π.rZ
  let isCoprime ← coprime true gcdTest paillier.N
  require isCoprime .crypto
  let zG ← curve.mulToGeneratorVartime π.z
  let eQ1 ← curve.mul e Q1
  require (decide (zG = R + eQ1)) .crypto
  checkRightOpenRange 0 π.z (pdlBound q)
  let scaled ← paillier.mulScalar cKey e
  let cZ ← modMul true paillier.NN π.cR scaled
  let enc ← paillier.encrypt true π.z π.rZ
  require (decide (enc = cZ)) .crypto
  let flags : PdlFlags := ⟨flags.paillierValidKey, noSmallFactors, validCiphertext,
    flags.paillierRangeExpSlackProof⟩
  pdlSlackCheck P O flags cKey paillier sid aux rho π
  .ok flags

/-- What `pdl_t::verify` establishes of the plaintext, where `R` is the point of the proof and `e`
the challenge. -/
structure PdlAccepted (curve : Curve q E) (N : ℕ) (cKey : ℤ) (Q1 R : E) (e : ZMod q)
    (π : Pdl E) : Prop where
  slack : pdlSlack q < N
  gcd_rZ : Int.gcd π.rZ N = 1
  point : (π.z : ZMod q) • curve.generator = R + e • Q1
  z_range : 0 ≤ π.z ∧ π.z < pdlBound q
  row : (cKey : ZMod (N * N)) ^ e.val * π.cR = (π.rZ : ZMod (N * N)) ^ N * (1 + π.z * N)

variable {P : PedersenParams} {O : PdlOracles q E} {flags flags' : PdlFlags} {curve : Curve q E}
  {N : ℕ} {cKey : ℤ} {Q1 : E} {sid : List (Fin 256)} {aux : ℕ}
  {rho : Fin secPCom → Fin (2 ^ secPStat)} {π π' : Pdl E}

/-- What the public key encrypts to, for randomness of any size. -/
theorem Paillier.encrypt_pub_ok {vartime : Bool} {m r c : ℤ}
    (h : (Paillier.pub N).encrypt vartime m r = .ok c) :
    (c : ZMod (N * N)) = (r : ZMod (N * N)) ^ N * (1 + m * N) := by
  obtain ⟨hm, h⟩ := cbAssert_bind_ok_iff.mp h
  obtain ⟨rn, hrn, h⟩ := bind_ok_iff.mp h
  obtain ⟨v, hv, h⟩ := bind_ok_iff.mp h
  obtain ⟨w, hw, hv⟩ := bind_ok_iff.mp hv
  obtain ⟨b, -, hrn⟩ := bind_ok_iff.mp hrn
  obtain ⟨-, hrn⟩ := cbAssert_bind_ok_iff.mp hrn
  rw [modPow_eq _ (Int.natCast_nonneg N)] at hrn
  have hc : c = rn * v % (Paillier.pub N).NN := eq_emod_of_modOp_ok h
  have hval : v = (w + 1) % (Paillier.pub N).NN := eq_emod_of_modOp_ok hv
  have hwal : w = m * (Paillier.pub N).N % (Paillier.pub N).NN := eq_emod_of_modOp_ok hw
  rw [hc, hval, hwal, ← Except.ok.inj hrn, Paillier.NN, Paillier.N, cast_emod, Int.cast_mul,
    cast_emod, cast_emod, Int.cast_add, cast_emod, Int.cast_pow, Int.cast_mul, Int.cast_one,
    Int.cast_natCast, Int.toNat_natCast, add_comm]

theorem curveCheck_true_on (R : E) : curveCheck true (.on R) = .ok R := by
  simp [curveCheck]

theorem curveCheck_true_ok {R : WirePoint E} {R' : E}
    (h : curveCheck true R = .ok R') : R = .on R' := by
  cases R with
  | on R =>
    simp only [curveCheck, Bool.not_true, Bool.false_and, Bool.false_eq_true, if_false,
      Except.ok.injEq] at h
    rw [h]
  | foreign k => cases h

/-- The steps of the verifier. -/
theorem pdlVerify_steps [Fact q.Prime] {V : Paillier}
    (h : pdlVerify P O flags curve cKey V Q1 sid aux rho π = .ok flags') :
    Q1 ≠ 0 ∧ (flags.paillierValidKey ≠ .unverified ∧
      flags'.paillierValidKey = flags.paillierValidKey ∧
      flags'.paillierRangeExpSlackProof = flags.paillierRangeExpSlackProof ∧
      checkSmallFactors V.N flags.paillierNoSmallFactors = .ok flags'.paillierNoSmallFactors) ∧
      ∃ R, π.R = .on R ∧ ∃ e, e = O.pdl ⟨cKey, V.N, Q1, π.cR, R, sid, aux⟩ ∧ pdlSlack q < V.N ∧
      Int.gcd (π.cR * residue e * π.rZ) V.N = 1 ∧ (π.z : ZMod q) • curve.generator = R + e • Q1 ∧
      (0 ≤ π.z ∧ π.z < pdlBound q) ∧ (∃ cZ, V.encrypt true π.z π.rZ = .ok cZ ∧
        (cZ : ZMod (V.N * V.N)) = (cKey : ZMod (V.N * V.N)) ^ e.val * π.cR) ∧
      pdlSlackCheck P O flags' cKey V sid aux rho π = .ok () := by
  obtain ⟨hQ1, h⟩ := curveCheck_bind_ok_iff.mp h
  obtain ⟨R, hR, h⟩ := bind_ok_iff.mp h
  refine ⟨hQ1, ?_⟩
  obtain ⟨hkey, h⟩ := require_bind_ok_iff.mp h
  obtain ⟨noSmall, hnoSmall, h⟩ := bind_ok_iff.mp h
  obtain ⟨valid, -, h⟩ := bind_ok_iff.mp h
  obtain ⟨hN, h⟩ := require_bind_ok_iff.mp h
  obtain ⟨-, h⟩ := unit_bind_ok_iff.mp h
  obtain ⟨ce, hce, h⟩ := bind_ok_iff.mp h
  obtain ⟨gcdTest, hgcdTest, h⟩ := bind_ok_iff.mp h
  rw [coprime, if_pos rfl, ok_bind] at h
  obtain ⟨hgcd, h⟩ := require_bind_ok_iff.mp h
  obtain ⟨zG, hzG, h⟩ := bind_ok_iff.mp h
  obtain ⟨eQ1, heQ1, h⟩ := bind_ok_iff.mp h
  obtain ⟨hpoint, h⟩ := require_bind_ok_iff.mp h
  obtain ⟨hz, h⟩ := unit_bind_ok_iff.mp h
  obtain ⟨scaled, hscaled, h⟩ := bind_ok_iff.mp h
  obtain ⟨cZ, hcZ, h⟩ := bind_ok_iff.mp h
  obtain ⟨enc, henc, h⟩ := bind_ok_iff.mp h
  obtain ⟨hrow, h⟩ := require_bind_ok_iff.mp h
  obtain ⟨hslack, h⟩ := unit_bind_ok_iff.mp h
  rw [decide_eq_true_iff] at hkey hN hgcd hpoint hrow
  rw [← Except.ok.inj h]
  refine ⟨⟨hkey, rfl, rfl, hnoSmall⟩, R, curveCheck_true_ok hR,
    O.pdl ⟨cKey, V.N, Q1, π.cR, R, sid, aux⟩, rfl, hN.2, ?_, ?_,
    checkRightOpenRange_ok_iff.mp hz, ⟨enc, henc, ?_⟩, hslack⟩
  · have hce' : ce = π.cR * residue (O.pdl ⟨cKey, V.N, Q1, π.cR, R, sid, aux⟩) % V.N :=
      eq_emod_of_modOp_ok hce
    have hval : gcdTest = ce * π.rZ % V.N := eq_emod_of_modOp_ok hgcdTest
    rw [hval, hce', Int.gcd_emod] at hgcd
    obtain ⟨hleft, hright⟩ := IsCoprime.mul_left_iff.mp (Int.isCoprime_iff_gcd_eq_one.mpr hgcd)
    have hleft' := Int.isCoprime_iff_gcd_eq_one.mp hleft
    rw [Int.gcd_emod] at hleft'
    exact Int.isCoprime_iff_gcd_eq_one.mp
      ((Int.isCoprime_iff_gcd_eq_one.mpr hleft').mul_left hright)
  · rw [mulToGeneratorVartime_of_nonneg curve (checkRightOpenRange_ok_iff.mp hz).1] at hzG
    rw [mulToGenerator_ok curve hzG, mul_ok curve heQ1, cast_residue] at hpoint
    exact hpoint
  · have hval : cZ = π.cR * scaled % V.NN := eq_emod_of_modOp_ok hcZ
    rw [Paillier.mulScalar, residue, modPow_eq _ (Int.natCast_nonneg _),
      Int.toNat_natCast] at hscaled
    rw [hrow, hval, ← Except.ok.inj hscaled, Paillier.NN, cast_emod, Int.cast_mul, cast_emod,
      Int.cast_pow]
    exact mul_comm _ _

/-- The verifier from its steps. -/
theorem pdlVerify_accept [Fact q.Prime] {V : Paillier} {R : E} {e : ZMod q}
    {noSmall valid : ZkFlag} (hR : π.R = .on R) (he : e = O.pdl ⟨cKey, V.N, Q1, π.cR, R, sid, aux⟩)
    (hQ1 : Q1 ≠ 0) (hkey : flags.paillierValidKey ≠ .unverified)
    (hnoSmall : checkSmallFactors V.N flags.paillierNoSmallFactors = .ok noSmall)
    (hvalid : checkCiphertext V.N cKey flags.paillierValidCiphertext = .ok valid)
    (hN : 2048 ≤ V.N.size ∧ pdlSlack q < V.N) (hcR : 0 < π.cR ∧ π.cR < V.NN)
    (hgcd : Int.gcd (π.cR * residue e % V.N * π.rZ % V.N) V.N = 1)
    (hzG : curve.mulToGenerator π.z = .ok (R + e • Q1)) (hz : 0 ≤ π.z ∧ π.z < pdlBound q)
    (henc : V.encrypt true π.z π.rZ = .ok (π.cR * (cKey ^ e.val % V.NN) % V.NN))
    (hslack : pdlSlackCheck P O ⟨flags.paillierValidKey, noSmall, valid,
      flags.paillierRangeExpSlackProof⟩ cKey V sid aux rho π = .ok ()) :
    pdlVerify P O flags curve cKey V Q1 sid aux rho π =
      .ok ⟨flags.paillierValidKey, noSmall, valid, flags.paillierRangeExpSlackProof⟩ := by
  have hscaled : V.mulScalar cKey (residue e) = .ok (cKey ^ e.val % V.NN) := by
    rw [Paillier.mulScalar, residue, modPow_eq _ (Int.natCast_nonneg _), Int.toNat_natCast]
  have hcheckQ1 : curveCheck false (.on Q1) = .ok Q1 := by simp [curveCheck, hQ1]
  rw [pdlVerify, hcheckQ1, ok_bind, hR, curveCheck_true_on, ok_bind]
  change (require (decide (flags.paillierValidKey ≠ .unverified)) .crypto >>= _) = _
  rw [← he, decide_eq_true hkey, require_true, ok_bind, hnoSmall, ok_bind, hvalid, ok_bind,
    decide_eq_true hN, require_true, ok_bind, checkOpenRange_ok_iff.mpr hcR, ok_bind, modMul, modOp,
    if_pos rfl, ok_bind, modMul, modOp, if_pos rfl, ok_bind, coprime, if_pos rfl,
    ok_bind, decide_eq_true hgcd, require_true, ok_bind,
    mulToGeneratorVartime_of_nonneg curve hz.1, hzG, ok_bind, mul_residue, ok_bind,
    decide_eq_true rfl, require_true, ok_bind, checkRightOpenRange_ok_iff.mpr hz, ok_bind, hscaled,
    ok_bind, modMul, modOp, if_pos rfl, ok_bind, henc, ok_bind, decide_eq_true rfl,
    require_true, ok_bind]
  change (pdlSlackCheck P O ⟨flags.paillierValidKey, noSmall, valid,
    flags.paillierRangeExpSlackProof⟩ cKey V sid aux rho π >>= _) = _
  rw [hslack, ok_bind]

/-- What the verifier establishes under a public key. -/
theorem pdlVerify_ok [Fact q.Prime]
    (h : pdlVerify P O flags curve cKey (.pub N) Q1 sid aux rho π = .ok flags') :
    ∃ R, π.R = .on R ∧ PdlAccepted curve N cKey Q1 R
      (O.pdl ⟨cKey, N, Q1, π.cR, R, sid, aux⟩) π := by
  obtain ⟨-, -, R, hR, e, rfl, hslack, hgcd, hpoint, hz, ⟨cZ, henc, hrow⟩, -⟩ := pdlVerify_steps h
  refine ⟨R, hR, hslack, ?_, hpoint, hz, ?_⟩
  · exact Int.isCoprime_iff_gcd_eq_one.mp (Int.isCoprime_iff_gcd_eq_one.mpr hgcd).of_mul_left_right
  · rw [← Paillier.encrypt_pub_ok henc]
    exact hrow.symm

omit [DecidableEq E] in
/-- Two answers to one first message: a plaintext in the range is the logarithm. -/
theorem PdlAccepted.logarithm [Fact q.Prime] {R : E} {e e' : ZMod q}
    (h : PdlAccepted curve N cKey Q1 R e π) (h' : PdlAccepted curve N cKey Q1 R e' π')
    (hcR : π.cR = π'.cR) (hne : e ≠ e') (hcop : N.Coprime N.totient) {m : ℤ} (hm : IsPlain N cKey m)
    (hsmall : |m| < rangeSlack q) : (m : ZMod q) • curve.generator = Q1 := by
  have hq : (0 : ℤ) < q := by exact_mod_cast (Fact.out : q.Prime).pos
  have hN : N ≠ 0 := by
    have hslack : (0 : ℤ) ≤ pdlSlack q := by
      rw [pdlSlack]
      positivity
    have := h.slack
    omega
  have hrow' := h'.row
  rw [← hcR] at hrow'
  have hfraction := fraction_of_answers hN hcop hm (isUnit_of_gcd h.gcd_rZ)
    (isUnit_of_gcd h'.gcd_rZ) h.row hrow'
  -- Both sides are small, so that the equation modulo `N` is one of integers.
  have hint : ((e.val : ℤ) - e'.val) * m = π.z - π'.z := by
    apply eq_of_cast_eq hfraction
    have he : |(e.val : ℤ) - e'.val| < q := by
      have h1 := ZMod.val_lt e
      have h2 := ZMod.val_lt e'
      rw [abs_lt]
      omega
    have hprod : |((e.val : ℤ) - e'.val) * m| < q * rangeSlack q := by
      rw [abs_mul]
      exact mul_lt_mul'' he hsmall (abs_nonneg _) (abs_nonneg _)
    have hz : |π.z - π'.z| < pdlBound q := by
      have h1 := h.z_range
      have h2 := h'.z_range
      rw [abs_lt]
      omega
    have hsum : q * rangeSlack q + pdlBound q ≤ pdlSlack q := by
      rw [rangeSlack, pdlBound, pdlSlack, pow_succ]
      nlinarith
    have htri := abs_sub (((e.val : ℤ) - e'.val) * m) (π.z - π'.z)
    have hslack := h.slack
    omega
  have hscalar : (e - e') * (m : ZMod q) = (π.z : ZMod q) - π'.z := by
    have hcast := congrArg (fun v : ℤ => (v : ZMod q)) hint
    push_cast at hcast
    rwa [ZMod.natCast_zmod_val, ZMod.natCast_zmod_val] at hcast
  have hpoint : (e - e') • ((m : ZMod q) • curve.generator) = (e - e') • Q1 := by
    rw [smul_smul, hscalar, sub_smul, h.point, h'.point, add_sub_add_left_eq_sub, sub_smul]
  rw [← inv_smul_smul₀ (sub_ne_zero.mpr hne) ((m : ZMod q) • curve.generator), hpoint,
    inv_smul_smul₀ (sub_ne_zero.mpr hne)]

end Curve

/-- A relation between the bases of the commitments. -/
structure PedersenParams.Relation (P : PedersenParams) (a b : ℤ) : Prop where
  nontrivial : ¬(P.pTag : ℤ) ∣ a
  opening_eq : P.opening a b = 1

variable {P : PedersenParams} {V : Paillier} {q : ℕ}

/-- Whoever finds a relation has the logarithm of one base to the other. -/
theorem PedersenParams.Relation.log {a b : ℤ} (h : P.Relation a b) :
    (P.g : ZMod P.p) = (P.h : ZMod P.p) ^ residue (-b * (a : ZMod P.pTag)⁻¹ : ZMod P.pTag) := by
  have hfact : Fact P.pTag.Prime := ⟨P.pTag_prime⟩
  have hne : (a : ZMod P.pTag) ≠ 0 := fun h0 =>
    h.nontrivial ((ZMod.intCast_zmod_eq_zero_iff_dvd _ _).mp h0)
  have hh : ((P.h : ZMod P.p) ^ residue (-b * (a : ZMod P.pTag)⁻¹ : ZMod P.pTag)) ^ P.pTag = 1 := by
    rw [← zpow_natCast, zpow_comm, zpow_natCast, P.h_pow_pTag, one_zpow]
  apply PrimeOrder.eq_of_zpow_eq P.pTag_prime P.g_pow_pTag hh h.nontrivial
  have hexp : ((residue (-b * (a : ZMod P.pTag)⁻¹ : ZMod P.pTag) * a : ℤ) : ZMod P.pTag) =
      (-b : ℤ) := by
    rw [Int.cast_mul, cast_residue, mul_assoc, inv_mul_cancel₀ hne, mul_one, Int.cast_neg]
  have hopen : (P.g : ZMod P.p) ^ a * (P.h : ZMod P.p) ^ b = 1 := h.opening_eq
  rw [← zpow_mul, PrimeOrder.zpow_congr P.pTag_prime P.h_pow_pTag hexp, zpow_neg]
  exact eq_inv_of_mul_eq_one_left hopen

theorem two_qWithSlack_le {t : ℕ} (h : equalSlackP t q < P.p) : 2 * qWithSlack q ≤ P.pTag := by
  have hp := P.p_eq
  have hexp : secPStat + t * logAlpha + logAlpha + 2 = t * logAlpha +
    (2 + (logAlpha + secPStat)) := by ring
  have hone : (1 : ℤ) ≤ 2 ^ (t * logAlpha) := one_le_pow₀ (by norm_num)
  have hle : 4 * qWithSlack q ≤ equalSlackP t q := by
    rw [equalSlackP, qWithSlack, hexp, pow_add 2 (t * logAlpha), pow_add 2 2]
    have hpos : (0 : ℤ) ≤ q * 2 ^ (logAlpha + secPStat) := by positivity
    nlinarith
  zify at hp
  omega

/-- A fraction that a commitment and a plaintext have in common, and an opening of the commitment in
the range: the plaintext is what was opened, or the two openings are different. -/
theorem EqualityFraction.Holds.plain_or_relation {f : EqualityFraction} {N : ℕ}
    {Com c m : ℤ} (hN : N ≠ 0) (hf : f.Holds P N q Com m) (hm : IsPlain N c m)
    (hcop : IsCoprime f.delta N) (hroom : 2 * qWithSlack q ≤ P.pTag) {w u : ℤ}
    (hw : |w| < rangeSlack q) (hopen : (Com : ZMod P.p) = P.opening w u) :
    IsPlain N c w ∨ P.Relation (f.delta * w - f.v) (f.delta * u - f.s) := by
  by_cases hdvd : (P.pTag : ℤ) ∣ f.delta * w - f.v
  · left
    have hprod : |f.delta * w| < qWithSlack q := by
      have hlt : |f.delta| * |w| < 2 ^ logAlpha * rangeSlack q :=
        mul_lt_mul'' hf.delta_lt hw (abs_nonneg _) (abs_nonneg _)
      rw [abs_mul, qWithSlack, pow_add]
      rw [rangeSlack] at hlt
      linarith
    have hzero : f.delta * w - f.v = 0 := by
      apply Int.eq_zero_of_abs_lt_dvd hdvd
      have htri := abs_sub (f.delta * w) f.v
      have hv := hf.v_lt
      omega
    have hcast : ((f.delta : ℤ) : ZMod N) * m = (f.delta : ZMod N) * w := by
      rw [← Int.cast_mul, hf.plain, ← sub_eq_zero.mp hzero, Int.cast_mul]
    have hunit : IsUnit ((f.delta : ℤ) : ZMod N) := ⟨ZMod.unitOfIsCoprime f.delta hcop, rfl⟩
    exact hm.congr hN (hunit.mul_left_cancel hcast)
  · right
    refine ⟨hdvd, ?_⟩
    rw [P.opening_sub, P.opening_mul, ← hopen, hf.opens, div_self (P.opening_ne_zero _ _)]

theorem equalityExtract_isCoprime {N t : ℕ} (hprimes : ∀ r, r.Prime → r ∣ N → paillierAlpha < r)
    {e e' : ℤ} {a a' : EqualityAnswer t} {j : Fin t}
    (hne : (equalityExtract P e e' a a' j).delta ≠ 0) :
    IsCoprime (equalityExtract P e e' a a' j).delta N := by
  apply isCoprime_sub_of_primes hprimes (digit_lt logAlpha e.toNat j) (digit_lt logAlpha e'.toNat j)
  intro heq
  apply hne
  change ((digit logAlpha e.toNat j : ℕ) : ℤ) - (digit logAlpha e'.toNat j : ℕ) = 0
  rw [heq, sub_self]

theorem EqualityAccepted.modulus_ne {t : ℕ} {c Com e : ℤ}
    {first : EqualityFirst t} {a : EqualityAnswer t} (h : EqualityAccepted P V c q Com e first a) :
    V.N ≠ 0 := by
  have hslack := (qWithSlack_nonneg q).trans (qWithSlack_le t q)
  have hN := h.slackN
  omega

theorem paillierRangeExpSlackVerify_split {OE : EqualityOracle} {OR : RangeOracle}
    {flags : EqualityFlags} {c : ℤ} {sid : List (Fin 256)} {aux : ℕ}
    {π : PaillierRangeExpSlack} {j : Fin secPCom}
    (h : AcceptedAt (fun rho => paillierRangeExpSlackVerify P OE OR flags V q c sid aux rho π) j) :
    (∃ flag, paillierPedersenEqualVerify P OE flags V c q π.Com sid aux
      π.zkPaillierPedersenEqual = .ok flag) ∧
      AcceptedAt (fun rho => rangePedersenVerify P OR q π.Com sid aux rho π.zkRangePedersen) j := by
  obtain ⟨rho, rho', h, h', hoff⟩ := h
  obtain ⟨flag, hflag, hrange⟩ := bind_ok_iff.mp h
  obtain ⟨-, -, hrange'⟩ := bind_ok_iff.mp h'
  exact ⟨⟨flag, hflag⟩, rho, rho', hrange, hrange', hoff⟩

/-- Two proofs of the range with one first message, whose challenges differ and whose bits in `j`
are one and zero. -/
structure SlackFork (V : Paillier) (c : ℤ) (π π' : PaillierRangeExpSlack)
    (j : Fin secPCom) : Prop where
  Com_eq : π.Com = π'.Com
  tildes_eq : equalityTildes V c π.zkPaillierPedersenEqual =
    equalityTildes V c π'.zkPaillierPedersenEqual
  ComTilde_eq : π.zkPaillierPedersenEqual.ComTilde = π'.zkPaillierPedersenEqual.ComTilde
  e_ne : π.zkPaillierPedersenEqual.e ≠ π'.zkPaillierPedersenEqual.e
  cTilde_eq : π.zkRangePedersen.cTilde j = π'.zkRangePedersen.cTilde j
  bit : bitsGet π.zkRangePedersen.e j = true
  bit' : bitsGet π'.zkRangePedersen.e j = false

/-- The integer that the range proofs open the commitment to is the plaintext, or the two openings
that the proofs reveal give a relation between the bases. -/
theorem paillierRangeExpSlack_extract (hq : 0 < q)
    (hprimes : ∀ r, r.Prime → r ∣ V.N → paillierAlpha < r) (hcop : V.N.Coprime V.N.totient)
    {c m : ℤ} (hm : IsPlain V.N c m) {OE OE' : EqualityOracle} {OR OR' : RangeOracle}
    {flags flags' : EqualityFlags} {sid sid' : List (Fin 256)} {aux aux' : ℕ}
    {π π' : PaillierRangeExpSlack} {j : Fin secPCom}
    (h : AcceptedAt (fun rho => paillierRangeExpSlackVerify P OE OR flags V q c sid aux rho π) j)
    (h' : AcceptedAt (fun rho =>
      paillierRangeExpSlackVerify P OE' OR' flags' V q c sid' aux' rho π') j)
    (hfork : SlackFork V c π π' j) :
    let w := π.zkRangePedersen.d j - π'.zkRangePedersen.d j
    let u := π.zkRangePedersen.f j - π'.zkRangePedersen.f j
    let f := equalityExtract P π.zkPaillierPedersenEqual.e π'.zkPaillierPedersenEqual.e
      π.zkPaillierPedersenEqual.toEqualityAnswer π'.zkPaillierPedersenEqual.toEqualityAnswer
    |w| < rangeSlack q ∧ ∃ i, IsPlain V.N c w ∨
    P.Relation ((f i).delta * w - (f i).v) ((f i).delta * u - (f i).s) := by
  intro w u f
  obtain ⟨⟨flag, hequal⟩, hrange⟩ := paillierRangeExpSlackVerify_split h
  obtain ⟨⟨flag', hequal'⟩, hrange'⟩ := paillierRangeExpSlackVerify_split h'
  rw [← hfork.Com_eq] at hequal' hrange'
  obtain ⟨hd, hv⟩ := rangePedersen_row hq hrange
  obtain ⟨hd', hv'⟩ := rangePedersen_row hq hrange'
  rw [hfork.bit, hfork.cTilde_eq] at hv
  rw [hfork.bit'] at hv'
  obtain ⟨hw, hopen⟩ := range_extract hd hd' hv hv'
  obtain ⟨_, -, hacc, -, -⟩ := paillierPedersenEqualVerify_ok hequal
  obtain ⟨i, hi⟩ := paillierPedersenEqual_extract hq hcop hm hequal hequal' hfork.tildes_eq
    hfork.ComTilde_eq hfork.e_ne
  exact ⟨hw, i, hi.plain_or_relation hacc.modulus_ne hm
    (equalityExtract_isCoprime hprimes hi.delta_ne)
    (two_qWithSlack_le hacc.slackP) hw hopen⟩

variable {key : PaillierKey}

/-- What the honest prover draws for the range. -/
structure SlackRandomness.Drawn (P : PedersenParams) (key : PaillierKey) (q : ℕ)
    (ω : SlackRandomness) : Prop where
  rho : isInRange P.pTag ω.rho = true
  equal : ω.equal.Drawn P key q
  range : ω.range.Drawn P q

/-- The masks leave room for the challenges of a proof. -/
def SlackRandomness.Fits (q : ℕ) (ω : SlackRandomness) (x : ℤ) (π : PaillierRangeExpSlack) : Prop :=
  (∀ i : Fin nonInteractiveReps,
    0 < challengeDigit π.zkPaillierPedersenEqual.e i * x + ω.equal.ri i ∧
    challengeDigit π.zkPaillierPedersenEqual.e i * x + ω.equal.ri i < qWithSlack q) ∧
  ω.range.Fits q (fun i => bitsGet π.zkRangePedersen.e i) x

/-- What the honest prover of the range is given. -/
structure SlackInputs (P : PedersenParams) (key : PaillierKey) (q : ℕ) (x r : ℤ) : Prop where
  q_pos : 0 < q
  slackP : equalSlackP nonInteractiveReps q < P.p
  slackN : equalSlackN nonInteractiveReps q < key.N
  x_range : 0 ≤ x ∧ x < q
  gcd_r : Int.gcd r key.N = 1

/-- The first messages of an honest proof of the range and its challenges. -/
structure SlackFirst (P : PedersenParams) (OE : EqualityOracle) (OR : RangeOracle)
    (key : PaillierKey) (q : ℕ) (c x : ℤ) (sid : List (Fin 256)) (aux : ℕ) (ω : SlackRandomness)
    (first : EqualityFirst nonInteractiveReps) (π : PaillierRangeExpSlack) : Prop where
  commit : P.commit false P.g P.h x ω.rho = .ok π.Com
  equal_first : equalityProverMsg1 P key.prv q ω.equal = .ok first
  equal_e : π.zkPaillierPedersenEqual.e =
    (OE ⟨key.N, c, P.p, q, P.g, P.h, π.Com, first, sid, aux⟩).val
  equal_ComTilde : π.zkPaillierPedersenEqual.ComTilde = first.ComTilde
  equal_tildes : ∀ V : Paillier, V.N = key.N →
    equalityTildes V c π.zkPaillierPedersenEqual = .ok first.cTilde
  range_tildes : rangeTildes P ω.range = .ok π.zkRangePedersen.cTilde
  range_e : π.zkRangePedersen.e =
    List.ofFn (OR ⟨P.p, q, P.g, P.h, π.Com, π.zkRangePedersen.cTilde, sid, aux⟩)

theorem SlackFirst.fork {OE OE' : EqualityOracle} {OR OR' : RangeOracle} {c x : ℤ}
    {sid sid' : List (Fin 256)} {aux aux' : ℕ} {ω : SlackRandomness}
    {first first' : EqualityFirst nonInteractiveReps} {π π' : PaillierRangeExpSlack}
    (h : SlackFirst P OE OR key q c x sid aux ω first π)
    (h' : SlackFirst P OE' OR' key q c x sid' aux' ω first' π') (hV : V.N = key.N)
    (he : π.zkPaillierPedersenEqual.e ≠ π'.zkPaillierPedersenEqual.e) {j : Fin secPCom}
    (hbit : bitsGet π.zkRangePedersen.e j = true) (hbit' : bitsGet π'.zkRangePedersen.e j = false) :
    SlackFork V c π π' j := by
  obtain rfl : first = first' := Except.ok.inj (h.equal_first.symm.trans h'.equal_first)
  have htildes : π.zkRangePedersen.cTilde = π'.zkRangePedersen.cTilde :=
    Except.ok.inj (h.range_tildes.symm.trans h'.range_tildes)
  exact ⟨Except.ok.inj (h.commit.symm.trans h'.commit),
    (h.equal_tildes V hV).trans (h'.equal_tildes V hV).symm,
    h.equal_ComTilde.trans h'.equal_ComTilde.symm, he, congrFun htildes j, hbit, hbit'⟩

/-- An honest proof of the range and when it is accepted. -/
theorem paillierRangeExpSlack_honest {x r : ℤ} (h : SlackInputs P key q x r)
    {ω : SlackRandomness} (hω : ω.Drawn P key q) (OE : EqualityOracle) (OR : RangeOracle)
    (sid : List (Fin 256)) (aux : ℕ) : ∃ π,
      paillierRangeExpSlackProve P OE OR key.prv q (key.cipher x r) x r sid aux ω = .ok π ∧
      (∃ first, SlackFirst P OE OR key q (key.cipher x r) x sid aux ω first π) ∧
      ∀ (V : Paillier) (flags : EqualityFlags) (rho : Fin secPCom → Fin (2 ^ secPStat)),
        V.N = key.N →
        flags.paillierValidKey ≠ .unverified →
        (paillierRangeExpSlackVerify P OE OR flags V q (key.cipher x r) sid aux rho π =
          .ok () ↔ ω.Fits q x π) := by
  obtain ⟨Com, hCom, -, -⟩ := P.commit_eq false P.g P.h h.x_range.1 ((isInRange_iff _).mp hω.rho).1
  have hroom : rangeSlack q < P.pTag := by
    have hle := two_qWithSlack_le h.slackP
    have hslack : rangeSlack q ≤ qWithSlack q := by
      rw [rangeSlack, qWithSlack]
      gcongr
      · norm_num
      · omega
    have hpos : 0 < rangeSlack q := mul_pos (by exact_mod_cast h.q_pos) (by positivity)
    omega
  obtain ⟨equal, hequal, ⟨first, hfirst, he, hComTilde, htildes⟩, hverify⟩ :=
    paillierPedersenEqual_honest
    ⟨h.q_pos, h.slackP, h.slackN, h.x_range, h.gcd_r, hω.rho, hCom⟩ hω.equal OE sid aux
  obtain ⟨range, hrange, hrangeTildes, hrangeE, hrangeVerify⟩ :=
    rangePedersen_honest hroom h.x_range hω.rho hCom OR sid aux hω.range
  refine ⟨⟨equal, range, Com⟩, ?_,
    ⟨first, hCom, hfirst, he, hComTilde, htildes, hrangeTildes, hrangeE⟩,
    fun V flags rho hV hkey => ?_⟩
  · rw [paillierRangeExpSlackProve, hCom, ok_bind, hequal, ok_bind, hrange, ok_bind]
  · rw [paillierRangeExpSlackVerify, bind_ok_iff, SlackRandomness.Fits, ← hverify V flags hV hkey,
      ← hrangeVerify rho]
    constructor
    · rintro ⟨flag, hflag, hr⟩
      exact ⟨⟨flag, hflag⟩, hr⟩
    · rintro ⟨⟨flag, hflag⟩, hr⟩
      exact ⟨flag, hflag, hr⟩

/-- The masks of a sample prover. -/
def sampleSlackRandomness : SlackRandomness :=
  ⟨7, ⟨fun _ => 1, fun _ => 1, 0⟩, ⟨fun _ => 0, fun _ => 0⟩⟩

theorem sampleSlack_drawn :
    sampleSlackRandomness.Drawn samplePedersenParams samplePaillierKey 1009 where
  rho := sampleRange_randomness
  equal := sampleMasks_drawn
  range := zeroMasks_drawn

theorem sampleSlack_fits (π : PaillierRangeExpSlack) : sampleSlackRandomness.Fits 1009 5 π :=
  ⟨fun i => sampleMasks_answer π.zkPaillierPedersenEqual.e i, zeroMasks_fit _⟩

theorem sampleSlackInputs : SlackInputs samplePedersenParams samplePaillierKey 1009 5 1 := by
  obtain ⟨_, h⟩ := sampleEqualityInputs
  exact ⟨h.q_pos, h.slackP, h.slackN, h.x_range, h.gcd_R⟩

/-- What the honest prover draws. Its key is private, and the source does not test that the
randomness is a unit. -/
structure PdlRandomness.Drawn (key : PaillierKey) (q : ℕ) (ω : PdlRandomness q) : Prop where
  rRand : 0 ≤ ω.rRand ∧ ω.rRand < key.N
  gcd_rRand : Int.gcd ω.rRand key.N = 1
  rHigh : 0 ≤ ω.rHigh ∧ ω.rHigh < rangeSlack q

/-- `r`. -/
def PdlRandomness.mask (ω : PdlRandomness q) : ℤ := ω.rHigh * q + residue ω.rModQ

/-- What the honest prover is given. -/
structure PdlInputs (key : PaillierKey) (q : ℕ) (x1 rKey : ℤ) : Prop where
  slack : pdlSlack q ≤ key.N
  x1_range : 0 ≤ x1 ∧ x1 < q
  gcd_rKey : Int.gcd rKey key.N = 1

theorem PaillierKey.lt_two_pow (key : PaillierKey) {z : ℤ} (hz : z < key.N) : z < 2 ^ 4096 := by
  have hN := Int.ofNat_lt.mpr key.N_lt
  rw [Nat.cast_pow, Nat.cast_ofNat, paillierBits_eq] at hN
  exact (hz.trans hN).trans (pow_lt_pow_right₀ (by norm_num) (by norm_num))

section Honest

variable {x1 rKey : ℤ} {ω : PdlRandomness q}

theorem PdlInputs.slack_lt (h : PdlInputs key q x1 rKey) : pdlSlack q < key.N := by
  have hodd := key.odd_N
  have hle := h.slack
  have heven : pdlSlack q = (q * q * 2 ^ secPStat + q * q) * 2 := by
    rw [pdlSlack, pow_succ]
    ring
  omega

variable [hprime : Fact q.Prime]

theorem PdlRandomness.Drawn.mask_range (hω : ω.Drawn key q) :
    0 ≤ ω.mask ∧ ω.mask < q * q * 2 ^ secPStat := by
  have hlow := (isInRange_iff _).mp (isInRange_residue ω.rModQ)
  have hhigh := hω.rHigh
  have hmul : (ω.rHigh + 1) * q ≤ rangeSlack q * q :=
    mul_le_mul_of_nonneg_right (by omega) (Int.natCast_nonneg q)
  have hnonneg : 0 ≤ ω.rHigh * q := mul_nonneg hhigh.1 (Int.natCast_nonneg q)
  rw [rangeSlack, add_mul, one_mul, mul_right_comm] at hmul
  rw [PdlRandomness.mask]
  omega

/-- The honest response fits under the bound, which fits under the modulus. -/
theorem PdlInputs.response_range (h : PdlInputs key q x1 rKey) (hω : ω.Drawn key q) (e : ZMod q) :
    0 ≤ ω.mask + residue e * x1 ∧ ω.mask + residue e * x1 < pdlBound q ∧ pdlBound q < key.N := by
  have he := (isInRange_iff _).mp (isInRange_residue e)
  have hx := h.x1_range
  have hmask := hω.mask_range
  have hslack := h.slack
  have hprod : residue e * x1 < q * q := mul_lt_mul'' he.2 hx.2 he.1 hx.1
  have hnonneg : 0 ≤ residue e * x1 := mul_nonneg he.1 hx.1
  have hdouble : pdlSlack q = 2 * pdlBound q := by
    rw [pdlSlack, pdlBound, pow_succ]
    ring
  rw [hdouble] at hslack
  rw [pdlBound] at hslack ⊢
  omega

theorem PdlInputs.gcd_challenge (h : PdlInputs key q x1 rKey) (e : ZMod q) :
    Int.gcd (residue e) key.N = 1 ↔ e ≠ 0 := by
  constructor
  · intro hgcd he
    rw [he, residue_zero] at hgcd
    exact ne_zero_of_gcd hgcd rfl
  · intro he
    have hsq : 2 * q * q ≤ key.N := by
      have hslack := h.slack
      have hpow : (0 : ℤ) ≤ q * q * 2 ^ (secPStat + 1) := by positivity
      rw [pdlSlack] at hslack
      zify
      linarith
    have hpos : 0 < e.val := Nat.pos_of_ne_zero fun h0 => he ((ZMod.val_eq_zero e).mp h0)
    change Int.gcd (e.val : ℤ) key.N = 1
    rw [Int.gcd_natCast_natCast]
    refine Nat.coprime_of_dvd fun r hr hdvd hdvdN => ?_
    have hlt := key.lt_factor hsq hr hdvdN
    have hle := Nat.le_of_dvd hpos hdvd
    have hval := ZMod.val_lt e
    omega

variable {E : Type} [AddCommGroup E] [Module (ZMod q) E] [DecidableEq E] {curve : Curve q E}
  {sid : List (Fin 256)} {aux : ℕ}

omit [DecidableEq E] in
theorem PdlInputs.smul_generator_ne_zero (h : PdlInputs key q x1 rKey) (hx1 : x1 ≠ 0) :
    (x1 : ZMod q) • curve.generator ≠ 0 := by
  intro hzero
  have hdvd := (ZMod.intCast_zmod_eq_zero_iff_dvd x1 q).mp ((smul_generator_eq_zero curve).mp hzero)
  exact hx1 (Int.eq_zero_of_dvd_of_nonneg_of_lt h.x1_range.1 h.x1_range.2 hdvd)

omit [DecidableEq E] in
/-- The multiple of the order in the mask does not show in the point. -/
theorem PdlRandomness.response_smul (ω : PdlRandomness q) (e : ZMod q) :
    ((ω.mask + residue e * x1 : ℤ) : ZMod q) • curve.generator =
    ω.rModQ • curve.generator + e • ((x1 : ZMod q) • curve.generator) := by
  rw [PdlRandomness.mask]
  push_cast
  rw [cast_residue, cast_residue, ZMod.natCast_self, mul_zero, zero_add, add_smul, mul_smul]

/-- `e`, from an honest first message. -/
def PdlRandomness.challenge (O : PdlOracles q E) (key : PaillierKey) (curve : Curve q E)
    (x1 rKey : ℤ) (sid : List (Fin 256)) (aux : ℕ) (ω : PdlRandomness q) : ZMod q :=
  O.pdl ⟨key.cipher x1 rKey, key.N, (x1 : ZMod q) • curve.generator, key.cipher ω.mask ω.rRand,
    ω.rModQ • curve.generator, sid, aux⟩

omit hprime in
theorem PdlInputs.answer (h : PdlInputs key q x1 rKey) (hω : ω.Drawn key q) (e : ZMod q) : ∃ re rZ,
    modPow key.N rKey (residue e) = .ok re ∧ modMul false key.N ω.rRand re = .ok rZ ∧
      EqualSide key (key.cipher x1 rKey) e.val (key.cipher ω.mask ω.rRand)
        (ω.mask + residue e * x1) rZ := by
  obtain ⟨rZ, hrZ, hside⟩ := equalSide_answer key x1 ω.mask h.gcd_rKey hω.rRand hω.gcd_rRand e.val
  have hresponse : (e.val : ℤ) * x1 + ω.mask = ω.mask + residue e * x1 := add_comm _ _
  rw [hresponse] at hside
  obtain ⟨re, hre, hmul⟩ := bind_ok_iff.mp hrZ
  rw [modPow_eq _ (Int.natCast_nonneg _)] at hre
  have hrange : isInRange key.N re = true := by
    rw [← Except.ok.inj hre]
    exact isInRange_emod (key.one_lt_N.trans' one_pos) _
  have hR := (isInRange_iff _).mpr hω.rRand
  rw [modMul, modOp_eq_emod _ _ hrange hR] at hmul
  refine ⟨re, rZ, by rw [residue, modPow_eq _ (Int.natCast_nonneg _), hre], ?_, hside⟩
  rw [modMul, modOp_eq_emod _ _ hR hrange, ← hmul, mul_comm]

omit [DecidableEq E] in
/-- The honest proof. Its part about the range is accepted when the masks leave room. -/
theorem pdlProve_honest (h : PdlInputs key q x1 rKey) (hω : ω.Drawn key q)
    (P : PedersenParams) (O : PdlOracles q E) (slackProof : ZkFlag)
    (hslack : slackProof ≠ .skip → SlackInputs P key q x1 rKey ∧ ω.slack.Drawn P key q) {e : ZMod q}
    (he : e = ω.challenge O key curve x1 rKey sid aux) {re rZ : ℤ}
    (hre : modPow key.N rKey (residue e) = .ok re) (hmul : modMul false key.N ω.rRand re = .ok rZ) :
    ∃ π : Pdl E,
      pdlProve P O slackProof curve (key.cipher x1 rKey) key.prv ((x1 : ZMod q) • curve.generator)
        x1 rKey sid aux ω = .ok π ∧
      (π.cR = key.cipher ω.mask ω.rRand ∧ π.R = .on (ω.rModQ • curve.generator) ∧
        π.z = ω.mask + residue e * x1 ∧ π.rZ = rZ) ∧
      (slackProof ≠ .skip → ∃ slack first, π.zkPaillierRangeExpSlack = some slack ∧
        SlackFirst P O.equal O.range key q (key.cipher x1 rKey) x1 sid aux ω.slack first slack) ∧
      ∀ (V : Paillier) (flags : PdlFlags) (rho : Fin secPCom → Fin (2 ^ secPStat)), V.N = key.N →
        flags.paillierValidKey ≠ .unverified → flags.paillierRangeExpSlackProof = slackProof →
        (pdlSlackCheck P O flags (key.cipher x1 rKey) V sid aux rho π = .ok () ↔
          ∀ slack, π.zkPaillierRangeExpSlack = some slack → ω.slack.Fits q x1 slack) := by
  have hmask := hω.mask_range
  have hmaskN : ω.mask < key.N := by
    obtain ⟨-, -, hboundN⟩ := h.response_range hω e
    have hsq := mul_nonneg (Int.natCast_nonneg q) (Int.natCast_nonneg q)
    rw [pdlBound] at hboundN
    omega
  have hNN := key.N_lt_NN
  have hrRand := hω.rRand
  have hcR : key.prv.encrypt false ω.mask ω.rRand = .ok (key.cipher ω.mask ω.rRand) :=
    PaillierKey.encrypt_eq rfl false hmask.1 hmaskN hrRand.1 (by omega) hω.gcd_rRand
  have hprove : pdlProve P O slackProof curve (key.cipher x1 rKey) key.prv
    ((x1 : ZMod q) • curve.generator) x1 rKey sid aux ω =
      if slackProof ≠ .skip then do
        let slack ← paillierRangeExpSlackProve P O.equal O.range key.prv q
          (key.cipher x1 rKey) x1 rKey sid aux ω.slack
        .ok ⟨key.cipher ω.mask ω.rRand, .on (ω.rModQ • curve.generator), ω.mask + residue e * x1,
          rZ, some slack⟩
      else .ok ⟨key.cipher ω.mask ω.rRand, .on (ω.rModQ • curve.generator), ω.mask + residue e * x1,
      rZ, none⟩ := by
    rw [pdlProve, Paillier.hasPrivateKey, cbAssert_true, ok_bind, Paillier.N,
      decide_eq_true ⟨key.size_N.ge, h.slack⟩, cbAssert_true, ok_bind]
    change key.prv.encrypt false ω.mask ω.rRand >>= _ = _
    rw [hcR, ok_bind, mulToGenerator_residue, ok_bind]
    rw [he] at hre ⊢
    change modPow key.N rKey (residue (ω.challenge O key curve x1 rKey sid aux)) >>= _ = _
    rw [hre, ok_bind, hmul, ok_bind]
    rfl
  by_cases hskip : slackProof = .skip
  · refine ⟨_, hprove.trans (if_neg (not_not.mpr hskip)), ⟨rfl, rfl, rfl, rfl⟩,
      fun h => absurd hskip h,
      fun V flags rho hV hkey hflag => ?_⟩
    rw [pdlSlackCheck, if_neg (not_not.mpr (hflag.trans hskip))]
    exact ⟨fun _ _ hnone => absurd hnone.symm (Option.some_ne_none _), fun _ => rfl⟩
  · obtain ⟨hinputs, hdrawn⟩ := hslack hskip
    obtain ⟨slack, hslack, ⟨first, hfirst⟩, hverify⟩ :=
      paillierRangeExpSlack_honest hinputs hdrawn O.equal O.range sid aux
    rw [if_pos hskip, hslack, ok_bind] at hprove
    refine ⟨_, hprove, ⟨rfl, rfl, rfl, rfl⟩, fun _ => ⟨slack, first, rfl, hfirst⟩,
      fun V flags rho hV hkey hflag => ?_⟩
    rw [pdlSlackCheck, if_pos (hflag.trans_ne hskip)]
    refine (hverify V ⟨flags.paillierValidKey, flags.paillierNoSmallFactors⟩ rho hV hkey).trans ?_
    exact ⟨fun hfits _ heq => Option.some.inj heq ▸ hfits, fun hfits => hfits slack rfl⟩

theorem PaillierPrimes.Encrypts.checkCiphertext_ok {c m : ℤ}
    (h : key.Encrypts c m) (valid : ZkFlag) :
    ∃ f, checkCiphertext key.N c valid = .ok f := by
  by_cases hunverified : valid = .unverified
  · exact ⟨.verified, by rw [checkCiphertext, if_pos hunverified, h.verifyCipher rfl, ok_bind]⟩
  · exact ⟨valid, by rw [checkCiphertext, if_neg hunverified]⟩

/-- An honest proof and when it is accepted. -/
theorem pdl_honest (h : PdlInputs key q x1 rKey) (hω : ω.Drawn key q)
    (P : PedersenParams) (O : PdlOracles q E) (slackProof : ZkFlag)
    (hslack : slackProof ≠ .skip → SlackInputs P key q x1 rKey ∧ ω.slack.Drawn P key q) : ∃ π,
      pdlProve P O slackProof curve (key.cipher x1 rKey) key.prv ((x1 : ZMod q) • curve.generator)
        x1 rKey sid aux ω = .ok π ∧
      (π.cR = key.cipher ω.mask ω.rRand ∧ π.R = .on (ω.rModQ • curve.generator)) ∧
      (slackProof ≠ .skip → ∃ slack first, π.zkPaillierRangeExpSlack = some slack ∧
        SlackFirst P O.equal O.range key q (key.cipher x1 rKey) x1 sid aux ω.slack first slack) ∧
      ∀ (V : Paillier) (flags : PdlFlags) (rho : Fin secPCom → Fin (2 ^ secPStat)), V.N = key.N →
        flags.paillierValidKey ≠ .unverified → flags.paillierRangeExpSlackProof = slackProof →
        ((∃ flags', pdlVerify P O flags curve (key.cipher x1 rKey) V
          ((x1 : ZMod q) • curve.generator) sid aux rho π = .ok flags') ↔
          x1 ≠ 0 ∧ ω.challenge O key curve x1 rKey sid aux ≠ 0 ∧
            ∀ slack, π.zkPaillierRangeExpSlack = some slack → ω.slack.Fits q x1 slack) := by
  obtain ⟨re, rZ, hre, hmul, hside⟩ := h.answer hω (ω.challenge O key curve x1 rKey sid aux)
  obtain ⟨π, hπ, ⟨hcR, hR, hz, hrZ⟩, hfirst, hcheck⟩ :=
    pdlProve_honest h hω P O slackProof hslack rfl hre hmul
  refine ⟨π, hπ, ⟨hcR, hR⟩, hfirst, fun V flags rho hV hkey hflag => ⟨?_, ?_⟩⟩
  · rintro ⟨flags', hflags'⟩
    obtain ⟨hQ1, ⟨-, hkey', hflag', -⟩, R, hR', e, he, -, hgcd, -, -, -, hslackCheck⟩ :=
      pdlVerify_steps hflags'
    obtain rfl := WirePoint.on.inj (hR.symm.trans hR')
    refine ⟨?_, ?_,
      (hcheck V flags' rho hV (hkey'.trans_ne hkey) (hflag'.trans hflag)).mp hslackCheck⟩
    · rintro rfl
      rw [Int.cast_zero, zero_smul] at hQ1
      exact hQ1 rfl
    · rw [hV, hcR] at he
      rw [hV, he] at hgcd
      have hleft := (IsCoprime.mul_left_iff.mp (Int.isCoprime_iff_gcd_eq_one.mpr hgcd)).1
      exact (h.gcd_challenge _).mp
        (Int.isCoprime_iff_gcd_eq_one.mp (IsCoprime.mul_left_iff.mp hleft).2)
  · rintro ⟨hx1, he, hfits⟩
    have hQ1 : (x1 : ZMod q) • curve.generator ≠ 0 := h.smul_generator_ne_zero hx1
    generalize hchallenge : ω.challenge O key curve x1 rKey sid aux = e at *
    obtain ⟨hz0, hzlt, hboundN⟩ := h.response_range hω e
    obtain ⟨noSmall, hnoSmall⟩ :=
      checkSmallFactors_ok (fun r hr hdvd => key.alpha_lt_factor hr hdvd)
        flags.paillierNoSmallFactors
    obtain ⟨valid, hvalid⟩ :=
      (PaillierPrimes.encrypts_cipher x1 h.gcd_rKey).checkCiphertext_ok
        flags.paillierValidCiphertext
    have hmaskCipher := PaillierPrimes.encrypts_cipher ω.mask hω.gcd_rRand
    have hgcd : Int.gcd (key.cipher ω.mask ω.rRand * residue e % key.N * rZ % key.N) key.N = 1 :=
      PaillierPrimes.gcd_mul_emod
        (PaillierPrimes.gcd_mul_emod hmaskCipher.gcd ((h.gcd_challenge e).mpr he)) hside.gcd_rHat
    have hzG := mulToGenerator_of_lt curve hz0 (key.lt_two_pow (hzlt.trans hboundN))
    have henc : V.encrypt true (ω.mask + residue e * x1) rZ =
        .ok (key.cipher ω.mask ω.rRand * (key.cipher x1 rKey ^ e.val % V.NN) % V.NN) := by
      rw [Paillier.NN, hV, hside.product_eq]
      exact hside.encrypt_eq hV ⟨hz0, hzlt.trans hboundN⟩
    have hcRange : 0 < key.cipher ω.mask ω.rRand ∧ key.cipher ω.mask ω.rRand < V.NN :=
      ⟨hmaskCipher.pos, by rw [Paillier.NN, hV]; exact hmaskCipher.lt⟩
    rw [ω.response_smul] at hzG
    rw [← hV] at hnoSmall hvalid hgcd
    rw [← hz] at hz0 hzlt henc hzG
    rw [← hrZ] at hgcd henc
    rw [← hcR] at hcRange hgcd henc
    exact ⟨_, pdlVerify_accept hR (by rw [hV, hcR, ← hchallenge]; rfl) hQ1 hkey hnoSmall hvalid
      ⟨by rw [hV]; exact key.size_N.ge, by rw [hV]; exact h.slack_lt⟩ hcRange
        hgcd hzG ⟨hz0, hzlt⟩ henc
      ((hcheck V ⟨flags.paillierValidKey, noSmall, valid, flags.paillierRangeExpSlackProof⟩ rho
        hV hkey hflag).mpr hfits)⟩

/-- An honest prover is accepted when its share and the challenge are not zero and the masks leave
room. -/
theorem pdl_complete (h : PdlInputs key q x1 rKey) (hω : ω.Drawn key q)
    (P : PedersenParams) (O : PdlOracles q E) (slackProof : ZkFlag)
    (hslack : slackProof ≠ .skip → SlackInputs P key q x1 rKey ∧ ω.slack.Drawn P key q) : ∃ π,
      pdlProve P O slackProof curve (key.cipher x1 rKey) key.prv ((x1 : ZMod q) • curve.generator)
        x1 rKey sid aux ω = .ok π ∧
      ∀ (V : Paillier) (flags : PdlFlags) (rho : Fin secPCom → Fin (2 ^ secPStat)), V.N = key.N →
        flags.paillierValidKey ≠ .unverified → flags.paillierRangeExpSlackProof = slackProof →
        ((∃ flags', pdlVerify P O flags curve (key.cipher x1 rKey) V
          ((x1 : ZMod q) • curve.generator) sid aux rho π = .ok flags') ↔
          x1 ≠ 0 ∧ ω.challenge O key curve x1 rKey sid aux ≠ 0 ∧
            ∀ slack, π.zkPaillierRangeExpSlack = some slack → ω.slack.Fits q x1 slack) := by
  obtain ⟨π, hπ, -, -, hverify⟩ := pdl_honest h hω P O slackProof hslack
  exact ⟨π, hπ, hverify⟩

/-- The part of an accepted proof about the range. -/
theorem pdlVerify_slack {P : PedersenParams} {O : PdlOracles q E} {flags : PdlFlags}
    {cKey : ℤ} {Q1 : E} {π : Pdl E} {slack : PaillierRangeExpSlack}
    (hskip : flags.paillierRangeExpSlackProof ≠ .skip)
    (hslack : π.zkPaillierRangeExpSlack = some slack) {j : Fin secPCom}
    (h : AcceptedAt (fun rho =>
      pdlVerify P O flags curve cKey V Q1 sid aux rho π >>= fun _ => .ok ()) j) :
    ∃ f : EqualityFlags, AcceptedAt (fun rho =>
      paillierRangeExpSlackVerify P O.equal O.range f V q cKey sid aux rho slack) j := by
  obtain ⟨rho, rho', h, h', hoff⟩ := h
  obtain ⟨f, hf, -⟩ := bind_ok_iff.mp h
  obtain ⟨f', hf', -⟩ := bind_ok_iff.mp h'
  obtain ⟨-, ⟨-, hkey, hflag, hsmall⟩, -, -, -, -, -, -, -, -, -, hcheck⟩ := pdlVerify_steps hf
  obtain ⟨-, ⟨-, hkey', hflag', hsmall'⟩, -, -, -, -, -, -, -, -, -, hcheck'⟩ := pdlVerify_steps hf'
  rw [pdlSlackCheck, hflag, if_pos hskip, hslack, hkey] at hcheck
  rw [pdlSlackCheck, hflag', if_pos hskip, hslack, hkey',
    Except.ok.inj (hsmall'.symm.trans hsmall)] at hcheck'
  exact ⟨_, rho, rho', hcheck, hcheck', hoff⟩

/-- Two accepted proofs with one first message and different challenges. A plaintext in the range is
the logarithm. Two proofs of the range that fork give such a plaintext, or a relation between the
bases of the commitment. -/
theorem pdl_sound {P : PedersenParams} {O O' : PdlOracles q E} {flags flags' f f' : PdlFlags}
    {N : ℕ} {cKey m : ℤ} {Q1 : E} {sid' : List (Fin 256)} {aux' : ℕ}
    {rho rho' : Fin secPCom → Fin (2 ^ secPStat)} {π π' : Pdl E}
    (h : pdlVerify P O flags curve cKey (.pub N) Q1 sid aux rho π = .ok f)
    (h' : pdlVerify P O' flags' curve cKey (.pub N) Q1 sid' aux' rho' π' = .ok f')
    (hcR : π.cR = π'.cR) (hR : π.R = π'.R)
    (hne : ∀ R, π.R = .on R →
      O.pdl ⟨cKey, N, Q1, π.cR, R, sid, aux⟩ ≠ O'.pdl ⟨cKey, N, Q1, π'.cR, R, sid', aux'⟩)
    (hcop : N.Coprime N.totient) (hprimes : ∀ r, r.Prime → r ∣ N → paillierAlpha < r)
    (hm : IsPlain N cKey m) :
    (|m| < rangeSlack q → (m : ZMod q) • curve.generator = Q1) ∧
    ∀ (slack slack' : PaillierRangeExpSlack) (j : Fin secPCom),
      π.zkPaillierRangeExpSlack = some slack →
      π'.zkPaillierRangeExpSlack = some slack' → flags.paillierRangeExpSlackProof ≠ .skip →
      flags'.paillierRangeExpSlackProof ≠ .skip →
      AcceptedAt (fun rho => pdlVerify P O flags curve cKey (.pub N) Q1 sid aux rho π >>=
        fun _ => .ok ()) j →
      AcceptedAt (fun rho => pdlVerify P O' flags' curve cKey (.pub N) Q1 sid' aux' rho π' >>=
        fun _ => .ok ()) j →
      SlackFork (.pub N) cKey slack slack' j →
      let w := slack.zkRangePedersen.d j - slack'.zkRangePedersen.d j
      let u := slack.zkRangePedersen.f j - slack'.zkRangePedersen.f j
      let f := equalityExtract P slack.zkPaillierPedersenEqual.e slack'.zkPaillierPedersenEqual.e
        slack.zkPaillierPedersenEqual.toEqualityAnswer
          slack'.zkPaillierPedersenEqual.toEqualityAnswer
      (w : ZMod q) • curve.generator = Q1 ∨ ∃ i,
        P.Relation ((f i).delta * w - (f i).v) ((f i).delta * u - (f i).s) := by
  obtain ⟨R, hwire, hacc⟩ := pdlVerify_ok h
  obtain ⟨R', hwire', hacc'⟩ := pdlVerify_ok h'
  obtain rfl := WirePoint.on.inj (hwire.symm.trans (hR.trans hwire'))
  refine ⟨hacc.logarithm hacc' hcR (hne R hwire) hcop hm, ?_⟩
  intro slack slack' j hslack hslack' hskip hskip' hat hat' hfork w u f
  obtain ⟨flagsEqual, hrange⟩ := pdlVerify_slack hskip hslack hat
  obtain ⟨flagsEqual', hrange'⟩ := pdlVerify_slack hskip' hslack' hat'
  obtain ⟨hw, i, hplain | hrelation⟩ :=
    paillierRangeExpSlack_extract (V := .pub N) hprime.out.pos hprimes hcop hm hrange hrange' hfork
  · exact .inl (hacc.logarithm hacc' hcR (hne R hwire) hcop hplain hw)
  · exact .inr ⟨i, hrelation⟩

end Honest

theorem samplePdlInputs : PdlInputs samplePaillierKey 1009 5 1 where
  slack := by
    have hN : 2 ^ 240 ≤ samplePaillierKey.N :=
      samplePaillierKey.two_pow_le_N (by rw [paillierBits_eq]; norm_num)
    have hslack : pdlSlack 1009 ≤ 2 ^ 240 := by norm_num [pdlSlack, secPStat]
    exact hslack.trans (by exact_mod_cast hN)
  x1_range := sampleRange_witness
  gcd_rKey := Int.gcd_one_left _

/-- What a sample prover draws. -/
def samplePdlRandomness : PdlRandomness 1009 := ⟨1, 3, 0, sampleSlackRandomness⟩

theorem samplePdl_drawn : samplePdlRandomness.Drawn samplePaillierKey 1009 where
  rRand := ⟨by norm_num [samplePdlRandomness], Int.ofNat_lt.mpr samplePaillierKey.one_lt_N⟩
  gcd_rRand := Int.gcd_one_left _
  rHigh := by norm_num [samplePdlRandomness, rangeSlack, secPStat]

/-- Oracles whose challenges are `k`, `e` and the bits of `b`. -/
def samplePdlOracles (k : ZMod 1009) (e : Fin 2) (b : Fin 256) : PdlOracles 1009 (ZMod 1009) :=
  ⟨fun _ => k, fun _ => ⟨e, e.isLt.trans (by norm_num [logAlpha, nonInteractiveReps, secPCom])⟩,
    fun _ _ => b⟩

/-- A proof of the logarithm five with its proof of the range. -/
theorem pdl_complete_sample : ∃ π f,
    pdlProve samplePedersenParams (samplePdlOracles 2 0 0) .unverified sampleCurve
      (samplePaillierKey.cipher 5 1)
      samplePaillierKey.prv (((5 : ℤ) : ZMod 1009) • sampleCurve.generator) 5 1 [] 0
        samplePdlRandomness = .ok π ∧
    pdlVerify samplePedersenParams (samplePdlOracles 2 0 0) ⟨.verified, .unverified, .unverified,
      .unverified⟩ sampleCurve
      (samplePaillierKey.cipher 5 1) (.pub samplePaillierKey.N)
        (((5 : ℤ) : ZMod 1009) • sampleCurve.generator) [] 0 (fun _ => 0) π =
      .ok f := by
  obtain ⟨π, hπ, hverify⟩ :=
    @pdl_complete 1009 samplePaillierKey 5 1 samplePdlRandomness _
      (ZMod 1009) _ _ _ sampleCurve [] 0
    samplePdlInputs samplePdl_drawn samplePedersenParams (samplePdlOracles 2 0 0) .unverified
    fun _ => ⟨sampleSlackInputs, sampleSlack_drawn⟩
  obtain ⟨f, hf⟩ :=
    (hverify (.pub samplePaillierKey.N) ⟨.verified, .unverified, .unverified,
    .unverified⟩ (fun _ => 0) rfl (by decide)
    rfl).mpr ⟨by norm_num, (by decide : (2 : ZMod 1009) ≠ 0), fun slack _ => sampleSlack_fits slack⟩
  exact ⟨π, f, hπ, hf⟩

/-- Two proofs about one sample first message that fork. -/
theorem pdl_sound_sample :
    ∃ (Q1 : ZMod 1009) (slack slack' : PaillierRangeExpSlack) (j : Fin secPCom),
    SlackFork (.pub samplePaillierKey.N) (samplePaillierKey.cipher 5 1) slack slack' j ∧
    ((5 : ℤ) : ZMod 1009) • sampleCurve.generator = Q1 ∧
    (((slack.zkRangePedersen.d j - slack'.zkRangePedersen.d j : ℤ) : ZMod 1009) •
      sampleCurve.generator = Q1 ∨
      ∃ a b, samplePedersenParams.Relation a b) := by
  let Q1 : ZMod 1009 := ((5 : ℤ) : ZMod 1009) • sampleCurve.generator
  let flags : PdlFlags := ⟨.verified, .unverified, .unverified, .unverified⟩
  have hproof : ∀ (k : ZMod 1009) (e : Fin 2) (b : Fin 256), k ≠ 0 → ∃ π slack first,
      (π.cR = samplePaillierKey.cipher samplePdlRandomness.mask samplePdlRandomness.rRand ∧
        π.R = .on (samplePdlRandomness.rModQ • sampleCurve.generator)) ∧
      π.zkPaillierRangeExpSlack = some slack ∧
      SlackFirst samplePedersenParams (samplePdlOracles k e b).equal
        (samplePdlOracles k e b).range samplePaillierKey 1009
        (samplePaillierKey.cipher 5 1) 5 [] 0 sampleSlackRandomness first slack ∧
      ∀ rho, ∃ f, pdlVerify samplePedersenParams (samplePdlOracles k e b) flags sampleCurve
        (samplePaillierKey.cipher 5 1)
        (.pub samplePaillierKey.N) Q1 [] 0 rho π = .ok f := by
    intro k e b hk
    obtain ⟨π, -, hmessage, hslack, hverify⟩ :=
      @pdl_honest 1009 samplePaillierKey 5 1 samplePdlRandomness _ (ZMod 1009) _ _ _
      sampleCurve [] 0 samplePdlInputs samplePdl_drawn samplePedersenParams
        (samplePdlOracles k e b) .unverified
      fun _ => ⟨sampleSlackInputs, sampleSlack_drawn⟩
    obtain ⟨slack, first, hsome, hfirst⟩ := hslack (by decide)
    exact ⟨π, slack, first, hmessage, hsome, hfirst, fun rho =>
      (hverify (.pub samplePaillierKey.N) flags rho rfl (by decide)
      rfl).mpr ⟨by norm_num, hk, fun slack _ => sampleSlack_fits slack⟩⟩
  have hat : ∀ {k e b π}, (∀ rho, ∃ f,
      pdlVerify samplePedersenParams (samplePdlOracles k e b) flags sampleCurve
      (samplePaillierKey.cipher 5 1) (.pub samplePaillierKey.N) Q1 [] 0 rho π = .ok f) →
      AcceptedAt (fun rho => pdlVerify samplePedersenParams
        (samplePdlOracles k e b) flags sampleCurve
        (samplePaillierKey.cipher 5 1) (.pub samplePaillierKey.N) Q1 [] 0 rho π >>= fun _ =>
          .ok ()) ⟨0, zero_lt_secPCom⟩ := by
    intro k e b π hacc
    obtain ⟨f, hf⟩ := hacc fun _ => 0
    obtain ⟨f', hf'⟩ := hacc fun i => if i = ⟨0, zero_lt_secPCom⟩ then 1 else 0
    refine ⟨_, _, bind_ok_iff.mpr ⟨f, hf, rfl⟩, bind_ok_iff.mpr ⟨f', hf', rfl⟩, fun i hi => ?_, ?_⟩
    · simp [hi]
    · decide
  obtain ⟨π, slack, first, ⟨hcR, hR⟩, hsome, hfirst, hacc⟩ := hproof 2 0 255 (by decide)
  obtain ⟨π', slack', first', ⟨hcR', hR'⟩, hsome', hfirst', hacc'⟩ := hproof 3 1 0 (by decide)
  have hfork : SlackFork (.pub samplePaillierKey.N) (samplePaillierKey.cipher 5 1) slack slack'
      ⟨0, zero_lt_secPCom⟩ := by
    refine hfirst.fork hfirst' rfl ?_ ?_ ?_
    · rw [hfirst.equal_e, hfirst'.equal_e]
      norm_num [samplePdlOracles]
    · rw [hfirst.range_e]
      dsimp only [samplePdlOracles]
      rfl
    · rw [hfirst'.range_e]
      dsimp only [samplePdlOracles]
      rfl
  obtain ⟨f, hf⟩ := hacc fun _ => 0
  obtain ⟨f', hf'⟩ := hacc' fun _ => 0
  obtain ⟨hlog, hextract⟩ := pdl_sound hf hf' (hcR.trans hcR'.symm) (hR.trans hR'.symm)
    (fun _ _ => (by decide : (2 : ZMod 1009) ≠ 3)) samplePaillierKey.coprime_totient
    (fun r hr hdvd => samplePaillierKey.alpha_lt_factor hr hdvd)
      (PaillierPrimes.encrypts_cipher 5 (Int.gcd_one_left _)).2
  refine ⟨Q1, slack, slack', _, hfork, hlog (by norm_num [rangeSlack, secPStat]), ?_⟩
  obtain hlogarithm | ⟨i, hi⟩ :=
    hextract slack slack' _ hsome hsome' (by decide) (by decide) (hat hacc) (hat hacc') hfork
  · exact .inl hlogarithm
  · exact .inr ⟨_, _, hi⟩

end CbMpc
