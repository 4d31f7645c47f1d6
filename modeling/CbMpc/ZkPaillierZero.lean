import CbMpc.ValidPaillier

/-!
# Encryptions of zero

`paillier_zero_t`: the prover knows an `N`-th root of the ciphertext and answers with a product
of roots. Two answers to one commitment give a root of a power of the ciphertext, which is
turned into a root of the ciphertext because the challenges are small against every factor of `N`.
-/
namespace CbMpc

/-- A loop that fills an array next to a running value. -/
def loopArray {t : ℕ} (step : ℤ → Fin t → Outcome (ℤ × ℤ)) (start : ℤ) :
    Outcome (ℤ × (Fin t → ℤ)) := do
  let r ← (List.finRange t).foldlM (fun acc i => do
    let s ← step acc.1 i
    .ok (s.1, acc.2 ++ [s.2])) (start, ([] : List ℤ))
  .ok (r.1, fun i => r.2.getD i 0)

/-- What is hashed to the challenges of `paillier_zero_t`. -/
structure ZeroHash where
  N : ℕ
  c : ℤ
  a : Fin nonInteractiveReps → ℤ
  sessionId : List (Fin 256)
  aux : ℕ

/-- `ro::hash_string(…).bitlen(…)` with 16 bits for each challenge. -/
abbrev ZeroOracle : Type :=
  ZeroHash → Fin (bitsToBytes (paddedLogAlpha * nonInteractiveReps)) → Fin 256

/-- `paillier_zero_t`, without its flags. -/
structure PaillierZero where
  e : List (Fin 256)
  z : Fin nonInteractiveReps → ℤ

/-- The flags of `paillier_zero_t`. -/
structure ZeroFlags where
  paillierValidKey : ZkFlag
  paillierValidCiphertext : ZkFlag
  paillierNoSmallFactors : ZkFlag
  deriving DecidableEq, Repr

/-- `rho[i] * r.pow(ei)` inside `MODULO(N)`. -/
def zeroAnswer (N : ℕ) (r rho : ℤ) (ei : ℕ) : Outcome ℤ := do
  let re ← modPow N r ei
  modMul false N rho re

/-- `paillier_zero_t::prove`. -/
def paillierZeroProve (O : ZeroOracle) (hasPrivateKey : Bool) (N : ℕ) (c r : ℤ)
    (sessionId : List (Fin 256)) (aux : ℕ) (rho : Fin nonInteractiveReps → ℤ) :
    Outcome PaillierZero := do
  cbAssert hasPrivateKey
  let rN ← modPow (N * N) r N
  cbAssert (decide (rN = c))
  let a ← fillArray fun i => modPow (N * N) (rho i) N
  let e := List.ofFn (O ⟨N, c, a, sessionId, aux⟩)
  let z ← fillArray fun i => zeroAnswer N r (rho i) (getLogAlphaBits e i)
  .ok ⟨e, z⟩

/-- `z[i].pow(N) * d.pow(ei)` inside `MODULO(NN)`. -/
def zeroCommitment (N : ℕ) (d z : ℤ) (ei : ℕ) : Outcome ℤ := do
  let zN ← modPow (N * N) z N
  let de ← modPow (N * N) d ei
  modMul true (N * N) zN de

/-- The loop body of `verify`. -/
def zeroStep (N : ℕ) (d : ℤ) (pf : PaillierZero) (zProd : ℤ)
    (i : Fin nonInteractiveReps) : Outcome (ℤ × ℤ) := do
  let zProd ← modMul true N zProd (pf.z i)
  let ai ← zeroCommitment N d (pf.z i) (getLogAlphaBits pf.e i)
  .ok (zProd, ai)

/-- The check of the ciphertext, unless a flag says that it was done or is not wanted. -/
def checkCiphertext (N : ℕ) (c : ℤ) (validCiphertext : ZkFlag) : Outcome ZkFlag :=
  if validCiphertext = .unverified then do
    (Paillier.pub N).verifyCipher c
    .ok .verified
  else .ok validCiphertext

/-- `paillier_zero_t::verify`, which gives the flags back that it sets. -/
def paillierZeroVerify (O : ZeroOracle) (flags : ZeroFlags) (N : ℕ) (c : ℤ)
    (sessionId : List (Fin 256)) (aux : ℕ) (pf : PaillierZero) : Outcome ZeroFlags := do
  require (decide (flags.paillierValidKey ≠ .unverified)) .crypto
  let noSmallFactors ← checkSmallFactors N flags.paillierNoSmallFactors
  let validCiphertext ← checkCiphertext N c flags.paillierValidCiphertext
  require (decide (pf.e.length = bitsToBytes (paddedLogAlpha * nonInteractiveReps))) .crypto
  let d ← modInv (N * N) c
  let r ← loopArray (zeroStep N d pf) 1
  require (decide (r.1 ≠ 0)) .crypto
  let isCoprime ← coprime true r.1 N
  require isCoprime .crypto
  require (decide (pf.e = List.ofFn (O ⟨N, c, r.2, sessionId, aux⟩))) .crypto
  .ok ⟨flags.paillierValidKey, validCiphertext, noSmallFactors⟩

/-- What `zeroCommitment` computes. -/
def zeroRow (N : ℕ) (d z : ℤ) (ei : ℕ) : ℤ :=
  z ^ N % (N * N : ℕ) * (d ^ ei % (N * N : ℕ)) % (N * N : ℕ)

variable {t N : ℕ}

theorem loopArray_eq {step : ℤ → Fin t → Outcome (ℤ × ℤ)} {g : ℤ → Fin t → ℤ} {a : Fin t → ℤ}
    (h : ∀ acc i, step acc i = .ok (g acc i, a i)) (start : ℤ) :
    loopArray step start = .ok ((List.finRange t).foldl g start, a) := by
  have hloop : ∀ (l : List (Fin t)) (acc : ℤ) (as : List ℤ), l.foldlM (fun acc i => do
      let s ← step acc.1 i
      .ok (s.1, acc.2 ++ [s.2]) : ℤ × List ℤ → Fin t → Outcome (ℤ × List ℤ)) (acc, as) =
        .ok (l.foldl g acc, as ++ l.map a) := by
    intro l
    induction l with
    | nil =>
      intro acc as
      rw [List.foldl_nil, List.map_nil, List.append_nil]
      rfl
    | cons i l ih =>
      intro acc as
      rw [List.foldlM_cons, h, ok_bind, ok_bind, ih, List.foldl_cons, List.map_cons,
        List.append_assoc, List.singleton_append]
  rw [loopArray, hloop, ok_bind]
  refine congrArg (fun f => Except.ok (_, f)) (funext fun i => ?_)
  rw [List.nil_append, List.getD, List.getElem?_map, List.getElem?_eq_getElem (by simp)]
  simp

/-- One test of a running product stands for a test of every factor. -/
theorem gcd_foldl_mul_emod_iff (f : Fin t → ℤ) (l : List (Fin t)) (start : ℤ) :
    Int.gcd (l.foldl (fun prod i => prod * f i % N) start) N = 1 ↔ Int.gcd start N = 1 ∧ ∀ i ∈ l,
      Int.gcd (f i) N = 1 := by
  induction l generalizing start with
  | nil => simp
  | cons i l ih =>
    rw [List.foldl_cons, ih, List.forall_mem_cons, Int.gcd_emod, ← and_assoc]
    simp only [← Int.isCoprime_iff_gcd_eq_one, IsCoprime.mul_left_iff]

theorem zeroCommitment_eq (d z : ℤ) (ei : ℕ) :
    zeroCommitment N d z ei = .ok (zeroRow N d z ei) := by
  simp only [zeroCommitment, modPow_eq _ (Int.natCast_nonneg _), Int.toNat_natCast, ok_bind, modMul,
    modOp, if_true, zeroRow]

theorem cast_zeroRow (d z : ℤ) (ei : ℕ) :
    ((zeroRow N d z ei : ℤ) : ZMod (N * N)) = (z : ZMod (N * N)) ^ N * (d : ZMod (N * N)) ^ ei := by
  rw [zeroRow, cast_emod, Int.cast_mul, cast_emod, cast_emod, Int.cast_pow, Int.cast_pow]

theorem zeroLoop_eq (d : ℤ) (pf : PaillierZero) : loopArray (zeroStep N d pf) 1 =
    .ok ((List.finRange _).foldl (fun prod i => prod * pf.z i % N) 1, fun i =>
      zeroRow N d (pf.z i) (getLogAlphaBits pf.e i)) := by
  refine loopArray_eq (fun acc i => ?_) 1
  simp only [zeroStep, modMul, modOp, if_true, ok_bind, zeroCommitment_eq]

/-- What an accepted proof has passed. -/
theorem paillierZeroVerify_ok {O : ZeroOracle} {flags flags' : ZeroFlags} {c : ℤ}
    {sessionId : List (Fin 256)} {aux : ℕ} {pf : PaillierZero}
    (h : paillierZeroVerify O flags N c sessionId aux pf = .ok flags') :
    ∃ d, modInv (N * N) c = .ok d ∧ (∀ i, Int.gcd (pf.z i) N = 1) ∧
      pf.e = List.ofFn (O ⟨N, c, fun i => zeroRow N d (pf.z i) (getLogAlphaBits pf.e i),
        sessionId, aux⟩) := by
  unfold paillierZeroVerify at h
  obtain ⟨-, h⟩ := require_bind_ok_iff.mp h
  obtain ⟨noSmall, -, h⟩ := bind_ok_iff.mp h
  obtain ⟨valid, -, h⟩ := bind_ok_iff.mp h
  obtain ⟨-, h⟩ := require_bind_ok_iff.mp h
  obtain ⟨d, hd, h⟩ := bind_ok_iff.mp h
  rw [zeroLoop_eq, ok_bind] at h
  obtain ⟨-, h⟩ := require_bind_ok_iff.mp h
  rw [coprime, if_pos rfl, ok_bind] at h
  obtain ⟨hcop, h⟩ := require_bind_ok_iff.mp h
  obtain ⟨he, -⟩ := require_bind_ok_iff.mp h
  rw [decide_eq_true_iff] at hcop he
  exact ⟨d, hd, fun i => ((gcd_foldl_mul_emod_iff _ _ _).mp hcop).2 i (List.mem_finRange i), he⟩

theorem gcd_square_iff (a : ℤ) : Int.gcd a (N * N : ℕ) = 1 ↔ Int.gcd a N = 1 := by
  rw [← Int.isCoprime_iff_gcd_eq_one, ← Int.isCoprime_iff_gcd_eq_one, Nat.cast_mul,
    IsCoprime.mul_right_iff, and_self]

theorem checkSmallFactors_ok (hprimes : ∀ p, p.Prime → p ∣ N → paillierAlpha < p)
    (noSmall : ZkFlag) :
    ∃ f, checkSmallFactors N noSmall = .ok f := by
  by_cases h : noSmall = .unverified
  · have hsmall : checkIntegerWithSmallPrimes N paillierAlpha = .ok () := by
      refine (checkIntegerWithSmallPrimes_ok_iff _ _).mpr fun p hp hle hdvd => ?_
      have hlt := hprimes p (mem_smallPrimes.mp hp).2 (Int.natCast_dvd_natCast.mp hdvd)
      omega
    exact ⟨.verified, by rw [checkSmallFactors, if_pos h, hsmall, ok_bind]⟩
  · exact ⟨noSmall, by rw [checkSmallFactors, if_neg h]⟩

theorem checkCiphertext_ok (h1 : 1 < N) {r : ℤ} (hr : Int.gcd r N = 1) (valid : ZkFlag) :
    ∃ f, checkCiphertext N (r ^ N % (N * N : ℕ)) valid = .ok f := by
  by_cases h : valid = .unverified
  · have hNN : 0 < N * N := Nat.mul_pos (by omega) (by omega)
    have hgcd : Int.gcd (r ^ N % (N * N : ℕ)) N = 1 := by
      rw [← gcd_square_iff, Int.gcd_emod, gcd_square_iff, ← Int.isCoprime_iff_gcd_eq_one]
      exact (Int.isCoprime_iff_gcd_eq_one.mpr hr).pow_left
    have hrange := (isInRange_iff _).mp (isInRange_emod hNN (r ^ N))
    have hne : r ^ N % ((N * N : ℕ) : ℤ) ≠ 0 := by
      intro hzero
      rw [hzero, Int.gcd_zero_left, Int.natAbs_natCast] at hgcd
      omega
    refine ⟨.verified, ?_⟩
    rw [checkCiphertext, if_pos h, Paillier.verifyCipher, Paillier.NN, Paillier.N,
      checkOpenRange_ok_iff.mpr ⟨by omega, hrange.2⟩, ok_bind, coprime, if_pos rfl, ok_bind,
      decide_eq_true hgcd, require_true, ok_bind]
  · exact ⟨valid, by rw [checkCiphertext, if_neg h]⟩

/-- The honest answer opens the honest commitment. -/
theorem zeroRow_answer {r rho d : ℤ} (hN : 0 < N)
    (hd : ((r ^ N % (N * N : ℕ) : ℤ) : ZMod (N * N)) * d = 1) (ei : ℕ) :
    zeroRow N d (rho * (r ^ ei % N) % N) ei = rho ^ N % (N * N : ℕ) := by
  have hNN : 0 < N * N := Nat.mul_pos hN hN
  refine eq_of_isInRange (isInRange_emod hNN _) (isInRange_emod hNN _) ?_
  have hz : ((rho * (r ^ ei % N) % N : ℤ) : ZMod N) = (rho * r ^ ei : ℤ) := by
    rw [cast_emod, Int.cast_mul, cast_emod, ← Int.cast_mul]
  have hr : (r : ZMod (N * N)) ^ N * d = 1 := by rwa [cast_emod, Int.cast_pow] at hd
  rw [cast_zeroRow, PaillierPrimes.pow_modulus_congr hz, cast_emod, Int.cast_pow, Int.cast_mul,
    Int.cast_pow]
  calc ((rho : ZMod (N * N)) * r ^ ei) ^ N * (d : ZMod (N * N)) ^ ei
      = (rho : ZMod (N * N)) ^ N * ((r : ZMod (N * N)) ^ N * d) ^ ei := by
        rw [mul_pow, mul_pow, pow_right_comm, mul_assoc]
    _ = (rho : ZMod (N * N)) ^ N := by rw [hr, one_pow, mul_one]

/-- Every honest proof is accepted, whatever the challenges are. -/
theorem paillierZero_complete (hprimes : ∀ p, p.Prime → p ∣ N → paillierAlpha < p)
    {r : ℤ} (hr : 0 < r ∧ r < N) (hgcd : Int.gcd r N = 1) {rho : Fin nonInteractiveReps → ℤ}
    (hrho : ∀ i, IsUnitMod N (rho i)) (O : ZeroOracle) {flags : ZeroFlags}
    (hkey : flags.paillierValidKey ≠ .unverified) (sessionId : List (Fin 256)) (aux : ℕ) :
    ∃ pf flags', paillierZeroProve O true N (r ^ N % (N * N : ℕ)) r sessionId aux rho = .ok pf ∧
      paillierZeroVerify O flags N (r ^ N % (N * N : ℕ)) sessionId aux pf = .ok flags' := by
  have h1 : 1 < N := by omega
  have hNN : 0 < N * N := Nat.mul_pos (by omega) (by omega)
  obtain ⟨noSmall, hnoSmall⟩ := checkSmallFactors_ok hprimes flags.paillierNoSmallFactors
  obtain ⟨valid, hvalid⟩ := checkCiphertext_ok h1 hgcd flags.paillierValidCiphertext
  have hcgcd : Int.gcd (r ^ N % (N * N : ℕ)) (N * N : ℕ) = 1 := by
    rw [Int.gcd_emod, gcd_square_iff, ← Int.isCoprime_iff_gcd_eq_one]
    exact (Int.isCoprime_iff_gcd_eq_one.mpr hgcd).pow_left
  obtain ⟨d, hd, -, hone⟩ := modInv_of_gcd hNN hcgcd
  let a : Fin nonInteractiveReps → ℤ := fun i => rho i ^ N % (N * N : ℕ)
  let e := List.ofFn (O ⟨N, r ^ N % (N * N : ℕ), a, sessionId, aux⟩)
  let z : Fin nonInteractiveReps → ℤ := fun i => rho i * (r ^ getLogAlphaBits e i % N) % N
  have ha : (fillArray fun i => modPow (N * N) (rho i) N) = .ok a := by
    refine fillArray_eq fun i => ?_
    rw [modPow_eq _ (Int.natCast_nonneg N), Int.toNat_natCast]
  have hz : (fillArray fun i => zeroAnswer N r (rho i) (getLogAlphaBits e i)) = .ok z := by
    refine fillArray_eq fun i => ?_
    rw [zeroAnswer, modPow_eq _ (Int.natCast_nonneg _), Int.toNat_natCast, ok_bind, modMul,
      modOp_eq_emod _ _ (hrho i).1 (isInRange_emod (by omega) _)]
  have hrow : (fun i => zeroRow N d (z i) (getLogAlphaBits e i)) = a := funext fun i =>
    zeroRow_answer (by omega) hone _
  have hprod :
      Int.gcd ((List.finRange nonInteractiveReps).foldl (fun prod i => prod * z i % N) 1) N =
        1 := by
    refine (gcd_foldl_mul_emod_iff _ _ _).mpr ⟨Int.gcd_one_left _, fun i _ => ?_⟩
    rw [Int.gcd_emod, ← Int.isCoprime_iff_gcd_eq_one]
    refine (Int.isCoprime_iff_gcd_eq_one.mpr (hrho i).2).mul_left ?_
    rw [Int.isCoprime_iff_gcd_eq_one, Int.gcd_emod, ← Int.isCoprime_iff_gcd_eq_one]
    exact (Int.isCoprime_iff_gcd_eq_one.mpr hgcd).pow_left
  have hprod0 : (List.finRange nonInteractiveReps).foldl (fun prod i => prod * z i % N) 1 ≠ 0 := by
    intro hzero
    rw [hzero, Int.gcd_zero_left, Int.natAbs_natCast] at hprod
    omega
  refine ⟨⟨e, z⟩, ⟨flags.paillierValidKey, valid, noSmall⟩, ?_, ?_⟩
  · rw [paillierZeroProve, cbAssert_true, ok_bind, modPow_eq r (Int.natCast_nonneg N),
      Int.toNat_natCast, ok_bind, decide_eq_true rfl, cbAssert_true, ok_bind, ha, ok_bind]
    change (fillArray fun i => zeroAnswer N r (rho i) (getLogAlphaBits e i)) >>= _ = _
    rw [hz, ok_bind]
  · rw [paillierZeroVerify, decide_eq_true hkey, require_true, ok_bind, hnoSmall, ok_bind,
      hvalid, ok_bind, decide_eq_true (List.length_ofFn), require_true, ok_bind, hd, ok_bind,
      zeroLoop_eq, ok_bind, decide_eq_true hprod0, require_true, ok_bind, coprime, if_pos rfl,
      ok_bind, decide_eq_true hprod, require_true, ok_bind, hrow, decide_eq_true rfl,
      require_true, ok_bind]

theorem modInv_ok {m : ℕ} (hm : 0 < m) {a d : ℤ} (h : modInv m a = .ok d) :
    Int.gcd a m = 1 ∧ (a : ZMod m) * d = 1 := by
  have hgcd : Int.gcd a m = 1 := by
    by_contra hne
    rw [modInv, if_neg hne] at h
    cases h
  obtain ⟨v, hv, -, hone⟩ := modInv_of_gcd hm hgcd
  rw [hv] at h
  rw [← Except.ok.inj h]
  exact ⟨hgcd, hone⟩

/-- The difference of two challenges is coprime to a number without small factors. -/
theorem isCoprime_sub_of_primes (hprimes : ∀ p, p.Prime → p ∣ N → paillierAlpha < p) {ei ei' : ℕ}
    (hei : ei < 2 ^ logAlpha) (hei' : ei' < 2 ^ logAlpha) (hne : ei ≠ ei') :
    IsCoprime ((ei : ℤ) - ei') N := by
  rw [Int.isCoprime_iff_gcd_eq_one]
  by_contra hgcd
  obtain ⟨p, hp, hsub, hN⟩ := Nat.Prime.not_coprime_iff_dvd.mp hgcd
  rw [Int.natAbs_natCast] at hN
  have hlt := hprimes p hp hN
  have hle := Nat.le_of_dvd (by omega) hsub
  unfold paillierAlpha at hlt
  omega

/-- Two answers to one commitment under different challenges give a root of the ciphertext. -/
theorem zero_root (hprimes : ∀ p, p.Prime → p ∣ N → paillierAlpha < p) {c d z z' a : ℤ}
    (hd : modInv (N * N) c = .ok d) (hz : Int.gcd z N = 1) (hz' : Int.gcd z' N = 1) {ei ei' : ℕ}
    (hei : ei < 2 ^ logAlpha) (hei' : ei' < 2 ^ logAlpha) (hne : ei ≠ ei')
    (h : zeroCommitment N d z ei = .ok a) (h' : zeroCommitment N d z' ei' = .ok a) :
    ∃ w : ℤ, Int.gcd w N = 1 ∧ w ^ N ≡ c [ZMOD (N * N : ℕ)] := by
  have hN : 0 < N := by
    refine Nat.pos_of_ne_zero fun hzero => ?_
    have hlt := hprimes 2 Nat.prime_two (hzero ▸ dvd_zero 2)
    exact absurd hlt (by decide)
  have hNN : 0 < N * N := Nat.mul_pos hN hN
  have hnz : NeZero (N * N) := ⟨hNN.ne'⟩
  obtain ⟨hcgcd, hone⟩ := modInv_ok hNN hd
  have hcop : ∀ {v : ℤ}, Int.gcd v N = 1 → IsCoprime v (N * N : ℕ) := fun hv =>
    Int.isCoprime_iff_gcd_eq_one.mpr ((gcd_square_iff _).mpr hv)
  let C := ZMod.unitOfIsCoprime c (Int.isCoprime_iff_gcd_eq_one.mpr hcgcd)
  let Z := ZMod.unitOfIsCoprime z (hcop hz)
  let Z' := ZMod.unitOfIsCoprime z' (hcop hz')
  have hD : (d : ZMod (N * N)) = ((C⁻¹ : (ZMod (N * N))ˣ) : ZMod (N * N)) := by
    rw [eq_comm, Units.inv_eq_of_mul_eq_one_right]
    exact hone
  have heq : Z ^ N * C⁻¹ ^ ei = Z' ^ N * C⁻¹ ^ ei' := by
    rw [zeroCommitment_eq] at h h'
    have hrows := congrArg (fun x : ℤ => (x : ZMod (N * N)))
      ((Except.ok.inj h).trans (Except.ok.inj h').symm)
    simp only [cast_zeroRow, hD] at hrows
    refine Units.ext ?_
    rw [Units.val_mul, Units.val_mul, Units.val_pow_eq_pow_val, Units.val_pow_eq_pow_val,
      Units.val_pow_eq_pow_val, Units.val_pow_eq_pow_val]
    exact hrows
  have hpow : C ^ ((ei : ℤ) - ei') = (Z * Z'⁻¹) ^ N := by
    rw [inv_pow, inv_pow, mul_inv_eq_iff_eq_mul] at heq
    rw [zpow_sub, zpow_natCast, zpow_natCast, mul_pow, inv_pow, heq, mul_right_comm,
      mul_right_comm (Z' ^ N), mul_inv_cancel, one_mul, mul_comm (C ^ ei)]
  obtain ⟨w, hw⟩ := PowerMaps.exists_pow_eq_of_zpow_eq
    (isCoprime_sub_of_primes hprimes hei hei' hne) hpow
  refine ⟨((w : ZMod (N * N)).val : ℤ), ?_, ?_⟩
  · rw [← gcd_square_iff, Int.gcd_natCast_natCast]
    exact ZMod.val_coe_unit_coprime w
  · rw [← ZMod.intCast_eq_intCast_iff, Int.cast_pow, Int.cast_natCast, ZMod.natCast_zmod_val,
      ← Units.val_pow_eq_pow_val, hw]
    rfl

end CbMpc
