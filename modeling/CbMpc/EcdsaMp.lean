import CbMpc.AdditiveShare
import CbMpc.OtMultiply
import CbMpc.Ecdsa

/-!
# The output of multi-party ECDSA

From its shares of the two products each party makes its share of the signature. The
receiver divides the sums, normalises the quotient and verifies what comes out.
-/
namespace CbMpc

/-- `beta`, a party's share of `(sum rho) * (m + r * x)`. -/
def betaShare (q : ℕ) (r m rhoX rho : ℤ) : Outcome ℤ := do
  let rRhoX ← modMul false q r rhoX
  let rhoM ← modMul false q m rho
  modAdd false q rRhoX rhoM

/-- `s` at the signature receiver. -/
def signatureScalar (q : ℕ) (rhoK beta : List ℤ) : Outcome ℤ := do
  let sumRhoK ← sumMod q rhoK
  let sumBeta ← sumMod q beta
  let s ← modDivCt q sumBeta sumRhoK
  .ok (lowS q s)

variable {q n : ℕ} [hq : Fact q.Prime] {E : Type} [AddCommGroup E]
  [Module (ZMod q) E] [DecidableEq E]

/-- The candidate signature, which is given out when it verifies. -/
def signOutput (curve : Curve q E) (C : EcdsaCurve E) (Q : E) (msg : List (Fin 256))
    (r : ℤ) (rhoK beta : List ℤ) :
    Outcome (List (Fin 256)) := do
  let s ← signatureScalar q rhoK beta
  let candidate := C.toDer (r, s)
  osslEcdsaVerify curve C Q msg candidate
  .ok candidate

theorem betaShare_residue (r m rhoX rho : ZMod q) :
    betaShare q (residue r) (residue m) (residue rhoX) (residue rho) =
      .ok (residue (r * rhoX + m * rho)) := by
  simp [betaShare]

theorem sumMod_ofFn (f : Fin n → ZMod q) :
    sumMod q (List.ofFn fun i => residue (f i)) = .ok (residue (∑ i, f i)) := by
  have h := sumMod_residue (List.ofFn f)
  rwa [List.map_ofFn, List.sum_ofFn] at h

/-- The quotient of the sums is the scalar of the signature equation. -/
theorem signatureScalar_eq {rho k x r m : ZMod q} {rhoK beta : Fin n → ZMod q}
    (hrho : rho ≠ 0) (hk : k ≠ 0) (hrhoK : ∑ i, rhoK i = rho * k)
    (hbeta : ∑ i, beta i = rho * (m + r * x)) :
    signatureScalar q (List.ofFn fun i => residue (rhoK i)) (List.ofFn fun i => residue (beta i)) =
      .ok (lowS q (residue ((m + r * x) / k))) := by
  have hne : rho * k ≠ 0 := mul_ne_zero hrho hk
  simp only [signatureScalar, sumMod_ofFn, ok_bind, hrhoK, hbeta, modDivCt_residue _ hne]
  rw [mul_div_mul_left _ _ hrho]

/-- What the parties send of the last step sums to the numerator. -/
theorem sum_beta {M : Products q n} (hM : M.Correlated) (r m : ZMod q) :
    ∑ i, (r * M.rhoX i + m * M.rho i) = (∑ i, M.rho i) * (m + r * ∑ i, M.x i) := by
  rw [Finset.sum_add_distrib, ← Finset.mul_sum, ← Finset.mul_sum, sum_rhoX hM]
  ring

omit [DecidableEq E] in
/-- The receiver's scalar completes a valid signature. -/
theorem signatureScalar_valid {M : Products q n} (hM : M.Correlated)
    {curve : Curve q E} {C : EcdsaCurve E} (hC : C.Lawful q) {m r : ℤ} (hm : isInRange q m = true)
    (hr : r = C.getX ((∑ i, M.k i) • curve.generator) % q) (hrho : ∑ i, M.rho i ≠ 0)
    (hk : ∑ i, M.k i ≠ 0) (hr0 : r ≠ 0) (hs : (m : ZMod q) + (r : ZMod q) * ∑ i, M.x i ≠ 0) :
    ∃ beta : Fin n → ZMod q,
      (∀ i, betaShare q r m (residue (M.rhoX i)) (residue (M.rho i)) = .ok (residue (beta i))) ∧
      ∃ s, signatureScalar q (List.ofFn fun i => residue (M.rhoK i)) (List.ofFn fun i =>
        residue (beta i)) = .ok s ∧
        s ≤ q / 2 ∧ EcdsaValid curve C ((∑ i, M.x i) • curve.generator) m r s := by
  have hrr : r = residue (C.getX ((∑ i, M.k i) • curve.generator) : ZMod q) := by
    rw [hr]
    exact emod_eq_residue _
  have hcast : (r : ZMod q) =
    (C.getX ((∑ i, M.k i) • curve.generator) : ZMod q) := by rw [hrr, cast_residue]
  have hx : (C.getX ((∑ i, M.k i) • curve.generator) : ZMod q) ≠ 0 := by
    intro h
    rw [h, residue_zero] at hrr
    exact hr0 hrr
  refine ⟨fun i => (r : ZMod q) * M.rhoX i + (m : ZMod q) * M.rho i, fun i => ?_, _,
    signatureScalar_eq hrho hk (sum_rhoK hM) (sum_beta hM r m), ?_, ?_⟩
  · have hbeta := betaShare_residue (r : ZMod q) (m : ZMod q) (M.rhoX i) (M.rho i)
    rwa [← eq_residue_of_isInRange hm, hcast, ← hrr, ← hcast] at hbeta
  · exact (lowS_bounds (residue_pos (div_ne_zero hs hk))).2
  · rw [hcast] at hs ⊢
    rw [hr]
    exact ecdsaValid_lowS hC hk hx hs

/-- The multiplications are exact, and with nonzero sums the receiver's scalar is that of a valid
signature, which is what the receiver gives out. -/
theorem products_sign {M : Products q n} (hM : M.Correlated) (curve : Curve q E)
    {C : EcdsaCurve E} (hC : C.Lawful q) :
    ∃ rhoK rhoX : Fin n → ZMod q, (∀ i, M.rhoShares i = .ok (residue (rhoK i), residue (rhoX i))) ∧
      ∑ i, rhoK i = (∑ i, M.rho i) * ∑ i, M.k i ∧ ∑ i, rhoX i = (∑ i, M.rho i) * ∑ i, M.x i ∧
      ∀ (msg : List (Fin 256)) (r : ℤ), curveMsgToBn C msg < q →
        r = C.getX ((∑ i, M.k i) • curve.generator) % q → ∑ i, M.rho i ≠ 0 → ∑ i,
        M.k i ≠ 0 → r ≠ 0 →
        (curveMsgToBn C msg : ZMod q) + (r : ZMod q) * ∑ i, M.x i ≠ 0 →
        ∃ beta : Fin n → ZMod q,
          (∀ i, betaShare q r (curveMsgToBn C msg) (residue (rhoX i)) (residue (M.rho i)) =
            .ok (residue (beta i))) ∧
          ∃ s, signatureScalar q (List.ofFn fun i => residue (rhoK i)) (List.ofFn fun i =>
            residue (beta i)) = .ok s ∧
            s ≤ q / 2 ∧ EcdsaValid curve C ((∑ i, M.x i) • curve.generator)
              (curveMsgToBn C msg) r s ∧
            (∑ i, M.x i ≠ 0 → signOutput curve C ((∑ i, M.x i) • curve.generator) msg r
              (List.ofFn fun i => residue (rhoK i)) (List.ofFn fun i => residue (beta i)) =
                .ok (C.toDer (r, s))) := by
  refine ⟨M.rhoK, M.rhoX, rhoShares_eq hM, sum_rhoK hM, sum_rhoX hM, ?_⟩
  intro msg r hmsg hr hrho hk hr0 hs
  have hrange : isInRange q (curveMsgToBn C msg) = true :=
    (isInRange_iff _).mpr ⟨Int.natCast_nonneg _, hmsg⟩
  obtain ⟨beta, hbeta, s, hscalar, hlow, hvalid⟩ :=
    signatureScalar_valid hM hC hrange hr hrho hk hr0 hs
  refine ⟨beta, hbeta, s, hscalar, hlow, hvalid, fun hx => ?_⟩
  have hQ : (∑ i, M.x i) • curve.generator ≠ 0 := fun h => hx ((smul_generator_eq_zero curve).mp h)
  have hverify := osslEcdsaVerify_toDer hC hQ hmsg hvalid
  simp only [signOutput, hscalar, ok_bind, hverify]

/-- A DER `INTEGER` below `2 ^ 15`, with the leading zero that keeps it positive. -/
def derInteger (v : ℕ) : List (Fin 256) :=
  if v < 128 then [2, 1, Fin.ofNat 256 v] else [2, 2, Fin.ofNat 256 (v / 256), Fin.ofNat 256 v]

def readInteger : List (Fin 256) → Option (ℤ × List (Fin 256))
  | 2 :: 1 :: b :: rest => some (b.val, rest)
  | 2 :: 2 :: a :: b :: rest => some (a.val * 256 + b.val, rest)
  | _ => none

theorem readInteger_derInteger {v : ℕ} (hv : v < 32768) (rest : List (Fin 256)) :
    readInteger (derInteger v ++ rest) = some ((v : ℤ), rest) := by
  unfold derInteger
  split
  · have hmod : v % 256 = v := Nat.mod_eq_of_lt (by omega)
    simp [readInteger, hmod]
  · have hdiv : v / 256 % 256 = v / 256 := Nat.mod_eq_of_lt (by omega)
    simp [readInteger, hdiv]
    omega

/-- A curve of ten bits, with signatures in the short form of DER. -/
def sampleEcdsaCurve : EcdsaCurve (ZMod 1009) where
  size := 2
  getX P := min P.val (-P).val
  toDer sig :=
    let body := derInteger sig.1.toNat ++ derInteger sig.2.toNat
    48 :: Fin.ofNat 256 body.length :: body
  fromDer
    | 48 :: _ :: body => do
      let (r, rest) ← readInteger body
      let (s, _) ← readInteger rest
      some (r, s)
    | _ => none

theorem sampleEcdsaCurve_lawful : sampleEcdsaCurve.Lawful 1009 where
  getX_neg P := by
    simp only [sampleEcdsaCurve, neg_neg]
    rw [min_comm]
  fromDer_toDer r s hr hs := by
    rw [isInRange_iff] at hr hs
    have hr' : r.toNat < 32768 := by omega
    have hs' : s.toNat < 32768 := by omega
    have hend := readInteger_derInteger hs' []
    rw [List.append_nil] at hend
    simp [sampleEcdsaCurve, readInteger_derInteger hr', hend, hr.1, hs.1]

/-- Two parties on the curve of ten bits: the first one sends, and the receiver chooses every other
transfer. -/
def sampleProducts (k rho x : Fin 2 → ZMod 1009) : Products 1009 2 where
  theta := 266
  theta_pos := by decide
  roles := [[-1, 0], [1, -1]]
  k := k
  rho := rho
  x := x
  R _ _ l _ := decide (l % 2 = 0)
  X0 _ _ l t := (l + t : ℕ) % 1009
  X _ j l t := residue (((l + t : ℕ) : ZMod 1009) +
    if l % 2 = 0 then ![rho j, k j, rho j, x j] t + ![rho j, k j, rho j, x j] t else 0)
  seed i j := fun l => l + i + 2 * j

theorem sampleProducts_correlated (k rho x : Fin 2 → ZMod 1009) :
    (sampleProducts k rho x).Correlated where
  roles := by
    change validateRoleMap 2 [[-1, 0], [1, -1]] = .ok ()
    decide
  reduced0 i j _ l _ t := by
    rw [isInRange_iff]
    exact ⟨Int.emod_nonneg _ (by decide), Int.emod_lt_of_pos _ (by decide)⟩
  reduced i j _ l _ t := isInRange_residue _
  relation i j _ l _ t := by
    have hmod : (((l + t : ℕ) % 1009 : ℤ) : ZMod 1009) = ((l + t : ℕ) : ZMod 1009) := by
      have h := emod_eq_residue (q := 1009) ((l + t : ℕ) : ℤ)
      rw [Nat.cast_ofNat] at h
      rw [h, cast_residue, Int.cast_natCast]
    simp only [sampleProducts, cast_residue, Products.senderFactor, decide_eq_true_eq]
    rw [hmod]

theorem products_sign_sample : ∃ rhoK rhoX beta : Fin 2 → ZMod 1009,
    (∀ i, (sampleProducts ![1, 1] ![3, 4] ![5, 6]).rhoShares i =
      .ok (residue (rhoK i), residue (rhoX i))) ∧
    ∑ i, rhoK i = 14 ∧ ∑ i, rhoX i = 77 ∧
    ∃ s, signatureScalar 1009 (List.ofFn fun i => residue (rhoK i)) (List.ofFn fun i =>
      residue (beta i)) = .ok s ∧
      s ≤ 504 ∧ EcdsaValid sampleCurve sampleEcdsaCurve
        ((11 : ZMod 1009) • sampleCurve.generator) 5 2 s ∧
      signOutput sampleCurve sampleEcdsaCurve ((11 : ZMod 1009) • sampleCurve.generator) [0, 5, 9] 2
        (List.ofFn fun i => residue (rhoK i)) (List.ofFn fun i => residue (beta i)) =
          .ok (sampleEcdsaCurve.toDer (2, s)) := by
  obtain ⟨rhoK, rhoX, hshares, hrhoK, hrhoX, hsign⟩ :=
    products_sign (sampleProducts_correlated ![1, 1] ![3, 4] ![5, 6])
    sampleCurve sampleEcdsaCurve_lawful
  have hx : ∑ i, (sampleProducts ![1, 1] ![3, 4] ![5, 6]).x i = 11 := by decide
  obtain ⟨beta, -, s, hs, hlow, hvalid, hout⟩ :=
    hsign [0, 5, 9] 2 (by decide) (by decide) (by decide) (by decide) (by decide)
    (by decide)
  rw [hx] at hvalid hout
  exact ⟨rhoK, rhoX, beta, hshares, hrhoK.trans (by decide), hrhoX.trans (by decide), s, hs, hlow,
    hvalid, hout (by decide)⟩

/-- Nonzero sums and a nonzero `r` are not enough: the digest value can cancel the product of `r`
and the key. -/
theorem products_sign_zero :
    ∃ M : Products 1009 2, M.Correlated ∧ ∑ i, M.rho i ≠ 0 ∧ ∑ i, M.k i ≠ 0 ∧
    sampleEcdsaCurve.getX ((∑ i, M.k i) • sampleCurve.generator) % 1009 = 2 ∧
    ∃ rhoK rhoX beta : Fin 2 → ZMod 1009,
      (∀ i, M.rhoShares i = .ok (residue (rhoK i), residue (rhoX i))) ∧
      (∀ i, betaShare 1009 2 (curveMsgToBn sampleEcdsaCurve [2])
        (residue (rhoX i)) (residue (M.rho i)) =
        .ok (residue (beta i))) ∧
      signatureScalar 1009 (List.ofFn fun i => residue (rhoK i)) (List.ofFn fun i =>
        residue (beta i)) = .ok 0 ∧
      ¬EcdsaValid sampleCurve sampleEcdsaCurve ((∑ i, M.x i) • sampleCurve.generator)
        (curveMsgToBn sampleEcdsaCurve [2]) 2 0 := by
  have hM := sampleProducts_correlated ![1, 1] ![3, 4] ![504, 504]
  refine ⟨_, hM, by decide, by decide, by decide, Products.rhoK _, Products.rhoX _, _,
    rhoShares_eq hM,
    fun i => betaShare_residue 2 2 _ _, ?_, fun h => absurd h.2.1.1 (by decide)⟩
  rw [signatureScalar_eq (by decide) (by decide) (sum_rhoK hM) (sum_beta hM 2 2)]
  have hzero : 2 + 2 * ∑ i, (sampleProducts ![1, 1] ![3, 4] ![504, 504]).x i = 0 := by decide
  rw [hzero, zero_div, residue_zero]
  rfl

end CbMpc
