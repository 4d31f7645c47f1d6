import CbMpc.EcdsaMp
import CbMpc.ElGamal

/-!
# The consistency check of multi-party ECDSA

Rounds 5 to 8 compare the shares of the two products with the scalars that the parties committed to,
under ElGamal: from the sum of rerandomized multiples the sum of the commitments to the shares is
taken off, every party scales what is left with a scalar of its own, and it must open to infinity.
-/
namespace CbMpc

variable {q n : ℕ} {E : Type}

/-- Every party makes its step of a round. -/
def eachParty {α : Type} : {n : ℕ} → (Fin n → Outcome α) → Outcome (Fin n → α)
  | 0, _ => .ok Fin.elim0
  | _ + 1, f => do
    let a ← f 0
    let v ← eachParty fun i => f i.succ
    .ok (Fin.cons a v)

theorem eachParty_ok {α : Type} {f : Fin n → Outcome α} {v : Fin n → α} (h : ∀ i, f i = .ok (v i)) :
    eachParty f = .ok v := by
  induction n with
  | zero =>
    have hv : v = Fin.elim0 := funext fun i => i.elim0
    rw [hv]
    rfl
  | succ n ih =>
    rw [eachParty, h 0, ok_bind, ih fun i => h i.succ, ok_bind]
    exact congrArg Except.ok (Fin.cons_self_tail v)

/-- What the parties have broadcast for one of the two checks. -/
structure CheckView (n : ℕ) (E : Type) where
  eProd : Fin n → ElgCom E
  F : Fin n → ElgCom E
  Z : Fin n → ElgCom E
  W : Fin n → E

/-- What a party holds of all parties' messages when it runs the check. -/
structure CheckState (n : ℕ) (E : Type) where
  Es : Fin n → E
  eK : Fin n → ElgCom E
  eRho : Fin n → ElgCom E
  viewK : CheckView n E
  viewX : CheckView n E

variable [AddCommGroup E]

/-- `E`, the public key of the commitments. -/
def CheckState.key (S : CheckState n E) : E := (List.ofFn S.Es).sum

variable [Module (ZMod q) E]

/-- `eK`. -/
def CheckState.baseK (curve : Curve q E) (S : CheckState n E) : Outcome (ElgCom E) :=
  elgSum curve (List.ofFn S.eK)

/-- `eX`, which commits to the signing key with randomness 1. -/
def CheckState.baseX (curve : Curve q E) (Q : E) (S : CheckState n E) : ElgCom E :=
  (curve.generator, S.key + Q)

/-- `Y_eRHO_K` or `Y_eRHO_X`. -/
def checkY (curve : Curve q E) (F eProd : Fin n → ElgCom E) : Outcome (ElgCom E) := do
  let f ← elgSum curve (List.ofFn F)
  let p ← elgSum curve (List.ofFn eProd)
  elgSub curve f p

/-- The test of round 8 on `Z` as summed in round 7. -/
def CheckView.passes [DecidableEq E] (curve : Curve q E) (V : CheckView n E) : Outcome Bool := do
  let Z ← elgSum curve (List.ofFn V.Z)
  .ok (decide ((List.ofFn V.W).sum = Z.2))

/-- Both tests of round 8, that of `K` first. -/
def consistencyCheck [DecidableEq E] (curve : Curve q E) (S : CheckState n E) : Outcome Unit := do
  let bK ← S.viewK.passes curve
  let bX ← S.viewX.passes curve
  require bK .crypto
  require bX .crypto

/-- `eB[j]`. -/
def combineShares (curve : Curve q E) (r m : ℤ) (eRhoX eRho : ElgCom E) : Outcome (ElgCom E) := do
  let a ← elgMul curve r eRhoX
  let b ← elgMul curve m eRho
  elgAdd curve a b

/-- What a party draws for the check. -/
structure CheckCoins (q n : ℕ) where
  s : Fin n → ZMod q
  rEK : Fin n → ZMod q
  rERho : Fin n → ZMod q
  rProdK : Fin n → ZMod q
  rProdX : Fin n → ZMod q
  rFK : Fin n → ZMod q
  rFX : Fin n → ZMod q
  oK : Fin n → ZMod q
  oX : Fin n → ZMod q
  rZK : Fin n → ZMod q
  rZX : Fin n → ZMod q

/-- A party's commitment to its share of a product and its rerandomized multiple of `base`, in round
5. -/
def checkRound5 (curve : Curve q E) (P : E) (base : ElgCom E) (prod rho rProd rF : ℤ) :
    Outcome (ElgCom E × ElgCom E) := do
  let eProd ← makeCommitment curve P prod rProd
  let a ← elgMul curve rho base
  let F ← elgRerand curve P a rF
  .ok (eProd, F)

/-- A party's multiple of `Y`, in round 6. -/
def checkRound6 (curve : Curve q E) (P : E) (Y : ElgCom E) (o r : ℤ) : Outcome (ElgCom E) := do
  let a ← elgMul curve o Y
  elgRerand curve P a r

/-- Rounds 5 to 7 of one of the two checks, by honest parties. -/
def checkRounds (curve : Curve q E) (P : E) (base : ElgCom E)
    (s prod rho rProd rF o rZ : Fin n → ℤ) :
    Outcome (CheckView n E) := do
  let five ← eachParty fun i => checkRound5 curve P base (prod i) (rho i) (rProd i) (rF i)
  let eProd := fun i => (five i).1
  let F := fun i => (five i).2
  let Y ← checkY curve F eProd
  let Z ← eachParty fun i => checkRound6 curve P Y (o i) (rZ i)
  let sum ← elgSum curve (List.ofFn Z)
  let W ← eachParty fun i => curve.mul (s i) sum.1
  .ok { eProd := eProd, F := F, Z := Z, W := W }

/-- The rounds of the check when every party is honest, after the multiplications of `M`. -/
def honestCheck (curve : Curve q E) (M : Products q n) (c : CheckCoins q n) :
    Outcome (CheckState n E) := do
  let Es ← eachParty fun i => curve.mulToGenerator (residue (c.s i))
  let P := (List.ofFn Es).sum
  let eK ← eachParty fun i => makeCommitment curve P (residue (M.k i)) (residue (c.rEK i))
  let eRho ← eachParty fun i => makeCommitment curve P (residue (M.rho i)) (residue (c.rERho i))
  let shares ← eachParty M.rhoShares
  let base ← elgSum curve (List.ofFn eK)
  let viewK ← checkRounds curve P base (fun i => residue (c.s i)) (fun i => (shares i).1)
    (fun i => residue (M.rho i))
    (fun i => residue (c.rProdK i)) (fun i => residue (c.rFK i)) (fun i => residue (c.oK i))
      fun i => residue (c.rZK i)
  let viewX ← checkRounds curve P (curve.generator, P + (∑ i, M.x i) • curve.generator)
    (fun i => residue (c.s i))
    (fun i => (shares i).2) (fun i => residue (M.rho i)) (fun i => residue (c.rProdX i))
      (fun i => residue (c.rFX i))
    (fun i => residue (c.oX i)) fun i => residue (c.rZX i)
  .ok { Es := Es, eK := eK, eRho := eRho, viewK := viewK, viewX := viewX }

/-- The statements proved about one of the two checks: every message is made as it should be. -/
structure CheckView.Proved (curve : Curve q E) (P : E) (base : ElgCom E)
    (s rho prod o : Fin n → ZMod q) (V : CheckView n E) : Prop where
  eProd : ∀ j, Commits curve P (prod j) (V.eProd j)
  F : ∀ j, Rerandomizes curve P (rho j) base (V.F j)
  Z : ∀ Y, checkY curve V.F V.eProd = .ok Y → ∀ j, Rerandomizes curve P (o j) Y (V.Z j)
  W : ∀ Z, elgSum curve (List.ofFn V.Z) = .ok Z → ∀ j, V.W j = s j • Z.1

/-- What is left in `Y` is the error of the shares of the product. -/
theorem plain_checkY {curve : Curve q E} {V : CheckView n E} {a s : ZMod q} {base : ElgCom E}
    {sj rho prod o : Fin n → ZMod q} (hbase : plain s base = a • curve.generator)
    (hV : V.Proved curve (s • curve.generator) base sj rho prod o) :
    plain s (∑ j, V.F j - ∑ j, V.eProd j) = ((∑ j, rho j) * a - ∑ j, prod j) • curve.generator := by
  have hF : ∀ j, plain s (V.F j) = (rho j * a) • curve.generator := fun j => by
    rw [(hV.F j).plain, hbase, smul_smul]
  have hprod : ∀ j, plain s (V.eProd j) = prod j • curve.generator := fun j => (hV.eProd j).plain
  rw [plain_sub, plain_sum, plain_sum]
  simp only [hF, hprod]
  rw [← Finset.sum_smul, ← Finset.sum_smul, ← Finset.sum_mul, sub_smul]

section
variable {curve : Curve q E} (hct : curve.type ≠ .ossl)
include hct

omit [Module (ZMod q) E] in
theorem checkY_eq (F eProd : Fin n → ElgCom E) :
    checkY curve F eProd = .ok (∑ j, F j - ∑ j, eProd j) := by
  simp only [checkY, elgSum_eq hct, ok_bind, elgSub_eq hct, List.sum_ofFn]

/-- The scaled remainders add up to the multiple of the remainder by the sum of the scalars. -/
theorem plain_sumZ {V : CheckView n E} {a s : ZMod q} {base : ElgCom E}
    {sj rho prod o : Fin n → ZMod q} (hbase : plain s base = a • curve.generator)
    (hV : V.Proved curve (s • curve.generator) base sj rho prod o) :
    plain s (∑ j, V.Z j) = ((∑ j, o j) * ((∑ j, rho j) * a - ∑ j, prod j)) • curve.generator := by
  have hZ : ∀ j, plain s (V.Z j) = o j • ((∑ j, rho j) * a - ∑ j, prod j) •
      curve.generator := fun j => by
    rw [(hV.Z _ (checkY_eq hct V.F V.eProd) j).plain, plain_checkY hbase hV]
  rw [plain_sum]
  simp only [hZ]
  rw [← Finset.sum_smul, smul_smul]

variable [DecidableEq E] [hq : Fact q.Prime]

/-- The test is exact: it opens the sum of the remainders with the secret key, shared among the
parties. -/
theorem passes_iff {V : CheckView n E} {a s : ZMod q} {base : ElgCom E}
    {sj rho prod o : Fin n → ZMod q} (hs : ∑ j, sj j = s)
    (hbase : plain s base = a • curve.generator)
    (hV : V.Proved curve (s • curve.generator) base sj rho prod o) :
    V.passes curve = .ok true ↔ (∑ j, o j) * ((∑ j, rho j) * a - ∑ j, prod j) = 0 := by
  have hsum : elgSum curve (List.ofFn V.Z) = .ok (∑ j, V.Z j) := by
    rw [elgSum_eq hct, List.sum_ofFn]
  have hW : (List.ofFn V.W).sum = s • (∑ j, V.Z j).1 := by
    rw [List.sum_ofFn, ← hs, Finset.sum_smul]
    exact Finset.sum_congr rfl fun j _ => hV.W _ hsum j
  rw [← smul_generator_eq_zero curve, ← plain_sumZ hct hbase hV]
  simp only [CheckView.passes, hsum, ok_bind, hW, Except.ok.injEq, decide_eq_true_eq, plain]
  rw [sub_eq_zero, eq_comm]

end

section
variable [hq : Fact q.Prime]

theorem sumMod_ok {vs : List ℤ} {s : ℤ} (h : sumMod q vs = .ok s) :
    (s : ZMod q) = (vs.map fun v : ℤ => (v : ZMod q)).sum := by
  have hloop : ∀ (vs : List ℤ) (acc s : ℤ), vs.foldlM (fun s v => modAdd false q s v) acc = .ok s →
      (s : ZMod q) = acc + (vs.map fun v : ℤ => (v : ZMod q)).sum := by
    intro vs
    induction vs with
    | nil =>
      intro acc s h
      cases h
      simp
    | cons v vs ih =>
      intro acc s h
      rw [List.foldlM_cons] at h
      obtain ⟨acc', hacc, h⟩ := bind_ok_iff.mp h
      rw [ih acc' s h, eq_emod_of_modOp_ok hacc, ZMod.intCast_mod, List.map_cons, List.sum_cons]
      push_cast
      ring
  simpa using hloop vs 0 s h

/-- A quotient that is computed has an invertible denominator. -/
theorem modDivCt_ok {a b s : ℤ} (h : modDivCt q a b = .ok s) :
    (b : ZMod q) ≠ 0 ∧ (s : ZMod q) = a / b := by
  obtain ⟨c, hc, hs⟩ := bind_ok_iff.mp h
  obtain ⟨-, -, hinv⟩ := bind_ok_iff.mp hc
  have hb : (b : ZMod q) ≠ 0 := by
    intro h0
    have hdvd : (q : ℤ) ∣ b := (ZMod.intCast_zmod_eq_zero_iff_dvd b q).mp h0
    have hgcd : Int.gcd b q = q := Int.gcd_eq_natAbs_right hdvd
    have hne : Int.gcd b q ≠ 1 := by
      rw [hgcd]
      exact hq.out.one_lt.ne'
    simp [modInv, hne, throwing] at hinv
  rw [modInv_eq hb] at hinv
  cases hinv
  refine ⟨hb, ?_⟩
  rw [eq_emod_of_modOp_ok hs, ZMod.intCast_mod]
  push_cast [cast_residue]
  rw [div_eq_mul_inv]

/-- What the receiver computes from shares that fit the commitments. -/
theorem signatureScalar_ok {k x r m rho : ZMod q} {rhoK rhoX rhoI : Fin n → ZMod q}
    {rhoKs betas : Fin n → ℤ} {sig : ℤ} (hrho : ∑ j, rhoI j = rho) (hK : ∑ j, rhoK j = rho * k)
    (hX : ∑ j, rhoX j = rho * x) (hrhoKs : ∀ j, (rhoKs j : ZMod q) = rhoK j)
    (hbetas : ∀ j, (betas j : ZMod q) = r * rhoX j + m * rhoI j)
    (h : signatureScalar q (List.ofFn rhoKs) (List.ofFn betas) = .ok sig) :
    (sig : ZMod q) = k⁻¹ * (m + r * x) ∨ (sig : ZMod q) = -(k⁻¹ * (m + r * x)) := by
  obtain ⟨a, ha, h⟩ := bind_ok_iff.mp h
  obtain ⟨b, hb, h⟩ := bind_ok_iff.mp h
  obtain ⟨c, hc, h⟩ := bind_ok_iff.mp h
  cases h
  have hsumK : (a : ZMod q) = rho * k := by
    rw [sumMod_ok ha, List.map_ofFn, List.sum_ofFn, ← hK]
    exact Finset.sum_congr rfl fun j _ => hrhoKs j
  have hsumB : (b : ZMod q) = rho * (m + r * x) := by
    rw [sumMod_ok hb, List.map_ofFn, List.sum_ofFn]
    calc
      _ = ∑ j, (r * rhoX j + m * rhoI j) := Finset.sum_congr rfl fun j _ => hbetas j
      _ = r * (rho * x) + m * rho := by
        rw [Finset.sum_add_distrib, ← Finset.mul_sum, ← Finset.mul_sum, hX, hrho]
      _ = _ := by ring
  obtain ⟨hne, hquot⟩ := modDivCt_ok hc
  have hrho0 : rho ≠ 0 := by
    rintro rfl
    exact hne (by rw [hsumK, zero_mul])
  have hval : (c : ZMod q) = k⁻¹ * (m + r * x) := by
    rw [hquot, hsumK, hsumB, mul_div_mul_left _ _ hrho0, div_eq_inv_mul]
  rcases cast_lowS (q := q) c with hlow | hlow
  · exact Or.inl (by rw [hlow, hval])
  · exact Or.inr (by rw [hlow, hval])

end

variable [hq : Fact q.Prime]

/-- Honest parties produce messages for which the statements hold. -/
theorem checkRounds_ok {curve : Curve q E} (hct : curve.type ≠ .ossl) (P : E) (base : ElgCom E)
    (s prod rho rProd rF o rZ : Fin n → ZMod q) :
    ∃ V, checkRounds curve P base (fun i => residue (s i)) (fun i => residue (prod i))
      (fun i => residue (rho i))
      (fun i => residue (rProd i)) (fun i => residue (rF i)) (fun i => residue (o i))
        (fun i => residue (rZ i)) = .ok V ∧
      V.Proved curve P base s rho prod o := by
  let eProd : Fin n → ElgCom E := fun i =>
    (rProd i • curve.generator, prod i • curve.generator + rProd i • P)
  let F : Fin n → ElgCom E := fun i => rho i • base + (rF i • curve.generator, rF i • P)
  let Y : ElgCom E := ∑ j, F j - ∑ j, eProd j
  let Z : Fin n → ElgCom E := fun i => o i • Y + (rZ i • curve.generator, rZ i • P)
  have hfive (i : Fin n) : checkRound5 curve P base (residue (prod i)) (residue (rho i))
      (residue (rProd i)) (residue (rF i)) =
      .ok (eProd i, F i) := by
    simp only [checkRound5, makeCommitment_residue hct, elgMul_residue hct,
      elgRerand_residue hct, ok_bind]
    rfl
  have hsix (i : Fin n) : checkRound6 curve P Y (residue (o i)) (residue (rZ i)) = .ok (Z i) := by
    simp only [checkRound6, elgMul_residue hct, elgRerand_residue hct, ok_bind]
    rfl
  have hW (i : Fin n) : curve.mul (residue (s i)) (∑ j, Z j).1 = .ok (s i • (∑ j, Z j).1) :=
    mul_residue curve (s i) _
  refine ⟨{ eProd := eProd, F := F, Z := Z, W := fun i => s i • (∑ j, Z j).1 }, ?_, ?_⟩
  · simp only [checkRounds, eachParty_ok hfive, ok_bind, checkY_eq hct]
    rw [eachParty_ok hsix]
    simp only [ok_bind, elgSum_eq hct, List.sum_ofFn, eachParty_ok hW]
  · refine ⟨fun j => ⟨rProd j, rfl⟩, fun j => ⟨rF j, rfl⟩, fun Y' hY j => ?_, fun Z' hZ j => ?_⟩
    · rw [checkY_eq hct] at hY
      cases hY
      exact ⟨rZ j, rfl⟩
    · rw [elgSum_eq hct, List.sum_ofFn] at hZ
      cases hZ
      rfl

variable [DecidableEq E]

omit [Module (ZMod q) E] hq in
/-- The two tests as the claims of the proofs determine them. -/
theorem consistencyCheck_ok_iff {curve : Curve q E} {S : CheckState n E} :
    consistencyCheck curve S = .ok () ↔ S.viewK.passes curve = .ok true ∧
    S.viewX.passes curve = .ok true := by
  simp only [consistencyCheck]
  constructor
  · intro h
    obtain ⟨bK, hK, h⟩ := bind_ok_iff.mp h
    obtain ⟨bX, hX, h⟩ := bind_ok_iff.mp h
    rw [require_bind_ok_iff, require_ok_iff] at h
    obtain ⟨rfl, rfl⟩ := h
    exact ⟨hK, hX⟩
  · rintro ⟨hK, hX⟩
    rw [hK, hX]
    rfl

/-- The commitments hold the scalars of the parties under the key that they share. -/
structure CheckState.Proved (curve : Curve q E) (Q : E)
    (s k rho rhoK rhoX oK oX : Fin n → ZMod q) (S : CheckState n E) :
    Prop where
  Es : ∀ j, S.Es j = s j • curve.generator
  eK : ∀ j, Commits curve S.key (k j) (S.eK j)
  eRho : ∀ j, Commits curve S.key (rho j) (S.eRho j)
  viewK : ∀ eK, S.baseK curve = .ok eK → S.viewK.Proved curve S.key eK s rho rhoK oK
  viewX : S.viewX.Proved curve S.key (S.baseX curve Q) s rho rhoX oX

section
variable {curve : Curve q E} {S : CheckState n E} {Q : E} {s k rho rhoK rhoX oK oX : Fin n → ZMod q}
  (hS : S.Proved curve Q s k rho rhoK rhoX oK oX)
include hS

omit [DecidableEq E] in
theorem CheckState.Proved.key_eq : S.key = (∑ j, s j) • curve.generator := by
  rw [CheckState.key, List.sum_ofFn, Finset.sum_smul]
  exact Finset.sum_congr rfl fun j _ => hS.Es j

theorem CheckState.Proved.passesK_iff (hct : curve.type ≠ .ossl) :
    S.viewK.passes curve = .ok true ↔
    (∑ j, oK j) * ((∑ j, rho j) * ∑ j, k j - ∑ j, rhoK j) = 0 := by
  have hbase : S.baseK curve = .ok (∑ j, S.eK j) := by
    rw [CheckState.baseK, elgSum_eq hct, List.sum_ofFn]
  have hV := hS.viewK _ hbase
  have hplain : plain (∑ j, s j) (∑ j, S.eK j) = (∑ j, k j) • curve.generator := by
    rw [plain_sum, Finset.sum_smul]
    refine Finset.sum_congr rfl fun j _ => Commits.plain ?_
    have h := hS.eK j
    rwa [hS.key_eq] at h
  rw [hS.key_eq] at hV
  exact passes_iff hct rfl hplain hV

theorem CheckState.Proved.passesX_iff (hct : curve.type ≠ .ossl) {x : ZMod q}
    (hQ : Q = x • curve.generator) :
    S.viewX.passes curve = .ok true ↔ (∑ j, oX j) * ((∑ j, rho j) * x - ∑ j, rhoX j) = 0 := by
  have hV := hS.viewX
  have hplain : plain (∑ j, s j) (S.baseX curve Q) = x • curve.generator := by
    rw [CheckState.baseX, hS.key_eq, hQ]
    simp [plain]
  rw [hS.key_eq] at hV
  exact passes_iff hct rfl hplain hV

omit [DecidableEq E] in
/-- The receiver's check of `rho_k_j` and `beta_j` pins both down. -/
theorem CheckState.Proved.shares (hct : curve.type ≠ .ossl) {r m : ℤ} {rhoKs betas : ℤ} {A B : E}
    {eB : ElgCom E} {j : Fin n} (hA : curve.mulToGenerator rhoKs = .ok A)
    (hB : curve.mulToGenerator betas = .ok B)
    (heB : combineShares curve r m (S.viewX.eProd j) (S.eRho j) = .ok eB)
    (hpA : PubShareEqual curve S.key A (S.viewK.eProd j)) (hpB : PubShareEqual curve S.key B eB) :
    (rhoKs : ZMod q) = rhoK j ∧ (betas : ZMod q) = r * rhoX j + m * rho j := by
  have hbase : S.baseK curve = .ok (∑ j, S.eK j) := by
    rw [CheckState.baseK, elgSum_eq hct, List.sum_ofFn]
  have hprodK := (hS.viewK _ hbase).eProd j
  have hprodX := hS.viewX.eProd j
  have hrho := hS.eRho j
  rw [hS.key_eq] at hprodK hprodX hrho hpA hpB
  obtain ⟨a, ha, h⟩ := bind_ok_iff.mp heB
  obtain ⟨b, hb, h⟩ := bind_ok_iff.mp h
  have heq : eB = (r : ZMod q) • S.viewX.eProd j + (m : ZMod q) • S.eRho j := by
    rw [elgAdd_ok h, elgMul_ok ha, elgMul_ok hb]
  constructor
  · apply smul_generator_injective curve
    rw [← mulToGenerator_ok curve hA, ← hpA.plain, hprodK.plain]
  · apply smul_generator_injective curve
    rw [← mulToGenerator_ok curve hB, ← hpB.plain, heq, plain_add, plain_smul, plain_smul,
      hprodX.plain, hrho.plain, smul_smul, smul_smul, ← add_smul]

omit [DecidableEq E] in
/-- A party that sends its own shares has true statements to prove about them. -/
theorem CheckState.Proved.statements (hct : curve.type ≠ .ossl) (r m : ZMod q) (j : Fin n) :
    combineShares curve (residue r) (residue m) (S.viewX.eProd j) (S.eRho j) =
      .ok (r • S.viewX.eProd j + m • S.eRho j) ∧
    PubShareEqual curve S.key (rhoK j • curve.generator) (S.viewK.eProd j) ∧
    PubShareEqual curve S.key ((r * rhoX j + m * rho j) • curve.generator)
      (r • S.viewX.eProd j + m • S.eRho j) := by
  have hbase : S.baseK curve = .ok (∑ j, S.eK j) := by
    rw [CheckState.baseK, elgSum_eq hct, List.sum_ofFn]
  obtain ⟨a, ha⟩ := hS.viewX.eProd j
  obtain ⟨b, hb⟩ := hS.eRho j
  refine ⟨?_, (hS.viewK _ hbase).eProd j, r * a + m * b, ?_⟩
  · simp only [combineShares, elgMul_residue hct, ok_bind, elgAdd, ctCurve_ok hct]
    rfl
  · rw [ha, hb]
    simp only [Prod.smul_mk, Prod.mk_add_mk, smul_add, add_smul, smul_smul]
    rw [add_add_add_comm]

end

omit [DecidableEq E] in
/-- An honest run reaches the tests, and what has been proved there holds. -/
theorem honestCheck_ok {curve : Curve q E} (hct : curve.type ≠ .ossl)
    {M : Products q n} (hM : M.Correlated) (c : CheckCoins q n) :
    ∃ S, honestCheck curve M c = .ok S ∧
      S.Proved curve ((∑ i, M.x i) • curve.generator) c.s M.k M.rho M.rhoK M.rhoX c.oK c.oX := by
  let Es : Fin n → E := fun i => c.s i • curve.generator
  let P : E := (List.ofFn Es).sum
  let eK : Fin n → ElgCom E := fun i =>
    (c.rEK i • curve.generator, M.k i • curve.generator + c.rEK i • P)
  let eRho : Fin n → ElgCom E := fun i =>
    (c.rERho i • curve.generator, M.rho i • curve.generator + c.rERho i • P)
  have hEs (i : Fin n) : curve.mulToGenerator (residue (c.s i)) = .ok (Es i) :=
    mulToGenerator_residue curve (c.s i)
  have heK (i : Fin n) : makeCommitment curve P (residue (M.k i)) (residue (c.rEK i)) =
      .ok (eK i) :=
    makeCommitment_residue hct P _ _
  have heRho (i : Fin n) : makeCommitment curve P (residue (M.rho i)) (residue (c.rERho i)) =
      .ok (eRho i) :=
    makeCommitment_residue hct P _ _
  have hsum : elgSum curve (List.ofFn eK) = .ok (∑ j, eK j) := by rw [elgSum_eq hct, List.sum_ofFn]
  obtain ⟨VK, hVK, hproveK⟩ :=
    checkRounds_ok hct P (∑ j, eK j) c.s M.rhoK M.rho c.rProdK c.rFK c.oK c.rZK
  obtain ⟨VX, hVX, hproveX⟩ :=
    checkRounds_ok hct P (curve.generator, P + (∑ i, M.x i) • curve.generator) c.s M.rhoX M.rho
    c.rProdX c.rFX c.oX c.rZX
  refine ⟨{ Es := Es, eK := eK, eRho := eRho, viewK := VK, viewX := VX }, ?_, ?_⟩
  · simp only [honestCheck, eachParty_ok hEs, ok_bind]
    rw [eachParty_ok heK, ok_bind, eachParty_ok heRho, ok_bind, eachParty_ok (rhoShares_eq hM),
      ok_bind, hsum, ok_bind]
    dsimp only
    rw [hVK, ok_bind, hVX, ok_bind]
  · refine ⟨fun _ => rfl, fun j => ⟨c.rEK j, rfl⟩, fun j => ⟨c.rERho j, rfl⟩,
      fun e he => ?_, hproveX⟩
    rw [CheckState.baseK, elgSum_eq hct, List.sum_ofFn] at he
    cases he
    exact hproveK

omit [DecidableEq E] in
/-- On a curve whose points are not added in constant time the first commitment asserts. -/
theorem honestCheck_ossl {curve : Curve q E} (h : curve.type = .ossl) (M : Products q (n + 1))
    (c : CheckCoins q (n + 1)) :
    honestCheck curve M c = throwing .assertionFailed := by
  have hEs (i : Fin (n + 1)) :
      curve.mulToGenerator (residue (c.s i)) = .ok (c.s i • curve.generator) :=
    mulToGenerator_residue curve (c.s i)
  have hthrow : ∀ f : Fin (n + 1) → E × ℤ × ℤ,
      eachParty (fun i => makeCommitment curve (f i).1 (f i).2.1 (f i).2.2) =
        throwing .assertionFailed := by
    intro f
    simp only [eachParty, makeCommitment, ctCurve_ossl h]
    rfl
  simp only [honestCheck, eachParty_ok hEs, ok_bind]
  rw [hthrow fun i => ((List.ofFn fun i => c.s i • curve.generator).sum, residue (M.k i),
    residue (c.rEK i))]
  rfl

/-- The consistency check is exact on the values that the proofs admit, honest runs pass it, and
behind it the receiver's scalar is that of the signature equation, up to its sign. -/
theorem consistency_check {curve : Curve q E} (hct : curve.type ≠ .ossl) :
    (∀ (S : CheckState n E) (Q : E) (x : ZMod q) (s k rho rhoK rhoX oK oX : Fin n → ZMod q),
      Q = x • curve.generator →
      S.Proved curve Q s k rho rhoK rhoX oK oX →
      (S.viewK.passes curve = .ok true ↔
        (∑ j, oK j) * ((∑ j, rho j) * (∑ j, k j) - ∑ j, rhoK j) = 0) ∧
      (S.viewX.passes curve = .ok true ↔ (∑ j, oX j) * ((∑ j, rho j) * x - ∑ j, rhoX j) = 0) ∧
      (consistencyCheck curve S = .ok () ↔ S.viewK.passes curve = .ok true ∧
        S.viewX.passes curve = .ok true) ∧
      (consistencyCheck curve S = .ok () → ∑ j, oK j ≠ 0 → ∑ j, oX j ≠ 0 →
        ∀ (r m : ℤ) (rhoKs betas : Fin n → ℤ) (A B : Fin n → E) (eB : Fin n → ElgCom E),
          (∀ j, curve.mulToGenerator (rhoKs j) = .ok (A j) ∧
            curve.mulToGenerator (betas j) = .ok (B j)) →
          (∀ j, combineShares curve r m (S.viewX.eProd j) (S.eRho j) = .ok (eB j)) →
          (∀ j, PubShareEqual curve S.key (A j) (S.viewK.eProd j) ∧
            PubShareEqual curve S.key (B j) (eB j)) →
          ∀ sig, signatureScalar q (List.ofFn rhoKs) (List.ofFn betas) = .ok sig →
            (sig : ZMod q) = (∑ j, k j)⁻¹ * (m + r * x) ∨
              (sig : ZMod q) = -((∑ j, k j)⁻¹ * (m + r * x)))) ∧
    ∀ M : Products q n, M.Correlated → ∀ c, ∃ S, honestCheck curve M c = .ok S ∧
    consistencyCheck curve S = .ok () := by
  refine ⟨fun S Q x s k rho rhoK rhoX oK oX hQ hS => ?_, fun M hM c => ?_⟩
  · have hK := hS.passesK_iff hct
    have hX := hS.passesX_iff hct hQ
    refine ⟨hK, hX, consistencyCheck_ok_iff, ?_⟩
    intro hpass hoK hoX r m rhoKs betas A B eB hpoints heB hproofs sig hsig
    obtain ⟨hpassK, hpassX⟩ := consistencyCheck_ok_iff.mp hpass
    have herrK := (mul_eq_zero.mp (hK.mp hpassK)).resolve_left hoK
    have herrX := (mul_eq_zero.mp (hX.mp hpassX)).resolve_left hoX
    have hshares (j : Fin n) :=
      hS.shares hct (hpoints j).1 (hpoints j).2 (heB j) (hproofs j).1 (hproofs j).2
    exact signatureScalar_ok rfl (sub_eq_zero.mp herrK).symm (sub_eq_zero.mp herrX).symm
      (fun j => (hshares j).1)
      (fun j => (hshares j).2) hsig
  · obtain ⟨S, hrun, hS⟩ := honestCheck_ok hct hM c
    refine ⟨S, hrun, consistencyCheck_ok_iff.mpr ⟨(hS.passesK_iff hct).mpr ?_,
      (hS.passesX_iff hct rfl).mpr ?_⟩⟩
    · rw [sum_rhoK hM, sub_self, mul_zero]
    · rw [sum_rhoX hM, sub_self, mul_zero]

def sampleCheckCoins : CheckCoins 1009 2 where
  s i := (i.val + 2 : ℕ)
  rEK i := (i.val + 3 : ℕ)
  rERho i := (i.val + 4 : ℕ)
  rProdK i := (i.val + 5 : ℕ)
  rProdX i := (i.val + 6 : ℕ)
  rFK i := (i.val + 7 : ℕ)
  rFX i := (i.val + 8 : ℕ)
  oK i := (i.val + 9 : ℕ)
  oX i := (i.val + 10 : ℕ)
  rZK i := (i.val + 11 : ℕ)
  rZX i := (i.val + 12 : ℕ)

theorem sampleCtCurve_type : sampleCtCurve.type ≠ .ossl := by decide

theorem consistency_check_sample :
    ∃ S sig, honestCheck sampleCtCurve (sampleProducts ![1, 1] ![3, 4] ![5, 6])
    sampleCheckCoins = .ok S ∧ consistencyCheck sampleCtCurve S = .ok () ∧
    signatureScalar 1009 (List.ofFn fun i =>
      residue ((sampleProducts ![1, 1] ![3, 4] ![5, 6]).rhoK i))
      (List.ofFn fun i =>
        residue (2 * (sampleProducts ![1, 1] ![3, 4] ![5, 6]).rhoX i + 5 * ![3, 4] i)) = .ok sig ∧
    ((sig : ZMod 1009) = 2⁻¹ * (5 + 2 * 11) ∨ (sig : ZMod 1009) = -(2⁻¹ * (5 + 2 * 11))) := by
  have hM := sampleProducts_correlated ![1, 1] ![3, 4] ![5, 6]
  obtain ⟨hexact, hhonest⟩ := consistency_check (n := 2) sampleCtCurve_type
  obtain ⟨S, hrun, hS⟩ := honestCheck_ok sampleCtCurve_type hM sampleCheckCoins
  obtain ⟨S', hrun', hpass⟩ := hhonest _ hM sampleCheckCoins
  rw [hrun] at hrun'
  cases hrun'
  obtain ⟨-, -, -, hscalar⟩ := hexact S _ _ _ _ _ _ _ _ _ rfl hS
  have hrho : ∑ j, (sampleProducts ![1, 1] ![3, 4] ![5, 6]).rho j ≠ 0 := by decide
  have hk : ∑ j, (sampleProducts ![1, 1] ![3, 4] ![5, 6]).k j = 2 := by decide
  have hx : ∑ j, (sampleProducts ![1, 1] ![3, 4] ![5, 6]).x j = 11 := by decide
  have hsig := signatureScalar_eq hrho (by rw [hk]; decide) (sum_rhoK hM) (sum_beta hM 2 5)
  refine ⟨S, _, hrun, hpass, hsig, ?_⟩
  have h := hscalar hpass (by decide) (by decide) (residue 2) (residue 5) _ _ _ _ _
    (fun j => ⟨mulToGenerator_residue _ _, mulToGenerator_residue _ _⟩)
    (fun j => (hS.statements sampleCtCurve_type 2 5 j).1) (fun j =>
      (hS.statements sampleCtCurve_type 2 5 j).2) _ hsig
  rwa [hk, hx, cast_residue, cast_residue] at h

/-- An honest run with a key on a curve of OpenSSL does not reach the check. -/
theorem consistency_check_ossl :
    ∃ M : Products 1009 2, M.Correlated ∧ ∃ c,
      honestCheck sampleCurve M c = throwing .assertionFailed :=
  ⟨_, sampleProducts_correlated ![1, 1] ![3, 4] ![5, 6], sampleCheckCoins, honestCheck_ossl rfl _ _⟩

end CbMpc
