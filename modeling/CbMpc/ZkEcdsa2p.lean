import CbMpc.Paillier

/-!
# The proof behind the second party's ciphertext

`zk_ecdsa_sign_2pc_integer_commit_t` shows that the ciphertext of two-party signing is built
from the shares behind two points. The integers are committed to with fixed parameters of
unknown order, and the challenge is a hash of the statement and the commitments.
-/
namespace CbMpc

open NthResidues

/-- `unknown_order_pedersen_params_t`, with its constants. -/
@[irreducible] def pedersenN : ℕ :=
  23021179409182938570359750938980338144228252278091272301373977814239751374837999838492546432888767127769655940068264100853353551499366755577355531007018750768200171255441698821574892336993202780622143746877429267180956985375718503710984554436993994314439687609895321760284136988355617570080829893220388340848662424870689770253814604041743989571505561981559749559655239486273235991420864634594679913369883938003881718526701794556221696559508817046918913994546361857215207106703848946440502419613199522137735334940177512343371386118880901797914415961377788512776238741479649148106573475707451684652229544231196914573289

@[irreducible] def pedersenG : ℤ :=
  18692609727959642347495417395722097525189086531367077703372461312274023157993906686576615309234701031882307230283129349048160114209918340065147702452404381410406703543047035263825585677685288105331451962046612323375135943439625150989289125977704731027044468880699601265142162637878950397691930657280005244438693270908351393909855450315038730976563321234196068882925686057387933231622612372734407696300564311472069289215359164131367652584423723804201294306251241012679464813370234988048205813130011019436870655061686956966570610789218397436279311675374020440160625193097157363946641954583407515109646139183272575875147

@[irreducible] def pedersenH : ℤ :=
  1048665143557212763219747740365925372973495762670564399175662900857975294535671104954036501552639642493753905307453170704505994561004317929987661874942164325790769136087625173204744153810498026365780398250521692204997255045340560453829554404127652590720296677920879093396879580879248242026646264911671785581014516272702688970899804455365256101399624385933528202110196550761839775309049444508960694778077273805944573689614247122411049825824247506775813394277339807872884192982983105098004844709850011190976172521026823264137921322799866525778649032062366285804392400257876447684994961367594957563285783650449234172753

theorem one_lt_pedersenN : 1 < pedersenN := by
  unfold pedersenN
  norm_num

theorem gcd_pedersenG : Int.gcd pedersenG pedersenN = 1 := by
  unfold pedersenG pedersenN
  norm_num

theorem gcd_pedersenH : Int.gcd pedersenH pedersenN = 1 := by
  unfold pedersenH pedersenN
  norm_num

/-- `g.pow(w) * h.pow(r)` inside `MODULO(N_ped)`. -/
def intCommit (vartime : Bool) (w r : ℤ) : Outcome ℤ := do
  let gw ← modPow pedersenN pedersenG w
  let hr ← modPow pedersenN pedersenH r
  modMul vartime pedersenN gw hr

/-- The statement of the proof, with the session it is bound to. -/
structure ZkEcdsaStatement (E : Type) where
  N : ℕ
  cKey : ℤ
  c : ℤ
  Q2 : E
  R2 : E
  m : ℤ
  r : ℤ
  sid : List (Fin 256)
  aux : ℕ

/-- The first message of `zk_ecdsa_sign_2pc_integer_commit_t`. -/
structure ZkEcdsaCommitments (E : Type) where
  W1 : ℤ
  W2 : ℤ
  W3 : ℤ
  W1Tag : ℤ
  W2Tag : ℤ
  W3Tag : ℤ
  GTag : E
  Q2Tag : E
  cEncTag : ℤ

/-- `zk_ecdsa_sign_2pc_integer_commit_t`. -/
structure ZkEcdsaProof (E : Type) extends ZkEcdsaCommitments E where
  e : ℤ
  w1TagTag : ℤ
  w2TagTag : ℤ
  w3TagTag : ℤ
  r1WTagTag : ℤ
  r2WTagTag : ℤ
  r3WTagTag : ℤ
  rEncTagTag : ℤ

/-- What `prove` samples, each with the bound that it is sampled below. -/
structure ZkEcdsaRandomness (q : ℕ) where
  r1W : ℤ
  r2W : ℤ
  r3W : ℤ
  w1Tag : ℤ
  w2Tag : ℤ
  w3Tag : ℤ
  r1WTag : ℤ
  r2WTag : ℤ
  r3WTag : ℤ
  rEnc : ℤ
  r1W_range : 0 ≤ r1W ∧ r1W < pedersenN * 2 ^ secPStat
  r2W_range : 0 ≤ r2W ∧ r2W < pedersenN * 2 ^ secPStat
  r3W_range : 0 ≤ r3W ∧ r3W < pedersenN * 2 ^ secPStat
  w1Tag_range : 0 ≤ w1Tag ∧ w1Tag < q * 2 ^ (secPStat + secPCom)
  w2Tag_range : 0 ≤ w2Tag ∧ w2Tag < q * 2 ^ (secPStat + secPCom)
  w3Tag_range : 0 ≤ w3Tag ∧ w3Tag < (q * q : ℕ) * 2 ^ (3 * secPStat + secPCom)
  r1WTag_range : 0 ≤ r1WTag ∧ r1WTag < pedersenN * 2 ^ (2 * secPStat + secPCom)
  r2WTag_range : 0 ≤ r2WTag ∧ r2WTag < pedersenN * 2 ^ (2 * secPStat + secPCom)
  r3WTag_range : 0 ≤ r3WTag ∧ r3WTag < pedersenN * 2 ^ (2 * secPStat + secPCom)

/-- The random oracle, cut to `SEC_P_COM` bits. -/
abbrev ZkEcdsaHash (E : Type) := ZkEcdsaStatement E → ZkEcdsaCommitments E → Fin (2 ^ secPCom)

variable {q : ℕ} [hq : Fact q.Prime] {E : Type} [AddCommGroup E] [Module (ZMod q) E] [DecidableEq E]

/-- The plaintext that the second party encrypts: `w1 * m + w2 * r + w3 * q`. -/
def zkEcdsaPlain (q : ℕ) (m r w1 w2 w3 : ℤ) : ℤ := w1 * m + w2 * r + w3 * q

/-- `enc(temp, r_enc) + w1 * c_key_tag` without rerandomisation. -/
def zkEcdsaCipher (paillier : Paillier) (vartime : Bool)
    (plain rand w1 cKeyTag : ℤ) : Outcome ℤ := do
  let enc ← paillier.encrypt vartime plain rand
  let scaled ← paillier.mulScalar cKeyTag w1
  modMul vartime paillier.NN enc scaled

/-- `zk_ecdsa_sign_2pc_integer_commit_t::prove`. -/
def zkEcdsaProve (hash : ZkEcdsaHash E) (paillier : Paillier) (cKey c : ℤ)
    (Q2 R2 : E) (m r k2 x2 rho rc : ℤ) (sid : List (Fin 256)) (aux : ℕ) (ω : ZkEcdsaRandomness q) :
    Outcome (ZkEcdsaProof E) := do
  let cKeyTag ← paillier.mulScalar cKey r
  let w1 ← modInvCt q k2
  let w2 ← modMul false q w1 x2
  let W1 ← intCommit false w1 ω.r1W
  let W2 ← intCommit false w2 ω.r2W
  let W3 ← intCommit false rho ω.r3W
  let W1Tag ← intCommit false ω.w1Tag ω.r1WTag
  let W2Tag ← intCommit false ω.w2Tag ω.r2WTag
  let W3Tag ← intCommit false ω.w3Tag ω.r3WTag
  let GTag := (ω.w1Tag : ZMod q) • R2
  let Q2Tag := (ω.w2Tag : ZMod q) • R2
  require (decide (Int.gcd ω.rEnc paillier.N = 1)) .crypto
  let cEncTag ← zkEcdsaCipher paillier false
    (zkEcdsaPlain q m r ω.w1Tag ω.w2Tag ω.w3Tag) ω.rEnc ω.w1Tag cKeyTag
  let commitments : ZkEcdsaCommitments E := ⟨W1, W2, W3, W1Tag, W2Tag, W3Tag, GTag, Q2Tag, cEncTag⟩
  let e : ℤ := (hash ⟨paillier.N, cKey, c, Q2, R2, m, r, sid, aux⟩ commitments).val
  let rcE ← modPow paillier.N rc e
  let rEncTagTag ← modMul false paillier.N ω.rEnc rcE
  .ok { commitments with
    e
    w1TagTag := ω.w1Tag + e * w1
    w2TagTag := ω.w2Tag + e * w2
    w3TagTag := ω.w3Tag + e * rho
    r1WTagTag := ω.r1WTag + e * ω.r1W
    r2WTagTag := ω.r2WTag + e * ω.r2W
    r3WTagTag := ω.r3WTag + e * ω.r3W
    rEncTagTag }

/-- One of the three equations between commitments. -/
def checkCommitment (w r e W WTag : ℤ) : Outcome Unit := do
  let left ← intCommit true w r
  let We ← modPow pedersenN W e
  let right ← modMul true pedersenN WTag We
  require (decide (left = right)) .crypto

/-- `zk_ecdsa_sign_2pc_integer_commit_t::verify`. -/
def zkEcdsaVerify (hash : ZkEcdsaHash E) (curve : Curve q E) (paillier : Paillier)
    (cKey c : ℤ) (Q2 R2 : E) (m r : ℤ) (sid : List (Fin 256)) (aux : ℕ)
    (π : ZkEcdsaProof E) : Outcome Unit := do
  let Q2 ← curveCheck false (.on Q2)
  let R2 ← curveCheck false (.on R2)
  let GTag ← curveCheck false (.on π.GTag)
  let Q2Tag ← curveCheck false (.on π.Q2Tag)
  require (decide
    (π.e = (hash ⟨paillier.N, cKey, c, Q2, R2, m, r, sid, aux⟩ π.toZkEcdsaCommitments).val)) .crypto
  let cKeyTag ← paillier.mulScalar cKey r
  checkRightOpenRange 0 π.r1WTagTag (pedersenN * 2 ^ (2 * secPStat + secPCom + 1))
  checkRightOpenRange 0 π.r2WTagTag (pedersenN * 2 ^ (2 * secPStat + secPCom + 1))
  checkRightOpenRange 0 π.r3WTagTag (pedersenN * 2 ^ (2 * secPStat + secPCom + 1))
  checkRightOpenRange 0 m q
  checkRightOpenRange 0 r q
  checkOpenRange 0 π.W1 pedersenN
  checkOpenRange 0 π.W2 pedersenN
  checkOpenRange 0 π.W3 pedersenN
  checkOpenRange 0 π.W1Tag pedersenN
  checkOpenRange 0 π.W2Tag pedersenN
  checkOpenRange 0 π.W3Tag pedersenN
  checkOpenRange 0 π.cEncTag paillier.NN
  checkOpenRange 0 cKey paillier.NN
  checkOpenRange 0 c paillier.NN
  checkRightOpenRange 0 π.w1TagTag (q * 2 ^ (secPStat + secPCom + 1))
  checkRightOpenRange 0 π.w2TagTag (q * 2 ^ (secPStat + secPCom + 1))
  checkRightOpenRange 0 π.w3TagTag ((q * q : ℕ) * 2 ^ (3 * secPStat + secPCom + 1))
  checkOpenRange 0 π.rEncTagTag paillier.N
  require (decide ((π.w1TagTag : ZMod q) • R2 = (π.e : ZMod q) • curve.generator + GTag)) .crypto
  require (decide ((π.w2TagTag : ZMod q) • R2 = (π.e : ZMod q) • Q2 + Q2Tag)) .crypto
  checkCommitment π.w1TagTag π.r1WTagTag π.e π.W1 π.W1Tag
  checkCommitment π.w2TagTag π.r2WTagTag π.e π.W2 π.W2Tag
  checkCommitment π.w3TagTag π.r3WTagTag π.e π.W3 π.W3Tag
  let left ← zkEcdsaCipher paillier true
    (zkEcdsaPlain q m r π.w1TagTag π.w2TagTag π.w3TagTag) π.rEncTagTag π.w1TagTag
    cKeyTag
  let ce ← paillier.mulScalar c π.e
  let right ← modMul true paillier.NN π.cEncTag ce
  require (decide (left = right)) .crypto

/-- The responses are in the ranges that `verify` checks. -/
structure ZkEcdsaInRange (q N : ℕ) (π : ZkEcdsaProof E) : Prop where
  r1WTagTag : 0 ≤ π.r1WTagTag ∧ π.r1WTagTag < pedersenN * 2 ^ (2 * secPStat + secPCom + 1)
  r2WTagTag : 0 ≤ π.r2WTagTag ∧ π.r2WTagTag < pedersenN * 2 ^ (2 * secPStat + secPCom + 1)
  r3WTagTag : 0 ≤ π.r3WTagTag ∧ π.r3WTagTag < pedersenN * 2 ^ (2 * secPStat + secPCom + 1)
  w1TagTag : 0 ≤ π.w1TagTag ∧ π.w1TagTag < q * 2 ^ (secPStat + secPCom + 1)
  w2TagTag : 0 ≤ π.w2TagTag ∧ π.w2TagTag < q * 2 ^ (secPStat + secPCom + 1)
  w3TagTag : 0 ≤ π.w3TagTag ∧ π.w3TagTag < (q * q : ℕ) * 2 ^ (3 * secPStat + secPCom + 1)
  rEncTagTag : 0 < π.rEncTagTag ∧ π.rEncTagTag < N

/-- The last equation of `verify`. -/
def ZkEcdsaCipherEq (q : ℕ) (V : Paillier) (cKey c m r : ℤ) (π : ZkEcdsaProof E) : Prop :=
  ∃ cKeyTag left ce, V.mulScalar cKey r = .ok cKeyTag ∧
    zkEcdsaCipher V true (zkEcdsaPlain q m r π.w1TagTag π.w2TagTag π.w3TagTag) π.rEncTagTag
      π.w1TagTag cKeyTag = .ok left ∧
    V.mulScalar c π.e = .ok ce ∧ modMul true V.NN π.cEncTag ce = .ok left

/-- All that `verify` checks except that no point is infinite. -/
structure ZkEcdsaAccepted (hash : ZkEcdsaHash E) (curve : Curve q E) (V : Paillier)
    (cKey c : ℤ) (Q2 R2 : E) (m r : ℤ) (sid : List (Fin 256)) (aux : ℕ)
    (π : ZkEcdsaProof E) : Prop where
  challenge : π.e = (hash ⟨V.N, cKey, c, Q2, R2, m, r, sid, aux⟩ π.toZkEcdsaCommitments).val
  inRange : ZkEcdsaInRange q V.N π
  m_range : 0 ≤ m ∧ m < q
  r_range : 0 ≤ r ∧ r < q
  W_range : ∀ W ∈ [π.W1, π.W2, π.W3, π.W1Tag, π.W2Tag, π.W3Tag], 0 < W ∧ W < pedersenN
  cipher_range : ∀ v ∈ [π.cEncTag, cKey, c], 0 < v ∧ v < V.NN
  point1 : (π.w1TagTag : ZMod q) • R2 = (π.e : ZMod q) • curve.generator + π.GTag
  point2 : (π.w2TagTag : ZMod q) • R2 = (π.e : ZMod q) • Q2 + π.Q2Tag
  commit1 : checkCommitment π.w1TagTag π.r1WTagTag π.e π.W1 π.W1Tag = .ok ()
  commit2 : checkCommitment π.w2TagTag π.r2WTagTag π.e π.W2 π.W2Tag = .ok ()
  commit3 : checkCommitment π.w3TagTag π.r3WTagTag π.e π.W3 π.W3Tag = .ok ()
  cipher : ZkEcdsaCipherEq q V cKey c m r π

/-- The verifier accepts what passes its checks, unless one of the four points is infinite. -/
theorem zkEcdsaVerify_ok_iff {hash : ZkEcdsaHash E} {curve : Curve q E} {V : Paillier}
    {cKey c : ℤ} {Q2 R2 : E} {m r : ℤ} {sid : List (Fin 256)} {aux : ℕ} {π : ZkEcdsaProof E} :
    zkEcdsaVerify hash curve V cKey c Q2 R2 m r sid aux π = .ok () ↔
      (Q2 ≠ 0 ∧ R2 ≠ 0 ∧ π.GTag ≠ 0 ∧ π.Q2Tag ≠ 0) ∧
      ZkEcdsaAccepted hash curve V cKey c Q2 R2 m r sid aux π := by
  have hcipher : (∃ cKeyTag, V.mulScalar cKey r = .ok cKeyTag ∧ ∃ left,
      zkEcdsaCipher V true (zkEcdsaPlain q m r π.w1TagTag π.w2TagTag π.w3TagTag) π.rEncTagTag
        π.w1TagTag cKeyTag = .ok left ∧
      ∃ ce, V.mulScalar c π.e = .ok ce ∧ ∃ right,
        modMul true V.NN π.cEncTag ce = .ok right ∧ left = right) ↔
      ZkEcdsaCipherEq q V cKey c m r π := by
    constructor
    · rintro ⟨cKeyTag, hcK, left, hleft, ce, hce, right, hright, rfl⟩
      exact ⟨cKeyTag, left, ce, hcK, hleft, hce, hright⟩
    · rintro ⟨cKeyTag, left, ce, hcK, hleft, hce, hright⟩
      exact ⟨cKeyTag, hcK, left, hleft, ce, hce, left, hright, rfl⟩
  unfold zkEcdsaVerify
  simp only [curveCheck_bind_ok_iff, unit_bind_ok_iff, checkOpenRange_ok_iff,
    checkRightOpenRange_ok_iff, bind_ok_iff (α := ℤ), require_ok_iff, decide_eq_true_iff]
  constructor
  · rintro ⟨hQ2, hR2, hG, hQ2T, he, cKeyTag, hcK, hr1, hr2, hr3, hm, hr, hW1, hW2, hW3, hW1T, hW2T,
      hW3T, hcE, hcKey, hc, hw1, hw2, hw3, hrE, hp1, hp2, hc1, hc2, hc3, left, hleft, ce, hce,
      right, hright, heq⟩
    refine ⟨⟨hQ2, hR2, hG, hQ2T⟩, he, ⟨hr1, hr2, hr3, hw1, hw2, hw3, hrE⟩, hm, hr, ?_, ?_, hp1, hp2,
      hc1, hc2, hc3, hcipher.mp ⟨cKeyTag, hcK, left, hleft, ce, hce, right, hright, heq⟩⟩
    · simp only [List.forall_mem_cons]
      exact ⟨hW1, hW2, hW3, hW1T, hW2T, hW3T, by simp⟩
    · simp only [List.forall_mem_cons]
      exact ⟨hcE, hcKey, hc, by simp⟩
  · rintro ⟨⟨hQ2, hR2, hG, hQ2T⟩, h⟩
    obtain ⟨cKeyTag, hcK, left, hleft, ce, hce, right, hright, heq⟩ := hcipher.mpr h.cipher
    have hW := h.W_range
    have hv := h.cipher_range
    simp only [List.forall_mem_cons] at hW hv
    obtain ⟨hW1, hW2, hW3, hW1T, hW2T, hW3T, -⟩ := hW
    obtain ⟨hcE, hcKey, hc, -⟩ := hv
    exact ⟨hQ2, hR2, hG, hQ2T, h.challenge, cKeyTag, hcK, h.inRange.r1WTagTag, h.inRange.r2WTagTag,
      h.inRange.r3WTagTag, h.m_range, h.r_range, hW1, hW2, hW3, hW1T, hW2T, hW3T, hcE, hcKey, hc,
      h.inRange.w1TagTag, h.inRange.w2TagTag, h.inRange.w3TagTag, h.inRange.rEncTagTag, h.point1,
      h.point2, h.commit1, h.commit2, h.commit3, left, hleft, ce, hce, right, hright, heq⟩

/-- The commitment to `w` with the randomness `r`. -/
def commitment (w r : ℤ) : ℤ := pedersenG ^ w.toNat * pedersenH ^ r.toNat % pedersenN

theorem intCommit_eq (vartime : Bool) {w r : ℤ} (hw : 0 ≤ w) (hr : 0 ≤ r) :
    intCommit vartime w r = .ok (commitment w r) := by
  have hpos : 0 < pedersenN := by have := one_lt_pedersenN; omega
  rw [intCommit, modPow_eq _ hw, ok_bind, modPow_eq _ hr, ok_bind, modMul,
    modOp_eq_emod _ _ (isInRange_emod hpos _) (isInRange_emod hpos _), commitment, ← Int.mul_emod]

theorem commitment_range (w r : ℤ) : 0 < commitment w r ∧ commitment w r < pedersenN := by
  have hpos := one_lt_pedersenN
  have hrange := (isInRange_iff _).mp
    (isInRange_emod (m := pedersenN) (by omega) (pedersenG ^ w.toNat * pedersenH ^ r.toNat))
  have hgcd : Int.gcd (commitment w r) pedersenN = 1 := by
    rw [commitment, Int.gcd_emod, ← Int.isCoprime_iff_gcd_eq_one]
    exact ((Int.isCoprime_iff_gcd_eq_one.mpr gcd_pedersenG).pow_left).mul_left
      ((Int.isCoprime_iff_gcd_eq_one.mpr gcd_pedersenH).pow_left)
  have hne : commitment w r ≠ 0 := by
    intro h
    rw [h, Int.gcd_zero_left, Int.natAbs_natCast] at hgcd
    omega
  rw [commitment] at hne ⊢
  omega

/-- The answer to the challenge `e` opens the product of the commitments. -/
theorem commitment_add_mul {w r w' r' e : ℤ} (hw : 0 ≤ w) (hr : 0 ≤ r) (hw' : 0 ≤ w')
    (hr' : 0 ≤ r') (he : 0 ≤ e) :
    checkCommitment (w' + e * w) (r' + e * r) e (commitment w r) (commitment w' r') = .ok () := by
  have hpos : 0 < pedersenN := by have := one_lt_pedersenN; omega
  have heq : commitment (w' + e * w) (r' + e * r) =
      commitment w' r' * (commitment w r ^ e.toNat % pedersenN) % pedersenN := by
    lift w to ℕ using hw
    lift r to ℕ using hr
    lift w' to ℕ using hw'
    lift r' to ℕ using hr'
    lift e to ℕ using he
    have h1 : ((w' : ℤ) + e * w).toNat = w' + e * w := by
      exact_mod_cast Int.toNat_natCast (w' + e * w)
    have h2 : ((r' : ℤ) + e * r).toNat = r' + e * r := by
      exact_mod_cast Int.toNat_natCast (r' + e * r)
    refine eq_of_isInRange (isInRange_emod hpos _) (isInRange_emod hpos _) ?_
    simp only [commitment, cast_emod, h1, h2, Int.cast_mul, Int.cast_pow, Int.toNat_natCast]
    ring
  have hsum : 0 ≤ w' + e * w := by positivity
  have hsum' : 0 ≤ r' + e * r := by positivity
  have hmul : modMul true pedersenN (commitment w' r') (commitment w r ^ e.toNat % pedersenN) =
      .ok (commitment w' r' * (commitment w r ^ e.toNat % pedersenN) % pedersenN) := rfl
  rw [checkCommitment, intCommit_eq true hsum hsum', ok_bind, modPow_eq _ he, ok_bind, hmul,
    ok_bind, heq]
  simp

/-- Adding the product of a challenge and a secret costs the mask one bit at most. -/
theorem mask_range {a e w B : ℤ} {k : ℕ} (ha : 0 ≤ a ∧ a < B * 2 ^ k)
    (he : 0 ≤ e ∧ e < 2 ^ secPCom) (hw0 : 0 ≤ w) (hw : 2 ^ secPCom * w ≤ B * 2 ^ k) :
    0 ≤ a + e * w ∧ a + e * w < B * 2 ^ (k + 1) := by
  have hew : e * w ≤ 2 ^ secPCom * w := mul_le_mul_of_nonneg_right he.2.le hw0
  have hpos : 0 ≤ e * w := mul_nonneg he.1 hw0
  have hpow : B * 2 ^ (k + 1) = B * 2 ^ k + B * 2 ^ k := by ring
  constructor
  · omega
  · rw [hpow]
    omega

theorem challenge_mul_le {B w : ℤ} {j k : ℕ} (hB : 0 ≤ B) (hw : w < B * 2 ^ j)
    (hjk : j + secPCom ≤ k) :
    2 ^ secPCom * w ≤ B * 2 ^ k :=
  calc 2 ^ secPCom * w ≤ 2 ^ secPCom * (B * 2 ^ j) :=
    mul_le_mul_of_nonneg_left hw.le (by positivity)
    _ = B * 2 ^ (j + secPCom) := by
      rw [pow_add]
      ring
    _ ≤ B * 2 ^ k := mul_le_mul_of_nonneg_left (pow_le_pow_right₀ (by norm_num) hjk) hB

/-- The check on the size of the modulus leaves room for three factors of the order and the
masks. -/
theorem PaillierKey.cube_le (key : PaillierKey) {q : ℕ}
    (hsize : 3 * q.size + 3 * secPStat + secPCom + 1 ≤ key.N.size) :
    q ^ 3 * 2 ^ (3 * secPStat + secPCom + 2) ≤ key.N := by
  have hq3 : q ^ 3 ≤ 2 ^ (3 * q.size) := by
    rw [mul_comm, pow_mul]
    exact Nat.pow_le_pow_left (Nat.lt_size_self q).le 3
  have hbits : key.N.size = paillierBits := key.bits
  have hexp : 3 * q.size + (3 * secPStat + secPCom + 2) ≤ paillierBits - 1 := by
    rw [hbits, paillierBits_eq, secPStat, secPCom] at hsize
    rw [paillierBits_eq, secPStat, secPCom]
    omega
  calc q ^ 3 * 2 ^ (3 * secPStat + secPCom + 2)
      ≤ 2 ^ (3 * q.size) * 2 ^ (3 * secPStat + secPCom + 2) := Nat.mul_le_mul_right _ hq3
    _ = 2 ^ (3 * q.size + (3 * secPStat + secPCom + 2)) := (pow_add 2 _ _).symm
    _ ≤ 2 ^ (paillierBits - 1) := Nat.pow_le_pow_right (by norm_num) hexp
    _ ≤ key.N := key.le_N

theorem zkEcdsaPlain_lt {q N : ℕ}
    (hN : q ^ 3 * 2 ^ (3 * secPStat + secPCom + 2) ≤ N) {m r w1 w2 w3 : ℤ} (hm : 0 ≤ m ∧ m < q)
    (hr : 0 ≤ r ∧ r < q) (hw1 : 0 ≤ w1 ∧ w1 < q * 2 ^ (secPStat + secPCom + 1))
    (hw2 : 0 ≤ w2 ∧ w2 < q * 2 ^ (secPStat + secPCom + 1))
    (hw3 : 0 ≤ w3 ∧ w3 < (q * q : ℕ) * 2 ^ (3 * secPStat + secPCom + 1)) :
    0 ≤ zkEcdsaPlain q m r w1 w2 w3 ∧ zkEcdsaPlain q m r w1 w2 w3 < N := by
  have hq0 : (0 : ℤ) < q := by omega
  have hA : (0 : ℤ) < 2 ^ (secPStat + secPCom + 1) := by positivity
  have hAB : 2 * (2 : ℤ) ^ (secPStat + secPCom + 1) ≤ 2 ^ (3 * secPStat + secPCom + 1) := by
    rw [← pow_succ']
    exact pow_le_pow_right₀ (by norm_num) (by rw [secPStat]; omega)
  have hNZ : (q : ℤ) ^ 3 * (2 * 2 ^ (3 * secPStat + secPCom + 1)) ≤ N := by
    have h := Int.ofNat_le.mpr hN
    rw [Nat.cast_mul, Nat.cast_pow, Nat.cast_pow, Nat.cast_ofNat] at h
    rwa [← pow_succ']
  generalize (2 : ℤ) ^ (secPStat + secPCom + 1) = A at *
  generalize (2 : ℤ) ^ (3 * secPStat + secPCom + 1) = B at *
  push_cast at hw3
  have h1 : w1 * m ≤ q * A * q := mul_le_mul hw1.2.le hm.2.le hm.1 (by positivity)
  have h2 : w2 * r ≤ q * A * q := mul_le_mul hw2.2.le hr.2.le hr.1 (by positivity)
  have h3 : w3 * q < q * q * B * q := mul_lt_mul_of_pos_right hw3.2 hq0
  have hsq : (q : ℤ) * A * q * 2 ≤ q * q * B * q := by
    have hBq : B ≤ B * q := le_mul_of_one_le_right (by omega) hq0
    have hmul := mul_le_mul_of_nonneg_left (le_trans hAB hBq) (mul_pos hq0 hq0).le
    linarith
  have hp1 := mul_nonneg hw1.1 hm.1
  have hp2 := mul_nonneg hw2.1 hr.1
  have hp3 := mul_nonneg hw3.1 hq0.le
  simp only [zkEcdsaPlain]
  constructor
  · omega
  · linarith

/-- The ciphertext that both sides of the last equation are made of. -/
theorem zkEcdsaCipher_eq {key : PaillierKey} {P : Paillier} (hP : P.N = key.N)
    (vartime : Bool) (cKeyTag : ℤ) {plain rand w : ℤ} (hp : 0 ≤ plain ∧ plain < key.N)
    (hr : 0 ≤ rand ∧ rand < (key.N * key.N : ℕ)) (hgcd : Int.gcd rand key.N = 1) (hw : 0 ≤ w) :
    ∃ v, zkEcdsaCipher P vartime plain rand w cKeyTag = .ok v ∧ isInRange (key.N * key.N) v = true ∧
      (v : ZMod (key.N * key.N)) =
        (rand : ZMod (key.N * key.N)) ^ key.N * (1 + plain * key.N) *
          (cKeyTag : ZMod (key.N * key.N)) ^ w.toNat := by
  refine ⟨key.cipher plain rand * (cKeyTag ^ w.toNat % (key.N * key.N : ℕ)) % (key.N * key.N : ℕ),
    ?_, isInRange_emod key.NN_pos _, ?_⟩
  · rw [zkEcdsaCipher, PaillierKey.encrypt_eq hP vartime hp.1 hp.2 hr.1 hr.2 hgcd, ok_bind,
      Paillier.mulScalar, modPow_eq _ hw, ok_bind, Paillier.NN, hP, modMul,
      modOp_eq_emod _ _ (PaillierPrimes.encrypts_cipher plain hgcd).1 (isInRange_emod key.NN_pos _)]
  · rw [cast_emod, Int.cast_mul, cast_emod, Int.cast_pow, PaillierPrimes.cast_cipher]

/-- The two sides of the last equation of `verify`, for an answer to the challenge `e`. -/
theorem cipher_equation {N : ℕ} {cKey rEnc rc rEnc' : ℤ} {plain plain' : ℤ} {r w w' e : ℕ}
    (hr : (rEnc' : ZMod N) = (rEnc * rc ^ e : ℤ)) :
    (rEnc' : ZMod (N * N)) ^ N * (1 + (plain' + e * plain : ℤ) * N) *
      ((cKey : ZMod (N * N)) ^ r) ^ (w' + e * w) =
      (rEnc : ZMod (N * N)) ^ N * (1 + plain' * N) * ((cKey : ZMod (N * N)) ^ r) ^ w' *
        ((cKey : ZMod (N * N)) ^ (w * r) * ((rc : ZMod (N * N)) ^ N * (1 + plain * N))) ^ e := by
  have hplain : (1 + ((plain' + e * plain : ℤ) : ZMod (N * N)) * N) =
      (1 + plain' * N) * (1 + plain * N) ^ e := by
    rw [one_add_pow, one_add_mul_one_add]
    push_cast
    ring
  rw [PaillierPrimes.pow_modulus_congr hr, hplain, Int.cast_mul, Int.cast_pow]
  generalize (1 + (plain : ZMod (N * N)) * N) = v
  ring

/-- What `prove` is given: a ciphertext built from the integers behind two points. -/
structure ZkEcdsaInputs (key : PaillierKey) (cKey c m r rho rc : ℤ) (k2 x2 : ZMod q) : Prop where
  size_N : 3 * q.size + 3 * secPStat + secPCom + 1 ≤ key.N.size
  cKey_range : isInRange (key.N * key.N) cKey = true
  gcd_cKey : Int.gcd cKey key.N = 1
  k2_ne_zero : k2 ≠ 0
  m_range : 0 ≤ m ∧ m < q
  r_range : 0 ≤ r ∧ r < q
  rho_range : 0 ≤ rho ∧ rho < (q * q : ℕ) * 2 ^ (2 * secPStat)
  gcd_rc : Int.gcd rc key.N = 1
  c_range : isInRange (key.N * key.N) c = true
  c_eq : (c : ZMod (key.N * key.N)) =
    (cKey : ZMod (key.N * key.N)) ^ ((residue k2⁻¹).toNat * r.toNat) *
      ((rc : ZMod (key.N * key.N)) ^ key.N *
        (1 + (zkEcdsaPlain q m r (residue k2⁻¹) (residue (k2⁻¹ * x2)) rho : ℤ) * key.N))

theorem ZkEcdsaInputs.isUnit_c {key : PaillierKey} {cKey c m r rho rc : ℤ} {k2 x2 : ZMod q}
    (h : ZkEcdsaInputs key cKey c m r rho rc k2 x2) : IsUnit (c : ZMod (key.N * key.N)) := by
  rw [h.c_eq]
  exact (((key.isUnit_cast_iff _).mpr h.gcd_cKey).pow _).mul
    ((((key.isUnit_cast_iff _).mpr h.gcd_rc).pow _).mul (isUnit_one_add _))

omit [DecidableEq E] in
/-- The two equations between points, for the answer to the challenge `e`. -/
theorem point_answer (curve : Curve q E) {k2 : ZMod q} (hk2 : k2 ≠ 0) (y : ZMod q) (a e : ℤ) :
    ((a + e * residue (k2⁻¹ * y) : ℤ) : ZMod q) • k2 • curve.generator =
      (e : ZMod q) • y • curve.generator + (a : ZMod q) • k2 • curve.generator := by
  rw [smul_smul, smul_smul, smul_smul, ← add_smul]
  congr 1
  push_cast
  rw [cast_residue]
  field_simp
  ring

/-- Sampling below a bound leaves room below twice the bound. -/
theorem mask_lt_double {a B : ℤ} {k : ℕ} (hB : 0 ≤ B) (ha : 0 ≤ a ∧ a < B * 2 ^ k) :
    0 ≤ a ∧ a < B * 2 ^ (k + 1) := by
  have hle : B * 2 ^ k ≤ B * 2 ^ (k + 1) :=
    mul_le_mul_of_nonneg_left (pow_le_pow_right₀ (by norm_num) (by omega)) hB
  omega

omit hq [AddCommGroup E] [Module (ZMod q) E] [DecidableEq E] in
/-- The answers to a challenge are in range, for secrets within the bounds that the masks are made
for. -/
theorem zkEcdsa_inRange {N : ℕ} {com : ZkEcdsaCommitments E} {e w1 w2 w3 rEnc : ℤ}
    (ω : ZkEcdsaRandomness q) (he : 0 ≤ e ∧ e < 2 ^ secPCom)
    (hw1 : 0 ≤ w1 ∧ w1 < q) (hw2 : 0 ≤ w2 ∧ w2 < q)
    (hw3 : 0 ≤ w3 ∧ w3 < (q * q : ℕ) * 2 ^ (2 * secPStat)) (hrEnc : 0 < rEnc ∧ rEnc < N) :
    ZkEcdsaInRange q N (⟨com, e, ω.w1Tag + e * w1, ω.w2Tag + e * w2, ω.w3Tag + e * w3,
      ω.r1WTag + e * ω.r1W, ω.r2WTag + e * ω.r2W, ω.r3WTag + e * ω.r3W,
      rEnc⟩ : ZkEcdsaProof E) := by
  have hq0 : (0 : ℤ) ≤ q := Int.natCast_nonneg q
  have hp0 : (0 : ℤ) ≤ pedersenN := Int.natCast_nonneg _
  refine ⟨?_, ?_, ?_, ?_, ?_, ?_, hrEnc⟩
  · exact mask_range ω.r1WTag_range he ω.r1W_range.1
      (challenge_mul_le hp0 ω.r1W_range.2 (by rw [secPStat]; omega))
  · exact mask_range ω.r2WTag_range he ω.r2W_range.1
      (challenge_mul_le hp0 ω.r2W_range.2 (by rw [secPStat]; omega))
  · exact mask_range ω.r3WTag_range he ω.r3W_range.1
      (challenge_mul_le hp0 ω.r3W_range.2 (by rw [secPStat]; omega))
  · exact mask_range ω.w1Tag_range he hw1.1
      (challenge_mul_le (j := 0) hq0 (by simpa using hw1.2) (by rw [secPStat]; omega))
  · exact mask_range ω.w2Tag_range he hw2.1
      (challenge_mul_le (j := 0) hq0 (by simpa using hw2.2) (by rw [secPStat]; omega))
  · exact mask_range ω.w3Tag_range he hw3.1
      (challenge_mul_le (Int.natCast_nonneg _) hw3.2 (by rw [secPStat]; omega))

/-- The randomness of the answer: a unit again, and congruent to what it is the product of. -/
theorem zkEcdsa_randomness {key : PaillierKey} {P : Paillier} (hP : P.N = key.N) {r rc : ℤ}
    (hr : 0 ≤ r ∧ r < key.N) (hgcd : Int.gcd r key.N = 1) (hrc : Int.gcd rc key.N = 1) (e : ℕ) :
    ∃ rcE v, modPow P.N rc e = .ok rcE ∧ modMul false P.N r rcE = .ok v ∧
      (0 < v ∧ v < key.N) ∧ Int.gcd v key.N = 1 ∧ (v : ZMod key.N) = (r * rc ^ e : ℤ) := by
  have hN0 : 0 < key.N := by have := key.one_lt_N; omega
  have hunit := PaillierPrimes.gcd_mul_emod hgcd (PaillierPrimes.gcd_pow_emod hrc e)
  have hrange := (isInRange_iff _).mp (isInRange_emod hN0 (r * (rc ^ e % key.N)))
  refine ⟨rc ^ e % key.N, r * (rc ^ e % key.N) % key.N, ?_, ?_,
    ⟨PaillierPrimes.pos_of_gcd hrange.1 hunit, hrange.2⟩, hunit, ?_⟩
  · rw [modPow_eq _ (Int.natCast_nonneg e), hP, Int.toNat_natCast]
  · rw [modMul, hP, modOp_eq_emod _ _ ((isInRange_iff _).mpr hr) (isInRange_emod hN0 _)]
  · rw [cast_emod, Int.cast_mul, cast_emod, ← Int.cast_mul]

/-- The ciphertext of the answers is that of the masks times a power of the given one. -/
theorem ZkEcdsaInputs.cipher_answer {key : PaillierKey} {cKey c m r rho rc : ℤ} {k2 x2 : ZMod q}
    (h : ZkEcdsaInputs key cKey c m r rho rc k2 x2) {cKeyTag cEncTag rEnc rEnc' w1 w2 w3 : ℤ}
    {e : ℕ} (hw1 : 0 ≤ w1)
    (hcK : (cKeyTag : ZMod (key.N * key.N)) = (cKey : ZMod (key.N * key.N)) ^ r.toNat)
    (hcEnc : (cEncTag : ZMod (key.N * key.N)) = (rEnc : ZMod (key.N * key.N)) ^ key.N *
      (1 + (zkEcdsaPlain q m r w1 w2 w3 : ℤ) * key.N) *
        (cKeyTag : ZMod (key.N * key.N)) ^ w1.toNat)
    (hr : (rEnc' : ZMod key.N) = (rEnc * rc ^ e : ℤ)) :
    (rEnc' : ZMod (key.N * key.N)) ^ key.N *
      (1 + (zkEcdsaPlain q m r (w1 + e * residue k2⁻¹) (w2 + e * residue (k2⁻¹ * x2))
        (w3 + e * rho) : ℤ) * key.N) *
        (cKeyTag : ZMod (key.N * key.N)) ^ (w1 + e * residue k2⁻¹).toNat =
      (cEncTag : ZMod (key.N * key.N)) * (c : ZMod (key.N * key.N)) ^ e := by
  have he : (0 : ℤ) ≤ e := Int.natCast_nonneg e
  have hw0 := ((isInRange_iff _).mp (isInRange_residue (q := q) k2⁻¹)).1
  have hexp : (w1 + e * residue k2⁻¹).toNat = w1.toNat + e * (residue k2⁻¹).toNat := by
    rw [Int.toNat_add hw1 (mul_nonneg he hw0), Int.toNat_mul he hw0, Int.toNat_natCast]
  have hplain : zkEcdsaPlain q m r (w1 + e * residue k2⁻¹) (w2 + e * residue (k2⁻¹ * x2))
      (w3 + e * rho) = zkEcdsaPlain q m r w1 w2 w3 +
        (e : ℕ) * zkEcdsaPlain q m r (residue k2⁻¹) (residue (k2⁻¹ * x2)) rho := by
    simp only [zkEcdsaPlain]
    ring
  rw [hexp, hplain, hcK, cipher_equation hr, hcEnc, hcK, h.c_eq]

omit [DecidableEq E] in
/-- An honest proof passes every check that is not about an infinite point. -/
theorem zkEcdsa_honest {key : PaillierKey} {cKey c m r rho rc : ℤ} {k2 x2 : ZMod q}
    (h : ZkEcdsaInputs key cKey c m r rho rc k2 x2) (hash : ZkEcdsaHash E)
    (curve : Curve q E) {P V : Paillier} (hP : P.N = key.N) (hV : V.N = key.N)
    (sid : List (Fin 256)) (aux : ℕ) (ω : ZkEcdsaRandomness q)
    (hrEncR : 0 ≤ ω.rEnc ∧ ω.rEnc < key.N) (hrEnc : Int.gcd ω.rEnc key.N = 1) :
    ∃ π, zkEcdsaProve hash P cKey c (x2 • curve.generator) (k2 • curve.generator) m r
      (residue k2) (residue x2) rho rc
        sid aux ω = .ok π ∧
      ZkEcdsaAccepted hash curve V cKey c (x2 • curve.generator)
        (k2 • curve.generator) m r sid aux π ∧
      π.GTag = (ω.w1Tag : ZMod q) • k2 • curve.generator ∧
      π.Q2Tag = (ω.w2Tag : ZMod q) • k2 • curve.generator := by
  have hcube := key.cube_le h.size_N
  have hw1R := (isInRange_iff _).mp (isInRange_residue (q := q) k2⁻¹)
  have hw2R := (isInRange_iff _).mp (isInRange_residue (q := q) (k2⁻¹ * x2))
  have hr0 := h.r_range.1
  have hN1 := key.one_lt_N
  have hNN := key.N_lt_NN
  have hcKeyU : IsUnit (cKey : ZMod (key.N * key.N)) := (key.isUnit_cast_iff _).mpr h.gcd_cKey
  have hcK : ∀ {Q : Paillier}, Q.N = key.N →
      Q.mulScalar cKey r = .ok (cKey ^ r.toNat % (key.N * key.N : ℕ)) := by
    intro Q hQ
    rw [Paillier.mulScalar, modPow_eq _ hr0, Paillier.NN, hQ]
  have hcKc : ((cKey ^ r.toNat % (key.N * key.N : ℕ) : ℤ) : ZMod (key.N * key.N)) =
      (cKey : ZMod (key.N * key.N)) ^ r.toNat := by
    rw [cast_emod, Int.cast_pow]
  generalize cKey ^ r.toNat % ((key.N * key.N : ℕ) : ℤ) = cKeyTag at hcK hcKc
  -- The first message, and the challenge.
  obtain ⟨cEncTag, hcEnc, hcEncR, hcEncC⟩ := zkEcdsaCipher_eq hP false cKeyTag
    (zkEcdsaPlain_lt hcube h.m_range h.r_range (mask_lt_double (Int.natCast_nonneg q) ω.w1Tag_range)
      (mask_lt_double (Int.natCast_nonneg q) ω.w2Tag_range)
        (mask_lt_double (Int.natCast_nonneg _) ω.w3Tag_range))
    ⟨hrEncR.1, by omega⟩ hrEnc ω.w1Tag_range.1
  generalize hcom :
    (⟨commitment (residue k2⁻¹) ω.r1W, commitment (residue (k2⁻¹ * x2)) ω.r2W, commitment rho ω.r3W,
    commitment ω.w1Tag ω.r1WTag, commitment ω.w2Tag ω.r2WTag, commitment ω.w3Tag ω.r3WTag,
    (ω.w1Tag : ZMod q) • k2 • curve.generator, (ω.w2Tag : ZMod q) • k2 • curve.generator, cEncTag⟩ :
      ZkEcdsaCommitments E) = com
  generalize hch : hash ⟨key.N, cKey, c, x2 • curve.generator, k2 • curve.generator, m, r, sid,
    aux⟩ com = ch
  have he : (0 : ℤ) ≤ ch.val ∧ (ch.val : ℤ) < 2 ^ secPCom :=
    ⟨Int.natCast_nonneg _, by exact_mod_cast ch.isLt⟩
  -- The combined randomness is a unit again.
  obtain ⟨rcE, rEncTagTag, hrcE, hrE, hrER, hrEG, hrEC⟩ :=
    zkEcdsa_randomness hP hrEncR hrEnc h.gcd_rc ch.val
  have hin : ZkEcdsaInRange q key.N
      (⟨com, ch.val, ω.w1Tag + ch.val * residue k2⁻¹, ω.w2Tag + ch.val * residue (k2⁻¹ * x2),
      ω.w3Tag + ch.val * rho, ω.r1WTag + ch.val * ω.r1W, ω.r2WTag + ch.val * ω.r2W,
      ω.r3WTag + ch.val * ω.r3W, rEncTagTag⟩ :
      ZkEcdsaProof E) := zkEcdsa_inRange ω he hw1R hw2R h.rho_range hrER
  obtain ⟨left, hleft, hleftR, hleftC⟩ := zkEcdsaCipher_eq hV true cKeyTag
    (zkEcdsaPlain_lt hcube h.m_range h.r_range hin.w1TagTag hin.w2TagTag hin.w3TagTag)
      ⟨hrER.1.le, by omega⟩ hrEG hin.w1TagTag.1
  have hpos : ∀ {v : ℤ}, isInRange (key.N * key.N) v = true →
      IsUnit (v : ZMod (key.N * key.N)) → 0 < v ∧ v < V.NN := by
    intro v hv hunit
    have hrange := (isInRange_iff v).mp hv
    rw [Paillier.NN, hV]
    exact ⟨PaillierPrimes.pos_of_gcd hrange.1 ((key.isUnit_cast_iff v).mp hunit), hrange.2⟩
  have hcEncU : IsUnit (cEncTag : ZMod (key.N * key.N)) := by
    rw [hcEncC, hcKc]
    exact ((((key.isUnit_cast_iff _).mpr hrEnc).pow _).mul (isUnit_one_add _)).mul
      ((hcKeyU.pow _).pow _)
  have hce : V.mulScalar c ch.val = .ok (c ^ ch.val % (key.N * key.N : ℕ)) := by
    rw [Paillier.mulScalar, modPow_eq _ he.1, Paillier.NN, hV, Int.toNat_natCast]
  have hequal : left = cEncTag * (c ^ ch.val % (key.N * key.N : ℕ)) % (key.N * key.N : ℕ) := by
    refine eq_of_isInRange hleftR (isInRange_emod key.NN_pos _) ?_
    rw [hleftC, h.cipher_answer ω.w1Tag_range.1 hcKc hcEncC hrEC, cast_emod, Int.cast_mul,
      cast_emod, Int.cast_pow]
  have hright : modMul true V.NN cEncTag (c ^ ch.val % (key.N * key.N : ℕ)) = .ok left := by
    rw [modMul, Paillier.NN, hV, hequal]
    rfl
  refine ⟨⟨com, ch.val, ω.w1Tag + ch.val * residue k2⁻¹, ω.w2Tag + ch.val * residue (k2⁻¹ * x2),
    ω.w3Tag + ch.val * rho, ω.r1WTag + ch.val * ω.r1W, ω.r2WTag + ch.val * ω.r2W,
    ω.r3WTag + ch.val * ω.r3W, rEncTagTag⟩, ?_, ?_, ?_, ?_⟩
  · simp only [zkEcdsaProve, hcK hP, ok_bind, modInvCt_residue h.k2_ne_zero, modMul_residue,
      intCommit_eq false hw1R.1
      ω.r1W_range.1, intCommit_eq false hw2R.1 ω.r2W_range.1,
      intCommit_eq false h.rho_range.1 ω.r3W_range.1,
      intCommit_eq false ω.w1Tag_range.1 ω.r1WTag_range.1,
      intCommit_eq false ω.w2Tag_range.1 ω.r2WTag_range.1,
      intCommit_eq false ω.w3Tag_range.1 ω.r3WTag_range.1, hP, hrEnc, decide_true, require_true,
      hcEnc, hcom, hch]
    rw [hP] at hrcE hrE
    rw [hrcE, ok_bind, hrE, ok_bind]
  · refine ⟨?_, hV.symm ▸ hin, h.m_range, h.r_range, ?_, ?_, ?_, ?_, ?_, ?_, ?_, cKeyTag, left, _,
      hcK hV, hleft, hce, ?_⟩
    · simp only [hV, hch]
    · subst hcom
      simp only [List.forall_mem_cons]
      exact ⟨commitment_range _ _, commitment_range _ _, commitment_range _ _, commitment_range _ _,
        commitment_range _ _, commitment_range _ _, by simp⟩
    · subst hcom
      simp only [List.forall_mem_cons]
      exact ⟨hpos hcEncR hcEncU, hpos h.cKey_range hcKeyU, hpos h.c_range h.isUnit_c, by simp⟩
    · subst hcom
      have hpoint := point_answer curve h.k2_ne_zero 1 ω.w1Tag ch.val
      rwa [mul_one, one_smul] at hpoint
    · subst hcom
      exact point_answer curve h.k2_ne_zero x2 ω.w2Tag ch.val
    · subst hcom
      exact commitment_add_mul hw1R.1 ω.r1W_range.1 ω.w1Tag_range.1 ω.r1WTag_range.1 he.1
    · subst hcom
      exact commitment_add_mul hw2R.1 ω.r2W_range.1 ω.w2Tag_range.1 ω.r2WTag_range.1 he.1
    · subst hcom
      exact commitment_add_mul h.rho_range.1 ω.r3W_range.1 ω.w3Tag_range.1 ω.r3WTag_range.1 he.1
    · subst hcom
      exact hright
  · subst hcom
    rfl
  · subst hcom
    rfl

omit [DecidableEq E] in
theorem smul_smul_generator_ne_zero (curve : Curve q E) {k2 : ZMod q} (hk2 : k2 ≠ 0) {w : ZMod q} :
    w • k2 • curve.generator ≠ 0 ↔ w ≠ 0 := by
  rw [smul_smul, ne_eq, smul_generator_eq_zero, mul_eq_zero, or_iff_left hk2]

end CbMpc
