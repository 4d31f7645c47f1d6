import CbMpc.HeldKeys2p

/-!
# Hierarchical key derivation of two parties

A hardened step gives both parties a shift of the root key and a chain code. Each of them then
folds an HMAC chain over every path and adds up the shifts modulo the order, beside the point
that they move. One of the two parties adds the shifts to its share: the second one for ECDSA,
since the first party's share is encrypted, and the first one for EdDSA.
-/
namespace CbMpc

/-- `hd_root_t`. -/
structure HdRoot (E : Type) where
  xShare : ℤ
  kShare : ℤ
  Q : E
  K : E

/-- `key_share_ecdsa_hdmpc_2p_t` without the party index and the curve. -/
structure HdEcdsaKey (E : Type) where
  root : HdRoot E
  cKey : ℤ
  paillier : Paillier

/-- `eddsa2pc::key_t` without the role and the curve. -/
structure EddsaKey2p (E : Type) where
  Q : E
  xShare : ℤ

/-- A curve with `size()`, the bytes of a scalar. -/
structure HdCurve (q : ℕ) (E : Type) [AddCommGroup E] extends Curve q E where
  size : ℕ
  size_le : size ≤ 66

/-- `bip32_path_t`. -/
abbrev Bip32Path := List (Word .w32)

variable {q : ℕ} [hq : Fact q.Prime] {E : Type} [AddCommGroup E] [Module (ZMod q) E] [DecidableEq E]

section Roots

/-- The shares of the root of the VRF, and the verdicts on the proofs of its generation. -/
structure VrfRandomness (q : ℕ) where
  k1 : ℤ
  k2 : ℤ
  pi1 : Outcome Unit
  pi2 : Outcome Unit
  k1_range : isInRange q k1 = true
  k2_range : isInRange q k2 = true

/-- `key_share_ecdsa_hdmpc_2p_t::dkg` between honest parties. -/
def hdEcdsaDkg (curve : Curve q E) (ω : DkgRandomness q) (zk : DkgVerdicts) (κ : VrfRandomness q) :
    Outcome (HdEcdsaKey E × HdEcdsaKey E) := do
  let Q1 ← curve.mulToGenerator ω.x1
  let K1 ← curve.mulToGenerator κ.k1
  cbAssert (decide (q * q * q * 2 ^ (3 * secPStat + secPCom + 1) < ω.paillier.N))
  let cKey ← ω.paillier.prv.encrypt false ω.x1 ω.rKey
  let Q2 ← curve.mulToGenerator ω.x2
  let K2 ← curve.mulToGenerator κ.k2
  -- The first party's third step.
  let Q2 ← curveCheck false (.on Q2)
  zk.pi2
  let K2 ← curveCheck false (.on K2)
  κ.pi2
  -- The second party's last step.
  let Q1 ← curveCheck false (.on Q1)
  zk.pi1
  let K1 ← curveCheck false (.on K1)
  κ.pi1
  let paillier ← acceptModulus q ω.paillier.N
  paillier.verifyCipher cKey
  zk.valid
  zk.pdl
  zk.equal
  zk.range
  .ok (⟨⟨ω.x1, κ.k1, Q1 + Q2, K1 + K2⟩, cKey, ω.paillier.prv⟩,
    ⟨⟨ω.x2, κ.k2, Q1 + Q2, K1 + K2⟩, cKey, paillier⟩)

/-- `key_share_eddsa_hdmpc_2p_t::dkg` between honest parties. -/
def hdEddsaDkg (curve : Curve q E) (ω κ : VrfRandomness q) : Outcome (HdRoot E × HdRoot E) := do
  let Q1 ← curve.mulToGenerator ω.k1
  let K1 ← curve.mulToGenerator κ.k1
  let Q2 ← curve.mulToGenerator ω.k2
  let K2 ← curve.mulToGenerator κ.k2
  let Q2 ← curveCheck false (.on Q2)
  ω.pi2
  let K2 ← curveCheck false (.on K2)
  κ.pi2
  let Q1 ← curveCheck false (.on Q1)
  ω.pi1
  let K1 ← curveCheck false (.on K1)
  κ.pi1
  .ok (⟨ω.k1, κ.k1, Q1 + Q2, K1 + K2⟩, ⟨ω.k2, κ.k2, Q1 + Q2, K1 + K2⟩)

/-- The shares after both parties have added and subtracted the number of their agreed bytes. -/
def shiftShares (q : ℕ) (s1 s2 : ℤ) (rand : Bytes) : Outcome (ℤ × ℤ) := do
  let r ← modReduce q (fromBin rand)
  let new1 ← modAdd false q s1 r
  let new2 ← modSub false q s2 r
  .ok (new1, new2)

/-- The key of a root as the two-party protocol has it. -/
def HdEcdsaKey.key (k : HdEcdsaKey E) : Ecdsa2pKey E :=
  ⟨k.root.Q, k.root.xShare, k.cKey, k.paillier⟩

/-- What is drawn in one refresh of a root. -/
structure HdRefresh (q : ℕ) where
  ω : RefreshRandomness q
  valid : Outcome Unit
  rand : Bytes

/-- `key_share_ecdsa_hdmpc_2p_t::refresh` between honest parties: the refresh of `ecdsa2pc`, then
that of the VRF key by bytes that the parties agree on. -/
def hdEcdsaRefresh (keys : HdEcdsaKey E × HdEcdsaKey E) (step : HdRefresh q) :
    Outcome (HdEcdsaKey E × HdEcdsaKey E) := do
  let new ← ecdsa2pRefresh (keys.1.key, keys.2.key) step.ω step.valid
  let k ← shiftShares q keys.1.root.kShare keys.2.root.kShare step.rand
  .ok (⟨⟨new.1.xShare, k.1, new.1.Q, keys.1.root.K⟩, new.1.cKey, new.1.paillier⟩,
    ⟨⟨new.2.xShare, k.2, new.2.Q, keys.2.root.K⟩, new.2.cKey, new.2.paillier⟩)

/-- `key_share_eddsa_hdmpc_2p_t::refresh` between honest parties, from the agreed bytes. -/
def hdEddsaRefresh (q : ℕ) (keys : HdRoot E × HdRoot E) (rand : Bytes) :
    Outcome (HdRoot E × HdRoot E) := do
  let randSize := (q.size + secPStat) / 8
  let x ← shiftShares q keys.1.xShare keys.2.xShare (rand.take randSize)
  let k ← shiftShares q keys.1.kShare keys.2.kShare ((rand.drop randSize).take randSize)
  .ok (⟨x.1, k.1, keys.1.Q, keys.1.K⟩, ⟨x.2, k.2, keys.2.Q, keys.2.K⟩)

end Roots

section Derivation

variable (hmac : Bytes → E → Word .w32 → Bytes) (curve : HdCurve q E)

/-- The variables of the loop over one path. -/
structure PathState (E : Type) where
  chainCode : Bytes
  Q : E
  delta : ℤ

def pathStep (s : PathState E) (index : Word .w32) : Outcome (PathState E) := do
  let I := hmac s.chainCode s.Q index
  let x ← modReduce q (fromBin (I.take 32))
  let xG ← curve.mulToGenerator x
  let delta ← modAdd false q s.delta x
  .ok ⟨(I.drop 32).take 32, s.Q + xG, delta⟩

def pathRun (Q : E) (chainCode : Bytes) (path : Bip32Path) : Outcome (PathState E) :=
  path.foldlM (pathStep hmac curve) ⟨chainCode, Q, 0⟩

/-- `non_hard_derive`. -/
def nonHardDerive (Q : E) (chainCode : Bytes) (paths : List Bip32Path) : Outcome (List ℤ) :=
  paths.mapM fun path => do
    let s ← pathRun hmac curve Q chainCode path
    .ok s.delta

/-- The shift, the point and the chain code that the hardened step takes from the bytes of the
VRF. -/
def hardDerive (Q : E) (y : Bytes) : Outcome (ℤ × E × Bytes) := do
  let delta ← modReduce q (fromBin (y.take (curve.size + 16)))
  let deltaG ← curve.mulToGenerator delta
  .ok (delta, Q + deltaG, y.drop (curve.size + 16))

/-- The share of a child key, at the party that shifts it and at the other one. -/
def childShare (q : ℕ) (shifts : Bool) (x delta nonHard : ℤ) : Outcome ℤ :=
  if shifts then do
    let s ← modAdd false q x delta
    modAdd false q s nonHard
  else .ok x

def ecdsaChild (role : Role) (key : HdEcdsaKey E) (hard : ℤ × E × Bytes) (nonHard : ℤ) :
    Outcome (Ecdsa2pKey E) := do
  let nonHardG ← curve.mulToGenerator nonHard
  let x ← childShare q (decide (role = .p2)) key.root.xShare hard.1 nonHard
  .ok ⟨hard.2.1 + nonHardG, x, key.cKey, key.paillier⟩

def eddsaChild (role : Role) (root : HdRoot E) (hard : ℤ × E × Bytes) (nonHard : ℤ) :
    Outcome (EddsaKey2p E) := do
  let nonHardG ← curve.mulToGenerator nonHard
  let x ← childShare q (decide (role = .p1)) root.xShare hard.1 nonHard
  .ok ⟨hard.2.1 + nonHardG, x⟩

/-- `key_share_ecdsa_hdmpc_2p_t::derive_keys` at one party, after the interactive steps. -/
def hdEcdsaDerive (role : Role) (key : HdEcdsaKey E) (y : Bytes) (paths : List Bip32Path) :
    Outcome (List (Ecdsa2pKey E)) := do
  let hard ← hardDerive curve key.root.Q y
  let deltas ← nonHardDerive hmac curve hard.2.1 hard.2.2 paths
  deltas.mapM (ecdsaChild curve role key hard)

/-- `key_share_eddsa_hdmpc_2p_t::derive_keys` at one party, after the interactive steps. -/
def hdEddsaDerive (role : Role) (root : HdRoot E) (y : Bytes) (paths : List Bip32Path) :
    Outcome (List (EddsaKey2p E)) := do
  let hard ← hardDerive curve root.Q y
  let deltas ← nonHardDerive hmac curve hard.2.1 hard.2.2 paths
  deltas.mapM (eddsaChild curve role root hard)

variable {hmac curve}

theorem fromBin_lt_two_pow {bytes : Bytes} {k : ℕ} (h : 8 * bytes.length ≤ k) :
    (fromBin bytes : ℤ) < 2 ^ k := by
  have hlt : fromBin bytes < 2 ^ k :=
    calc fromBin bytes < 256 ^ bytes.length := fromBin_lt bytes
      _ = (2 ^ 8) ^ bytes.length := by norm_num
      _ = 2 ^ (8 * bytes.length) := (pow_mul 2 8 _).symm
      _ ≤ 2 ^ k := Nat.pow_le_pow_right (by norm_num) h
  exact_mod_cast hlt

/-- A number of few bytes is reduced. -/
theorem modReduce_bytes {bytes : Bytes} (h : bytes.length ≤ 512) :
    modReduce q (fromBin bytes) = .ok (residue ((fromBin bytes : ℕ) : ZMod q)) := by
  rw [modReduce_eq_emod hq.out.two_le (Int.natCast_nonneg _) (fromBin_lt_two_pow (by omega)),
    emod_eq_residue]
  simp

/-- The point of a path is the root moved by the sum of the shifts, which stays reduced. -/
structure PathState.Inv (G Q : E) (s : PathState E) : Prop where
  range : isInRange q s.delta = true
  point : s.Q = Q + (s.delta : ZMod q) • G

omit [DecidableEq E] in
theorem pathStep_inv {Q : E} {s : PathState E}
    (hs : s.Inv (q := q) curve.generator Q) (index : Word .w32) :
    ∃ s', pathStep hmac curve s index = .ok s' ∧ s'.Inv (q := q) curve.generator Q := by
  have hlen : ((hmac s.chainCode s.Q index).take 32).length ≤ 512 := by
    rw [List.length_take]
    omega
  generalize hz : ((fromBin ((hmac s.chainCode s.Q index).take 32) : ℕ) : ZMod q) = z
  have hx := modReduce_bytes (q := q) hlen
  rw [hz] at hx
  have hdelta : modAdd false q s.delta (residue z) = .ok (residue ((s.delta : ZMod q) + z)) := by
    rw [eq_residue_of_isInRange hs.range, modAdd_residue, cast_residue]
  refine ⟨⟨((hmac s.chainCode s.Q index).drop 32).take 32, s.Q + z • curve.generator,
    residue ((s.delta : ZMod q) + z)⟩, ?_, isInRange_residue _, ?_⟩
  · rw [pathStep, hx, ok_bind, mulToGenerator_residue, ok_bind, hdelta]
    rfl
  · rw [hs.point, cast_residue, add_smul, add_assoc]

variable (hmac curve) in
omit [DecidableEq E] in
/-- After every index of a path the point is the root moved by the sum of the shifts. -/
theorem pathRun_inv (Q : E) (chainCode : Bytes) (path : Bip32Path) :
    ∃ s, pathRun hmac curve Q chainCode path = .ok s ∧ s.Inv (q := q) curve.generator Q := by
  have hrun : ∀ (path : Bip32Path) (s : PathState E), s.Inv (q := q) curve.generator Q →
      ∃ s', path.foldlM (pathStep hmac curve) s = .ok s' ∧ s'.Inv (q := q) curve.generator Q := by
    intro path
    induction path with
    | nil => exact fun s hs => ⟨s, rfl, hs⟩
    | cons index path ih =>
      intro s hs
      obtain ⟨s₁, hstep, hs₁⟩ := pathStep_inv hs index
      obtain ⟨s', hpath, hs'⟩ := ih s₁ hs₁
      refine ⟨s', ?_, hs'⟩
      rw [List.foldlM_cons, hstep]
      exact hpath
  have hzero : isInRange q 0 = true :=
    (isInRange_iff _).mpr ⟨le_rfl, Int.natCast_pos.mpr hq.out.pos⟩
  exact hrun path ⟨chainCode, Q, 0⟩ ⟨hzero, by simp⟩

variable (curve) in
omit [DecidableEq E] in
theorem hardDerive_ok (Q : E) (y : Bytes) : ∃ delta : ZMod q, hardDerive curve Q y =
    .ok (residue delta, Q + delta • curve.generator, y.drop (curve.size + 16)) := by
  have hlen : (y.take (curve.size + 16)).length ≤ 512 := by
    have hsize := curve.size_le
    rw [List.length_take]
    omega
  refine ⟨((fromBin (y.take (curve.size + 16)) : ℕ) : ZMod q), ?_⟩
  rw [hardDerive, modReduce_bytes hlen, ok_bind, mulToGenerator_residue]
  rfl

omit [DecidableEq E] in
/-- The shifts of a list of paths are those of its paths, one by one. -/
theorem nonHardDerive_ok (Q : E) (chainCode : Bytes) {delta : Bip32Path → ℤ}
    (h : ∀ path, ∃ s, pathRun hmac curve Q chainCode path = .ok s ∧ s.delta = delta path)
    (paths : List Bip32Path) :
    nonHardDerive hmac curve Q chainCode paths = .ok (paths.map delta) := by
  refine mapM_ok fun path _ => ?_
  obtain ⟨s, hs, hdelta⟩ := h path
  rw [hs, ok_bind, hdelta]

theorem childShare_shift {x : ℤ} (hx : isInRange q x = true) (delta nonHard : ZMod q) :
    childShare q true x (residue delta) (residue nonHard) =
      .ok (residue ((x : ZMod q) + delta + nonHard)) := by
  rw [eq_residue_of_isInRange hx, childShare, if_pos rfl, modAdd_residue, ok_bind, modAdd_residue,
    cast_residue]

omit [DecidableEq E] in
/-- Moving the point by a shift determines the shift. -/
theorem shift_eq (curve : Curve q E) {Q : E} {a b : ZMod q}
    (h : Q + a • curve.generator = Q + b • curve.generator) : a = b := by
  have hsub : (a - b) • curve.generator = 0 := by rw [sub_smul, add_left_cancel h, sub_self]
  exact sub_eq_zero.mp ((smul_eq_zero.mp hsub).resolve_right curve.generator_ne_zero)

end Derivation

section Linked

/-- What holds between the keys of the two parties after any number of refreshes. -/
structure Ecdsa2pLinked (curve : Curve q E) (key : PaillierKey)
    (keys : Ecdsa2pKey E × Ecdsa2pKey E) : Prop where
  prv : keys.1.paillier = key.prv
  pub : keys.2.paillier = .pub key.N
  Q_eq : keys.2.Q = keys.1.Q
  cKey_eq : keys.2.cKey = keys.1.cKey
  encrypts : key.Encrypts keys.1.cKey keys.1.xShare
  x1_nonneg : 0 ≤ keys.1.xShare
  x2_range : isInRange q keys.2.xShare = true
  sum : ((keys.1.xShare + keys.2.xShare : ℤ) : ZMod q) • curve.generator = keys.1.Q

variable {curve : Curve q E} {key : PaillierKey}

omit [DecidableEq E] in
theorem Ecdsa2pPair.linked {t : ℕ} {keys : Ecdsa2pKey E × Ecdsa2pKey E}
    (h : Ecdsa2pPair curve t key keys.1 keys.2) :
    Ecdsa2pLinked curve key keys where
  prv := h.prv
  pub := h.pub
  Q_eq := h.Q_eq
  cKey_eq := h.cKey_eq
  encrypts := PaillierPrimes.encrypts_of_decrypt key.decrypts h.decrypt_cKey
  x1_nonneg := h.x1_range.1
  x2_range := h.x2_range
  sum := h.sum

omit [DecidableEq E] in
theorem Ecdsa2pLinked.refresh {keys keys' : Ecdsa2pKey E × Ecdsa2pKey E}
    (h : Ecdsa2pLinked curve key keys) {ω : RefreshRandomness q} {zkValid : Outcome Unit}
    (hrun : ecdsa2pRefresh keys ω zkValid = .ok keys') :
    Ecdsa2pLinked curve ω.paillier keys' := by
  rw [ecdsa2pRefresh, h.prv] at hrun
  obtain ⟨cKeyTag, henc, hrun⟩ := bind_ok_iff.mp hrun
  obtain ⟨rKey, -, hrun⟩ := bind_ok_iff.mp hrun
  obtain ⟨states, -, hrun⟩ := bind_ok_iff.mp hrun
  obtain ⟨P, hP, hrun⟩ := bind_ok_iff.mp hrun
  obtain ⟨u1, hver, hrun⟩ := bind_ok_iff.mp hrun
  obtain ⟨reps, -, hrun⟩ := bind_ok_iff.mp hrun
  obtain ⟨u2, -, hrun⟩ := bind_ok_iff.mp hrun
  obtain ⟨u3, -, hrun⟩ := bind_ok_iff.mp hrun
  obtain ⟨rho, hrho, hrun⟩ := bind_ok_iff.mp hrun
  obtain ⟨cKey1, hc1, hrun⟩ := bind_ok_iff.mp hrun
  obtain ⟨cKey2, hc2, hrun⟩ := bind_ok_iff.mp hrun
  obtain ⟨x2, hx2, hrun⟩ := bind_ok_iff.mp hrun
  cases hrun
  obtain ⟨-, -, -, rfl⟩ := acceptModulus_ok_iff.mp hP
  obtain ⟨rfl, hgcd, hx0, -⟩ := PaillierKey.encrypts_of_verifyCipher rfl henc hver
  obtain ⟨hrange, -, -⟩ := Paillier.addScalar_ok hc1
  have hrhoR := isInRange_modOp hrho
  obtain ⟨c, hc, hplain⟩ :=
    (PaillierPrimes.encrypts_cipher keys.1.xShare hgcd).addScalar (P := ω.paillier.prv) rfl hrange
  rw [hc] at hc1
  cases hc1
  have hsame : (Paillier.pub ω.paillier.N).N = ω.paillier.prv.N := rfl
  rw [Paillier.addScalar_congr hsame, hc] at hc2
  cases hc2
  rw [eq_residue_of_isInRange h.x2_range, eq_residue_of_isInRange hrhoR, modSub_residue] at hx2
  cases hx2
  refine ⟨rfl, rfl, h.Q_eq, rfl, hplain, add_nonneg hx0 ((isInRange_iff _).mp hrhoR).1,
    isInRange_residue _, ?_⟩
  rw [← h.sum]
  push_cast
  rw [cast_residue]
  congr 1
  ring

/-- Two shares of the key behind a point. -/
structure SharesOf (curve : Curve q E) (s1 s2 : ℤ) (P : E) : Prop where
  range1 : isInRange q s1 = true
  range2 : isInRange q s2 = true
  sum : ((s1 + s2 : ℤ) : ZMod q) • curve.generator = P

omit [DecidableEq E] in
theorem SharesOf.shift {s1 s2 : ℤ} {P : E} (h : SharesOf curve s1 s2 P) {rand : Bytes} {new : ℤ × ℤ}
    (hnew : shiftShares q s1 s2 rand = .ok new) : SharesOf curve new.1 new.2 P := by
  obtain ⟨r, -, hnew⟩ := bind_ok_iff.mp hnew
  obtain ⟨new1, hadd, hnew⟩ := bind_ok_iff.mp hnew
  obtain ⟨new2, hsub, hnew⟩ := bind_ok_iff.mp hnew
  cases hnew
  refine ⟨isInRange_modOp hadd, isInRange_modOp hsub, ?_⟩
  have h1 := congrArg (Int.cast : ℤ → ZMod q) (eq_emod_of_modOp_ok hadd)
  have h2 := congrArg (Int.cast : ℤ → ZMod q) (eq_emod_of_modOp_ok hsub)
  simp only [ZMod.intCast_mod, Int.cast_add, Int.cast_sub] at h1 h2
  rw [← h.sum]
  push_cast
  rw [h1, h2]
  congr 1
  ring

/-- The keys of a root: linked, and shares of the VRF key. -/
structure HdEcdsaPair (curve : Curve q E) (key : PaillierKey)
    (keys : HdEcdsaKey E × HdEcdsaKey E) : Prop where
  linked : Ecdsa2pLinked curve key (keys.1.key, keys.2.key)
  K_eq : keys.2.root.K = keys.1.root.K
  vrf : SharesOf curve keys.1.root.kShare keys.2.root.kShare keys.1.root.K

/-- The generation of a root is one of its key beside one of its VRF key. -/
theorem ecdsa2pDkg_of_hdEcdsaDkg {ω : DkgRandomness q} {zk : DkgVerdicts} {κ : VrfRandomness q}
    {keys : HdEcdsaKey E × HdEcdsaKey E} (h : hdEcdsaDkg curve ω zk κ = .ok keys) :
    ecdsa2pDkg curve ω zk = .ok (keys.1.key, keys.2.key) ∧ keys.2.root.K = keys.1.root.K ∧
      SharesOf curve keys.1.root.kShare keys.2.root.kShare keys.1.root.K := by
  rw [hdEcdsaDkg] at h
  obtain ⟨Q1, hQ1, h⟩ := bind_ok_iff.mp h
  obtain ⟨K1, hK1, h⟩ := bind_ok_iff.mp h
  obtain ⟨hN, h⟩ := cbAssert_bind_ok_iff.mp h
  obtain ⟨cKey, henc, h⟩ := bind_ok_iff.mp h
  obtain ⟨Q2, hQ2, h⟩ := bind_ok_iff.mp h
  obtain ⟨K2, hK2, h⟩ := bind_ok_iff.mp h
  obtain ⟨Q2', hQ2', h⟩ := bind_ok_iff.mp h
  obtain ⟨u1, hpi2, h⟩ := bind_ok_iff.mp h
  obtain ⟨K2', hK2', h⟩ := bind_ok_iff.mp h
  obtain ⟨u2, -, h⟩ := bind_ok_iff.mp h
  obtain ⟨Q1', hQ1', h⟩ := bind_ok_iff.mp h
  obtain ⟨u3, hpi1, h⟩ := bind_ok_iff.mp h
  obtain ⟨K1', hK1', h⟩ := bind_ok_iff.mp h
  obtain ⟨u4, -, h⟩ := bind_ok_iff.mp h
  obtain ⟨P, hP, h⟩ := bind_ok_iff.mp h
  obtain ⟨u5, hver, h⟩ := bind_ok_iff.mp h
  obtain ⟨u6, hvalid, h⟩ := bind_ok_iff.mp h
  obtain ⟨u7, hpdl, h⟩ := bind_ok_iff.mp h
  obtain ⟨u8, hequal, h⟩ := bind_ok_iff.mp h
  obtain ⟨u9, hrange, h⟩ := bind_ok_iff.mp h
  cases h
  obtain rfl := eq_of_curveCheck_on hK1'
  obtain rfl := eq_of_curveCheck_on hK2'
  refine ⟨?_, rfl, κ.k1_range, κ.k2_range, ?_⟩
  · simp only [ecdsa2pDkg, hQ1, ok_bind, hN, cbAssert_true, henc, hQ2, hQ2', hpi2, hQ1', hpi1, hP,
      hver, hvalid, hpdl, hequal, hrange]
    rfl
  · rw [mulToGenerator_of_isInRange curve κ.k1_range] at hK1
    rw [mulToGenerator_of_isInRange curve κ.k2_range] at hK2
    rw [← Except.ok.inj hK1, ← Except.ok.inj hK2, Int.cast_add, add_smul]

/-- A number of refreshes of a root. -/
def hdEcdsaRefreshRun (keys : HdEcdsaKey E × HdEcdsaKey E) (run : List (HdRefresh q)) :
    Outcome (HdEcdsaKey E × HdEcdsaKey E) :=
  run.foldlM hdEcdsaRefresh keys

omit hq [AddCommGroup E] [Module (ZMod q) E] [DecidableEq E] in
theorem hdEcdsaRefresh_ok {keys keys' : HdEcdsaKey E × HdEcdsaKey E} {step : HdRefresh q}
    (h : hdEcdsaRefresh keys step = .ok keys') :
    ecdsa2pRefresh (keys.1.key, keys.2.key) step.ω step.valid = .ok (keys'.1.key, keys'.2.key) ∧
      shiftShares q keys.1.root.kShare keys.2.root.kShare step.rand =
        .ok (keys'.1.root.kShare, keys'.2.root.kShare) ∧
      keys'.1.root.K = keys.1.root.K ∧ keys'.2.root.K = keys.2.root.K := by
  obtain ⟨new, hnew, h⟩ := bind_ok_iff.mp h
  obtain ⟨k, hk, h⟩ := bind_ok_iff.mp h
  cases h
  exact ⟨hnew, hk, rfl, rfl⟩

omit [DecidableEq E] in
theorem HdEcdsaPair.refreshRun {run : List (HdRefresh q)} {keys keys' : HdEcdsaKey E × HdEcdsaKey E}
    (h : HdEcdsaPair curve key keys) (hrun : hdEcdsaRefreshRun keys run = .ok keys') :
    ∃ key', HdEcdsaPair curve key' keys' := by
  induction run generalizing key keys with
  | nil =>
    cases hrun
    exact ⟨key, h⟩
  | cons step run ih =>
    obtain ⟨next, hnext, hrun⟩ := bind_ok_iff.mp hrun
    obtain ⟨hx, hk, hK1, hK2⟩ := hdEcdsaRefresh_ok hnext
    have hpair : HdEcdsaPair curve step.ω.paillier next := by
      refine ⟨h.linked.refresh hx, by rw [hK1, hK2, h.K_eq], ?_⟩
      rw [hK1]
      exact h.vrf.shift hk
    exact ih hpair hrun

omit hq [AddCommGroup E] [Module (ZMod q) E] [DecidableEq E] in
/-- The refreshes of a root are refreshes of its key. -/
theorem refreshRun_of_hdEcdsaRefreshRun {run : List (HdRefresh q)}
    {keys keys' : HdEcdsaKey E × HdEcdsaKey E} (hrun : hdEcdsaRefreshRun keys run = .ok keys') :
    CbMpc.refreshRun (keys.1.key, keys.2.key) (run.map fun step => (step.ω, step.valid)) =
      .ok (keys'.1.key, keys'.2.key) := by
  induction run generalizing keys with
  | nil =>
    cases hrun
    rfl
  | cons step run ih =>
    obtain ⟨next, hnext, hrun⟩ := bind_ok_iff.mp hrun
    rw [CbMpc.refreshRun, List.map_cons, List.foldlM_cons, (hdEcdsaRefresh_ok hnext).1]
    exact ih hrun

/-- The roots of the two parties for EdDSA. -/
structure HdEddsaPair (curve : Curve q E) (roots : HdRoot E × HdRoot E) : Prop where
  Q_eq : roots.2.Q = roots.1.Q
  K_eq : roots.2.K = roots.1.K
  shares : SharesOf curve roots.1.xShare roots.2.xShare roots.1.Q
  vrf : SharesOf curve roots.1.kShare roots.2.kShare roots.1.K

theorem hdEddsaDkg_pair {ω κ : VrfRandomness q} {roots : HdRoot E × HdRoot E}
    (h : hdEddsaDkg curve ω κ = .ok roots) :
    HdEddsaPair curve roots := by
  rw [hdEddsaDkg, mulToGenerator_of_isInRange curve ω.k1_range,
    mulToGenerator_of_isInRange curve κ.k1_range, mulToGenerator_of_isInRange curve ω.k2_range,
    mulToGenerator_of_isInRange curve κ.k2_range] at h
  simp only [ok_bind] at h
  obtain ⟨Q2, hQ2, h⟩ := bind_ok_iff.mp h
  obtain ⟨u1, -, h⟩ := bind_ok_iff.mp h
  obtain ⟨K2, hK2, h⟩ := bind_ok_iff.mp h
  obtain ⟨u2, -, h⟩ := bind_ok_iff.mp h
  obtain ⟨Q1, hQ1, h⟩ := bind_ok_iff.mp h
  obtain ⟨u3, -, h⟩ := bind_ok_iff.mp h
  obtain ⟨K1, hK1, h⟩ := bind_ok_iff.mp h
  obtain ⟨u4, -, h⟩ := bind_ok_iff.mp h
  cases h
  obtain rfl := eq_of_curveCheck_on hQ1
  obtain rfl := eq_of_curveCheck_on hQ2
  obtain rfl := eq_of_curveCheck_on hK1
  obtain rfl := eq_of_curveCheck_on hK2
  refine ⟨rfl, rfl, ⟨ω.k1_range, ω.k2_range, ?_⟩, κ.k1_range, κ.k2_range, ?_⟩
  · rw [Int.cast_add, add_smul]
  · rw [Int.cast_add, add_smul]

omit [DecidableEq E] in
theorem HdEddsaPair.refresh {roots roots' : HdRoot E × HdRoot E}
    (h : HdEddsaPair curve roots) {rand : Bytes} (hrun : hdEddsaRefresh q roots rand = .ok roots') :
    HdEddsaPair curve roots' := by
  obtain ⟨x, hx, hrun⟩ := bind_ok_iff.mp hrun
  obtain ⟨k, hk, hrun⟩ := bind_ok_iff.mp hrun
  cases hrun
  exact ⟨h.Q_eq, h.K_eq, h.shares.shift hx, h.vrf.shift hk⟩

def hdEddsaRefreshRun (q : ℕ) (roots : HdRoot E × HdRoot E) (run : List Bytes) :
    Outcome (HdRoot E × HdRoot E) :=
  run.foldlM (hdEddsaRefresh q) roots

omit [DecidableEq E] in
theorem HdEddsaPair.refreshRun {run : List Bytes} {roots roots' : HdRoot E × HdRoot E}
    (h : HdEddsaPair curve roots) (hrun : hdEddsaRefreshRun q roots run = .ok roots') :
    HdEddsaPair curve roots' := by
  induction run generalizing roots with
  | nil =>
    cases hrun
    exact h
  | cons rand run ih =>
    obtain ⟨next, hnext, hrun⟩ := bind_ok_iff.mp hrun
    exact ih (h.refresh hnext) hrun

end Linked

section Children

variable (hmac : Bytes → E → Word .w32 → Bytes) (curve : HdCurve q E)

/-- The interactive steps have given both parties the same hardened root point and chain code. -/
def SameHardened (Q1 Q2 : E) (y1 y2 : Bytes) : Prop :=
  (hardDerive curve Q1 y1).map Prod.snd = (hardDerive curve Q2 y2).map Prod.snd

/-- The child key of a path: its point is the one that the chain over the path ends with. -/
def ChildPoint (Q : E) (y : Bytes) (path : Bip32Path) (child : E) : Prop :=
  ∃ hard s, hardDerive curve Q y = .ok hard ∧
    pathRun hmac curve hard.2.1 hard.2.2 path = .ok s ∧ child = s.Q

variable {hmac curve}

variable (hmac) in
omit [DecidableEq E] in
/-- What the parties have in common after the hardened step. -/
theorem derive_common {Q : E} {y1 y2 : Bytes} (hy : SameHardened curve Q Q y1 y2) :
    ∃ (delta : ZMod q) (chainCode : Bytes) (nonHard : Bip32Path → ZMod q),
      hardDerive curve Q y1 = .ok (residue delta, Q + delta • curve.generator, chainCode) ∧
      hardDerive curve Q y2 = .ok (residue delta, Q + delta • curve.generator, chainCode) ∧
      (∀ paths, nonHardDerive hmac curve (Q + delta • curve.generator) chainCode paths =
        .ok (paths.map fun path => residue (nonHard path))) ∧
      ∀ path, ChildPoint hmac curve Q y1 path
        (Q + delta • curve.generator + nonHard path • curve.generator) := by
  obtain ⟨d1, h1⟩ := hardDerive_ok curve Q y1
  obtain ⟨d2, h2⟩ := hardDerive_ok curve Q y2
  rw [SameHardened, h1, h2] at hy
  have hpair := Except.ok.inj hy
  obtain rfl := shift_eq curve.toCurve (congrArg Prod.fst hpair)
  have hchain := congrArg Prod.snd hpair
  choose s hs hinv using pathRun_inv hmac curve (Q + d1 • curve.generator)
    (y1.drop (curve.size + 16))
  refine ⟨d1, _, fun path => ((s path).delta : ZMod q), h1, h2.trans ?_, fun paths => ?_,
    fun path => ?_⟩
  · exact congrArg (fun c => Except.ok (residue d1, Q + d1 • curve.generator, c)) hchain.symm
  · exact nonHardDerive_ok _ _ (fun path =>
      ⟨s path, hs path, eq_residue_of_isInRange (hinv path).range⟩) paths
  · exact ⟨_, s path, h1, hs path, (hinv path).point.symm⟩

/-- The children of a root for ECDSA: the first party keeps its share and ciphertext, and the second
one's share is shifted to match the child point. -/
structure EcdsaChildren (curve : Curve q E) (refreshes : ℕ) (keys : HdEcdsaKey E × HdEcdsaKey E)
    (child1 child2 : Ecdsa2pKey E) :
    Prop where
  Q_eq : child2.Q = child1.Q
  xShare_eq : child1.xShare = keys.1.root.xShare
  cKey_eq : child1.cKey = keys.1.cKey ∧ child2.cKey = keys.1.cKey
  decrypts : ∃ key : PaillierKey, child1.paillier = key.prv ∧ child2.paillier = .pub key.N ∧
    key.Encrypts child1.cKey child1.xShare ∧
    (child1.xShare < key.N → key.decrypt child1.cKey = .ok child1.xShare) ∧
    (refreshes < 2 ^ secPStat → key.decrypt child1.cKey = .ok child1.xShare)
  range : isInRange q child2.xShare = true
  sum : ((child1.xShare + child2.xShare : ℤ) : ZMod q) • curve.generator = child1.Q

/-- The children of a root for EdDSA, where the first party's share is shifted. -/
structure EddsaChildren (curve : Curve q E) (roots : HdRoot E × HdRoot E)
    (child1 child2 : EddsaKey2p E) : Prop where
  Q_eq : child2.Q = child1.Q
  xShare_eq : child2.xShare = roots.2.xShare
  range : isInRange q child1.xShare = true
  sum : ((child1.xShare + child2.xShare : ℤ) : ZMod q) • curve.generator = child1.Q

theorem mapM_children {α : Type} {nonHard : Bip32Path → ℤ}
    {child : ℤ → Outcome α} {g : Bip32Path → α} (h : ∀ path, child (nonHard path) = .ok (g path))
    (paths : List Bip32Path) :
    (paths.map nonHard).mapM child = .ok (paths.map g) := by
  induction paths with
  | nil => rfl
  | cons path paths ih =>
    rw [List.map_cons, List.mapM_cons, h path, ok_bind, ih]
    rfl

section

omit [DecidableEq E]

/-- A share that is shifted as the point is. -/
theorem shifted_sum {G Q : E} {a b : ZMod q} (h : (a + b) • G = Q) (delta nonHard : ZMod q) :
    (a + (b + delta + nonHard)) • G = Q + delta • G + nonHard • G := by
  rw [← h, ← add_smul, ← add_smul]
  congr 1
  ring

theorem hdEcdsaDerive_children {keys : HdEcdsaKey E × HdEcdsaKey E}
    {key : PaillierKey} {refreshes : ℕ} (h : HdEcdsaPair curve.toCurve key keys)
    (hdec : refreshes < 2 ^ secPStat → keys.1.root.xShare < key.N) {y1 y2 : Bytes}
    (hy : SameHardened curve keys.1.root.Q keys.2.root.Q y1 y2) :
    ∃ child1 child2 : Bip32Path → Ecdsa2pKey E,
      (∀ paths, hdEcdsaDerive hmac curve .p1 keys.1 y1 paths = .ok (paths.map child1) ∧
        hdEcdsaDerive hmac curve .p2 keys.2 y2 paths = .ok (paths.map child2)) ∧
      ∀ path, EcdsaChildren curve.toCurve refreshes keys (child1 path) (child2 path) ∧
        ChildPoint hmac curve keys.1.root.Q y1 path (child1 path).Q := by
  have hQ : keys.2.root.Q = keys.1.root.Q := h.linked.Q_eq
  have hc : keys.2.cKey = keys.1.cKey := h.linked.cKey_eq
  have hx2 : isInRange q keys.2.root.xShare = true := h.linked.x2_range
  rw [hQ] at hy
  obtain ⟨delta, chainCode, nonHard, h1, h2, hpaths, hpoint⟩ := derive_common hmac hy
  have hdecrypt : keys.1.root.xShare < key.N → key.decrypt keys.1.cKey = .ok keys.1.root.xShare :=
    h.linked.encrypts.decrypt key.decrypts h.linked.x1_nonneg
  let childQ := fun path => keys.1.root.Q + delta • curve.generator + nonHard path • curve.generator
  let share2 := fun path => (keys.2.root.xShare : ZMod q) + delta + nonHard path
  refine ⟨fun path => ⟨childQ path, keys.1.root.xShare, keys.1.cKey, keys.1.paillier⟩,
    fun path => ⟨childQ path, residue (share2 path), keys.2.cKey, keys.2.paillier⟩, fun paths =>
      ⟨?_, ?_⟩, fun path =>
      ⟨⟨rfl, rfl, ⟨rfl, hc⟩, ⟨key, h.linked.prv, h.linked.pub, h.linked.encrypts, hdecrypt,
    fun hlt => hdecrypt (hdec hlt)⟩, isInRange_residue _, ?_⟩, hpoint path⟩⟩
  · rw [hdEcdsaDerive, h1, ok_bind, hpaths, ok_bind]
    refine mapM_children (fun path => ?_) paths
    rw [ecdsaChild, mulToGenerator_residue]
    rfl
  · rw [hdEcdsaDerive, hQ, h2, ok_bind, hpaths, ok_bind]
    refine mapM_children (fun path => ?_) paths
    rw [ecdsaChild, mulToGenerator_residue, ok_bind, decide_eq_true rfl, childShare_shift hx2]
    rfl
  · have hsum :=
      shifted_sum ((congrArg (· • curve.generator) (Int.cast_add _ _).symm).trans h.linked.sum)
        delta (nonHard path)
    rw [Int.cast_add, cast_residue]
    exact hsum

theorem hdEddsaDerive_children {roots : HdRoot E × HdRoot E}
    (h : HdEddsaPair curve.toCurve roots) {y1 y2 : Bytes}
    (hy : SameHardened curve roots.1.Q roots.2.Q y1 y2) :
    ∃ child1 child2 : Bip32Path → EddsaKey2p E,
      (∀ paths, hdEddsaDerive hmac curve .p1 roots.1 y1 paths = .ok (paths.map child1) ∧
        hdEddsaDerive hmac curve .p2 roots.2 y2 paths = .ok (paths.map child2)) ∧
      ∀ path, EddsaChildren curve.toCurve roots (child1 path) (child2 path) ∧
        ChildPoint hmac curve roots.1.Q y1 path (child1 path).Q := by
  rw [h.Q_eq] at hy
  obtain ⟨delta, chainCode, nonHard, h1, h2, hpaths, hpoint⟩ := derive_common hmac hy
  let childQ := fun path => roots.1.Q + delta • curve.generator + nonHard path • curve.generator
  let share1 := fun path => (roots.1.xShare : ZMod q) + delta + nonHard path
  refine ⟨fun path => ⟨childQ path, residue (share1 path)⟩, fun path =>
    ⟨childQ path, roots.2.xShare⟩, fun paths => ⟨?_, ?_⟩,
    fun path => ⟨⟨rfl, rfl, isInRange_residue _, ?_⟩, hpoint path⟩⟩
  · rw [hdEddsaDerive, h1, ok_bind, hpaths, ok_bind]
    refine mapM_children (fun path => ?_) paths
    rw [eddsaChild, mulToGenerator_residue, ok_bind, decide_eq_true rfl,
      childShare_shift h.shares.range1]
    rfl
  · rw [hdEddsaDerive, h.Q_eq, h2, ok_bind, hpaths, ok_bind]
    refine mapM_children (fun path => ?_) paths
    rw [eddsaChild, mulToGenerator_residue]
    rfl
  · have hroot : ((roots.2.xShare : ZMod q) + roots.1.xShare) • curve.generator = roots.1.Q := by
      rw [add_comm, ← Int.cast_add]
      exact h.shares.sum
    have hsum := shifted_sum hroot delta (nonHard path)
    rw [Int.cast_add, cast_residue, add_comm]
    exact hsum

end

/-- The first party's share is below the modulus after fewer than `2 ^ SEC_P_STAT` refreshes. -/
theorem xShare_lt_of_run {curve : Curve q E} {ω : DkgRandomness q} {zk : DkgVerdicts}
    {κ : VrfRandomness q} {run : List (HdRefresh q)} {keys keys' : HdEcdsaKey E × HdEcdsaKey E}
    (hdkg : hdEcdsaDkg curve ω zk κ = .ok keys) (hrun : hdEcdsaRefreshRun keys run = .ok keys')
    (hlen : run.length < 2 ^ secPStat) {key : PaillierKey} (hkey : keys'.1.paillier = key.prv) :
    keys'.1.root.xShare < key.N := by
  obtain ⟨key', hpair⟩ := (ecdsa2pDkg_pair (ecdsa2pDkg_of_hdEcdsaDkg hdkg).1).refreshRun
    (by rw [List.length_map]; omega) (refreshRun_of_hdEcdsaRefreshRun hrun)
  rw [List.length_map, zero_add] at hpair
  have hx := (hpair.x1_lt hlen).2
  have hbound := key'.mul_two_pow_lt hq.out.one_lt hpair.size_N
  have hN : key.N = key'.N :=
    congrArg PaillierPrimes.N (Paillier.prv.inj (hkey.symm.trans hpair.prv))
  rw [hN]
  exact hx.trans hbound

/-- Children of a root after any number of refreshes. Every path gives both parties the same child
point, the end of the chain over the path, and shares that add up to its key, whatever other paths
are derived with it. -/
theorem hd_children (hmac : Bytes → E → Word .w32 → Bytes) (curve : HdCurve q E) :
    (∀ (Q : E) (chainCode : Bytes) (path : Bip32Path), ∃ s,
      pathRun hmac curve Q chainCode path = .ok s ∧
      isInRange q s.delta = true ∧ s.Q = Q + (s.delta : ZMod q) • curve.generator) ∧
    (∀ ω zk κ (run : List (HdRefresh q)) keys keys', hdEcdsaDkg curve.toCurve ω zk κ = .ok keys →
      hdEcdsaRefreshRun keys run = .ok keys' →
      ∀ y1 y2, SameHardened curve keys'.1.root.Q keys'.2.root.Q y1 y2 →
        ∃ child1 child2 : Bip32Path → Ecdsa2pKey E,
        (∀ paths, hdEcdsaDerive hmac curve .p1 keys'.1 y1 paths = .ok (paths.map child1) ∧
          hdEcdsaDerive hmac curve .p2 keys'.2 y2 paths = .ok (paths.map child2)) ∧
        ∀ path, EcdsaChildren curve.toCurve run.length keys' (child1 path) (child2 path) ∧
          ChildPoint hmac curve keys'.1.root.Q y1 path (child1 path).Q) ∧
    ∀ ω κ run roots roots', hdEddsaDkg curve.toCurve ω κ = .ok roots →
    hdEddsaRefreshRun q roots run = .ok roots' →
      ∀ y1 y2, SameHardened curve roots'.1.Q roots'.2.Q y1 y2 →
      ∃ child1 child2 : Bip32Path → EddsaKey2p E,
        (∀ paths, hdEddsaDerive hmac curve .p1 roots'.1 y1 paths = .ok (paths.map child1) ∧
          hdEddsaDerive hmac curve .p2 roots'.2 y2 paths = .ok (paths.map child2)) ∧
        ∀ path, EddsaChildren curve.toCurve roots' (child1 path) (child2 path) ∧
          ChildPoint hmac curve roots'.1.Q y1 path (child1 path).Q := by
  refine ⟨fun Q chainCode path => ?_, fun ω zk κ run keys keys' hdkg hrun y1 y2 hy => ?_,
    fun ω κ run roots roots' hdkg hrun y1 y2 hy => ?_⟩
  · obtain ⟨s, hs, hinv⟩ := pathRun_inv hmac curve Q chainCode path
    exact ⟨s, hs, hinv.range, hinv.point⟩
  · obtain ⟨hkey, hK, hvrf⟩ := ecdsa2pDkg_of_hdEcdsaDkg hdkg
    have hpair : HdEcdsaPair curve.toCurve ω.paillier keys :=
      ⟨(ecdsa2pDkg_pair hkey).linked, hK, hvrf⟩
    obtain ⟨key', hpair'⟩ := hpair.refreshRun hrun
    exact hdEcdsaDerive_children hpair' (fun hlen =>
      xShare_lt_of_run hdkg hrun hlen hpair'.linked.prv) hy
  · exact hdEddsaDerive_children ((hdEddsaDkg_pair hdkg).refreshRun hrun) hy

end Children

section Examples

theorem sampleHdCurve_size_le : (2 : ℕ) ≤ 66 := by decide

def sampleHdCurve : HdCurve 1009 (ZMod 1009) where
  toCurve := sampleCurve
  size := 2
  size_le := sampleHdCurve_size_le

def sampleHdShares : VrfRandomness 1009 where
  k1 := 5
  k2 := 6
  pi1 := .ok ()
  pi2 := .ok ()
  k1_range := by decide
  k2_range := by decide

/-- The chain of this hash keeps the last two bytes of the index. -/
def sampleHmac (_ : Bytes) (P : ZMod 1009) (index : Word .w32) : Bytes :=
  [Fin.ofNat 256 index.toNat, Fin.ofNat 256 P.val] ++ List.replicate 62 0

/-- With nonzero shares of the VRF key the root for ECDSA is generated whenever the signing key
is. -/
theorem hdEcdsaDkg_of_ecdsa2pDkg {q : ℕ} [hq : Fact q.Prime] {E : Type} [AddCommGroup E]
    [Module (ZMod q) E] [DecidableEq E] {curve : Curve q E} {ω : DkgRandomness q} {zk : DkgVerdicts}
    {κ : VrfRandomness q} (hk1 : κ.k1 ≠ 0) (hk2 : κ.k2 ≠ 0) (hpi1 : κ.pi1 = .ok ())
    (hpi2 : κ.pi2 = .ok ()) {keys : Ecdsa2pKey E × Ecdsa2pKey E}
    (h : ecdsa2pDkg curve ω zk = .ok keys) :
    ∃ keys', hdEcdsaDkg curve ω zk κ = .ok keys' := by
  have hr1 := (isInRange_iff _).mp κ.k1_range
  have hr2 := (isInRange_iff _).mp κ.k2_range
  have hc1 := curveCheck_smul_generator curve false
    (cast_ne_zero_of_range (q := q) ⟨by omega, hr1.2⟩)
  have hc2 := curveCheck_smul_generator curve false
    (cast_ne_zero_of_range (q := q) ⟨by omega, hr2.2⟩)
  have hK1 := mulToGenerator_of_isInRange curve κ.k1_range
  have hK2 := mulToGenerator_of_isInRange curve κ.k2_range
  obtain ⟨Q1, hQ1, h⟩ := bind_ok_iff.mp h
  obtain ⟨hN, h⟩ := cbAssert_bind_ok_iff.mp h
  obtain ⟨cKey, henc, h⟩ := bind_ok_iff.mp h
  obtain ⟨Q2, hQ2, h⟩ := bind_ok_iff.mp h
  obtain ⟨Q2', hQ2', h⟩ := bind_ok_iff.mp h
  obtain ⟨⟨⟩, hzk2, h⟩ := bind_ok_iff.mp h
  obtain ⟨Q1', hQ1', h⟩ := bind_ok_iff.mp h
  obtain ⟨⟨⟩, hzk1, h⟩ := bind_ok_iff.mp h
  obtain ⟨paillier, hpaillier, h⟩ := bind_ok_iff.mp h
  obtain ⟨⟨⟩, hver, h⟩ := bind_ok_iff.mp h
  obtain ⟨⟨⟩, hvalid, h⟩ := bind_ok_iff.mp h
  obtain ⟨⟨⟩, hpdl, h⟩ := bind_ok_iff.mp h
  obtain ⟨⟨⟩, hequal, h⟩ := bind_ok_iff.mp h
  obtain ⟨⟨⟩, hrange, -⟩ := bind_ok_iff.mp h
  simp only [hdEcdsaDkg, hQ1, hK1, hN, cbAssert_true, henc, hQ2, hK2, hQ2', hzk2, hc2, hpi2, hQ1',
    hzk1, hc1, hpi1, hpaillier, hver, hvalid, hpdl, hequal, hrange, ok_bind]
  exact ⟨_, rfl⟩

/-- Roots with the children of two paths, and the shift of one of the paths. -/
theorem hd_children_sample :
    (∃ s, pathRun sampleHmac sampleHdCurve 7 [] [1, 2] = .ok s ∧
      s.Q = 7 + (s.delta : ZMod 1009) • sampleCurve.generator) ∧
    (∃ keys child1 child2, hdEcdsaDkg sampleCurve sampleDkgRandomness ⟨.ok (), .ok (), .ok (),
      .ok (), .ok (), .ok ()⟩ sampleHdShares =
        .ok keys ∧ hdEcdsaDerive sampleHmac sampleHdCurve .p1 keys.1 [7] [[1, 2], []] = .ok child1 ∧
      hdEcdsaDerive sampleHmac sampleHdCurve .p2 keys.2 [7] [[1, 2], []] = .ok child2 ∧
      child1.map Ecdsa2pKey.Q = child2.map Ecdsa2pKey.Q) ∧
    ∃ roots child1 child2, hdEddsaDkg sampleCurve sampleHdShares sampleHdShares = .ok roots ∧
      hdEddsaDerive sampleHmac sampleHdCurve .p1 roots.1 [7] [[1, 2], []] = .ok child1 ∧
      hdEddsaDerive sampleHmac sampleHdCurve .p2 roots.2 [7] [[1, 2], []] = .ok child2 ∧
      child1.map EddsaKey2p.Q = child2.map EddsaKey2p.Q := by
  obtain ⟨hpath, hecdsa, heddsa⟩ := hd_children sampleHmac sampleHdCurve
  refine ⟨?_, ?_, ?_⟩
  · obtain ⟨s, hs, -, hQ⟩ := hpath 7 [] [1, 2]
    exact ⟨s, hs, hQ⟩
  · obtain ⟨key, hkey⟩ := ecdsa2pDkg_ok sampleCurve (ω := sampleDkgRandomness) (by decide)
      (by decide) Int.one_gcd size_sampleN
    obtain ⟨keys, hkeys⟩ := hdEcdsaDkg_of_ecdsa2pDkg (κ := sampleHdShares) (by decide)
      (by decide) rfl rfl hkey
    have hQ : keys.2.root.Q = keys.1.root.Q :=
      (ecdsa2pDkg_pair (ecdsa2pDkg_of_hdEcdsaDkg hkeys).1).Q_eq
    obtain ⟨child1, child2, hpaths, hchildren⟩ :=
      hecdsa _ _ sampleHdShares [] keys keys hkeys rfl [7] [7] (by rw [SameHardened, hQ])
    refine ⟨keys, _, _, hkeys, (hpaths _).1, (hpaths _).2, ?_⟩
    simp only [List.map_map]
    exact List.map_congr_left fun path _ => (hchildren path).1.Q_eq.symm
  · have hdkg : ∃ roots, hdEddsaDkg sampleCurve sampleHdShares sampleHdShares = .ok roots :=
      ⟨_, rfl⟩
    obtain ⟨roots, hroots⟩ := hdkg
    have hQ := (hdEddsaDkg_pair hroots).Q_eq
    obtain ⟨child1, child2, hpaths, hchildren⟩ :=
      heddsa sampleHdShares sampleHdShares [] roots roots
      hroots rfl [7] [7] (by rw [SameHardened, hQ])
    refine ⟨roots, _, _, hroots, (hpaths _).1, (hpaths _).2, ?_⟩
    simp only [List.map_map]
    exact List.map_congr_left fun path _ => (hchildren path).1.Q_eq.symm

end Examples

end CbMpc
