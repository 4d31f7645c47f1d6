import CbMpc.HeldKeys
import CbMpc.DetachedKey2p

/-!
# Two-party keys that parties hold

`ecdsa2pc::dkg` and `ecdsa2pc::refresh` at one party, whatever the other one sends. The public
functions accept the keys that come out: the first party's when its ciphertext is one that
`verify_cipher` accepts and its share is still below the modulus, the second party's always.
-/
namespace CbMpc

variable {q : ℕ} [hq : Fact q.Prime] {E : Type} [AddCommGroup E] [Module (ZMod q) E] [DecidableEq E]

section Protocol

/-- `ecdsa2pc::dkg` at the first party. -/
def ecdsa2pDkgP1 (curve : Curve q E) (paillier : PaillierKey) (x1 rKey : ℤ)
    (Q2 : WirePoint E) (pi2 : Outcome Unit) :
    Outcome (Ecdsa2pKey E) := do
  let Q1 ← curve.mulToGenerator x1
  cbAssert (decide (q * q * q * 2 ^ (3 * secPStat + secPCom + 1) < paillier.N))
  let cKey ← paillier.prv.encrypt false x1 rKey
  let Q2 ← curveCheck false Q2
  pi2
  .ok ⟨Q1 + Q2, x1, cKey, paillier.prv⟩

/-- What the first party sends in `dkg`, with the verdicts on its proofs. -/
structure DkgMsgP1 (E : Type) where
  Q1 : WirePoint E
  N : ℕ
  cKey : ℤ
  opened : Outcome Unit
  pi1 : Outcome Unit
  valid : Outcome Unit
  pdl : Outcome Unit
  equal : Outcome Unit
  range : Outcome Unit

/-- `ecdsa2pc::dkg` at the second party. -/
def ecdsa2pDkgP2 (curve : Curve q E) (x2 : ℤ) (msg : DkgMsgP1 E) : Outcome (Ecdsa2pKey E) := do
  let Q2 ← curve.mulToGenerator x2
  let Q1 ← curveCheck false msg.Q1
  msg.opened
  msg.pi1
  let paillier ← acceptModulus q msg.N
  paillier.verifyCipher msg.cKey
  msg.valid
  msg.pdl
  msg.equal
  msg.range
  .ok ⟨Q1 + Q2, x2, msg.cKey, paillier⟩

/-- `ecdsa2pc::refresh` at the first party, with the share `rho2` and the challenge `e` of the
second one. -/
def ecdsa2pRefreshP1 (key : Ecdsa2pKey E) (paillier : PaillierKey) (rho1 rKeyTag : ℤ)
    (masks : Fin paillierReps → EqualMask) (rho2 : ℤ) (e : List (Fin 256)) :
    Outcome (Ecdsa2pKey E) :=
  match key.paillier with
  | .pub _ => throwing .assertionFailed
  | .prv old hold => do
    let cKeyTag ← paillier.prv.encrypt false key.xShare rKeyTag
    let rKey ← old.getCipherRandomness key.xShare key.cKey
    let states ← equalProverMsg1 q (.prv old hold) paillier.prv (List.ofFn masks)
    let _ ← equalProverMsg2 (.prv old hold) paillier.prv key.xShare rKey rKeyTag e states
    let rho ← modAdd false q rho1 rho2
    let cKey ← paillier.prv.addScalar cKeyTag rho
    .ok ⟨key.Q, key.xShare + rho, cKey, paillier.prv⟩

/-- What the first party sends in `refresh`, with the verdict on its proof about the new modulus. -/
structure RefreshMsgP1 where
  N : ℤ
  cKeyTag : ℤ
  rho1 : ℤ
  reps : List EqualRep
  opened : Outcome Unit
  valid : Outcome Unit

/-- `ecdsa2pc::refresh` at the second party. -/
def ecdsa2pRefreshP2 (key : Ecdsa2pKey E) (rho2 : ℤ) (e : List (Fin 256)) (msg : RefreshMsgP1) :
    Outcome (Ecdsa2pKey E) := do
  require (decide (0 < msg.N)) .crypto
  let paillier ← acceptModulus q msg.N.toNat
  paillier.verifyCipher msg.cKeyTag
  msg.valid
  equalVerify q key.paillier key.cKey paillier msg.cKeyTag e msg.reps
  msg.opened
  let rho ← modAdd false q msg.rho1 rho2
  let cKey ← paillier.addScalar msg.cKeyTag rho
  let x2 ← modSub false q key.xShare rho
  .ok ⟨key.Q, x2, cKey, paillier⟩

variable (curve : Curve q E)

/-- The keys that the first party may hold after `dkg` and any number of refreshes. -/
inductive HeldP1 : Ecdsa2pKey E → Prop where
  | dkg (paillier : PaillierKey) (x1 rKey : ℤ) (hx1 : isInRange q x1 = true)
      (hrKey : isInRange paillier.N rKey = true)
      (Q2 : WirePoint E) (pi2 : Outcome Unit) {key : Ecdsa2pKey E}
        (h : ecdsa2pDkgP1 curve paillier x1 rKey Q2 pi2 = .ok key) :
      HeldP1 key
  | refresh {key : Ecdsa2pKey E} (hkey : HeldP1 key) (paillier : PaillierKey) (rho1 rKeyTag : ℤ)
      (hrKeyTag : isInRange paillier.N rKeyTag = true) (masks : Fin paillierReps →
      EqualMask) (rho2 : ℤ) (e : List (Fin 256))
      {newKey : Ecdsa2pKey E} (h : ecdsa2pRefreshP1 (q := q) key paillier rho1 rKeyTag masks rho2
        e = .ok newKey) : HeldP1 newKey

/-- The keys that the second party may hold after `dkg` and any number of refreshes. -/
inductive HeldP2 : Ecdsa2pKey E → Prop where
  | dkg (x2 : ℤ) (hx2 : isInRange q x2 = true) (msg : DkgMsgP1 E) {key : Ecdsa2pKey E}
      (h : ecdsa2pDkgP2 curve x2 msg = .ok key) : HeldP2 key
  | refresh {key : Ecdsa2pKey E} (hkey : HeldP2 key) (rho2 : ℤ)
      (e : List (Fin 256)) (msg : RefreshMsgP1)
      {newKey : Ecdsa2pKey E} (h : ecdsa2pRefreshP2 (q := q) key rho2 e msg = .ok newKey) :
        HeldP2 newKey

end Protocol

section Ciphers

theorem Paillier.verifyCipher_eq {P : Paillier} {c : ℤ} (h0 : 0 < c) (hlt : c < (P.N * P.N : ℕ))
    (hgcd : Int.gcd c P.N = 1) : P.verifyCipher c = .ok () := by
  have hrange : ¬(c ≤ 0 ∨ c ≥ (P.NN : ℤ)) := by
    have hN : P.NN = P.N * P.N := rfl
    rw [hN]
    omega
  rw [Paillier.verifyCipher, checkOpenRange, decide_eq_true hrange, require_true, ok_bind, coprime,
    if_pos rfl, ok_bind, decide_eq_true hgcd]
  rfl

/-- Adding a scalar does not change a ciphertext modulo `N`. -/
theorem Paillier.addScalar_ok {P : Paillier} {c s c' : ℤ} (h : P.addScalar c s = .ok c') :
    isInRange (P.N * P.N) s = true ∧ c' = c' % (P.N * P.N : ℕ) ∧
    Int.gcd c' P.N = Int.gcd c P.N := by
  obtain ⟨v, hv, h⟩ := bind_ok_iff.mp h
  obtain ⟨w, hw, hv⟩ := bind_ok_iff.mp hv
  have hs : isInRange P.NN s = true := by
    obtain ⟨u, hu, -⟩ := bind_ok_iff.mp hw
    exact (cbAssert_ok_iff _).mp hu
  have hdvd : (P.N : ℤ) ∣ (P.NN : ℕ) := ⟨P.N, by rw [Paillier.NN, Nat.cast_mul]⟩
  have hmod : ∀ x : ℤ, x % (P.NN : ℕ) ≡ x [ZMOD P.N] := fun x => (Int.mod_modEq x _).of_dvd hdvd
  have hw : w ≡ 0 [ZMOD P.N] := by
    rw [eq_emod_of_modOp_ok hw]
    exact (hmod _).trans (Int.modEq_zero_iff_dvd.mpr (dvd_mul_left _ _))
  have hv : v ≡ 1 [ZMOD P.N] := by
    rw [eq_emod_of_modOp_ok hv]
    exact (hmod _).trans (hw.add_right 1)
  have hc := eq_emod_of_modOp_ok h
  have hmodEq : c' ≡ c [ZMOD P.N] := by
    rw [hc]
    have hmul := hv.mul_left c
    rw [mul_one] at hmul
    exact (hmod _).trans hmul
  refine ⟨hs, ?_, ?_⟩
  · rw [← Paillier.NN, hc, Int.emod_emod_of_dvd _ dvd_rfl]
  · obtain ⟨k, hk⟩ := hmodEq.symm.dvd
    rw [show c' = c + P.N * k by omega, Int.gcd_add_mul_left_left]

/-- `verify_cipher` still accepts a ciphertext after a scalar was added. -/
theorem Paillier.verifyCipher_addScalar {P : Paillier} (hN : 1 < P.N) {c s c' : ℤ}
    (hc : P.verifyCipher c = .ok ()) (h : P.addScalar c s = .ok c') :
    P.verifyCipher c' = .ok () := by
  obtain ⟨-, hmod, hgcd⟩ := Paillier.addScalar_ok h
  rw [(Paillier.verifyCipher_ok hc).2.2] at hgcd
  have hNN : 0 < P.N * P.N := Nat.mul_pos (by omega) (by omega)
  have hrange := (isInRange_iff _).mp (isInRange_emod hNN c')
  rw [← hmod] at hrange
  have hne : c' ≠ 0 := by
    rintro rfl
    rw [Int.gcd_zero_left, Int.natAbs_natCast] at hgcd
    omega
  exact Paillier.verifyCipher_eq (lt_of_le_of_ne hrange.1 hne.symm) hrange.2 hgcd

/-- An encryption that is a unit has the plaintext that went in. -/
theorem PaillierKey.encrypts_of_encrypt {key : PaillierKey} {m r c : ℤ}
    (henc : key.prv.encrypt false m r = .ok c) :
    0 ≤ m ∧ (Int.gcd c key.N = 1 → key.Encrypts c m) := by
  obtain ⟨hm, rfl⟩ := PaillierPrimes.encrypt_ok rfl henc
  exact ⟨hm.1, fun hgcd => PaillierPrimes.encrypts_cipher m (PaillierPrimes.gcd_of_cipher hgcd)⟩

end Ciphers

section Held

variable {curve : Curve q E} {key : Ecdsa2pKey E}

/-- The share of the first party is the plaintext of its ciphertext as an integer, not modulo the
order. -/
theorem HeldP1.encrypts (h : HeldP1 curve key) :
    ∃ pk : PaillierKey, key.paillier = pk.prv ∧ 0 ≤ key.xShare ∧
    (Int.gcd key.cKey pk.N = 1 → pk.Encrypts key.cKey key.xShare) := by
  cases h with
  | dkg paillier x1 rKey hx1 hrKey Q2 pi2 h =>
    obtain ⟨Q1, -, h⟩ := bind_ok_iff.mp h
    obtain ⟨-, h⟩ := cbAssert_bind_ok_iff.mp h
    obtain ⟨cKey, henc, h⟩ := bind_ok_iff.mp h
    obtain ⟨Q2', -, h⟩ := bind_ok_iff.mp h
    obtain ⟨u, -, h⟩ := bind_ok_iff.mp h
    cases h
    exact ⟨paillier, rfl, PaillierKey.encrypts_of_encrypt henc⟩
  | @refresh old _ paillier rho1 rKeyTag hrKeyTag masks rho2 e _ h =>
    rw [ecdsa2pRefreshP1] at h
    split at h
    · cases h
    obtain ⟨cKeyTag, henc, h⟩ := bind_ok_iff.mp h
    obtain ⟨rKey, -, h⟩ := bind_ok_iff.mp h
    obtain ⟨states, -, h⟩ := bind_ok_iff.mp h
    obtain ⟨reps, -, h⟩ := bind_ok_iff.mp h
    obtain ⟨rho, hrho, h⟩ := bind_ok_iff.mp h
    obtain ⟨cKey, hadd, h⟩ := bind_ok_iff.mp h
    cases h
    obtain ⟨hx0, hplain⟩ := PaillierKey.encrypts_of_encrypt henc
    have hrho0 := ((isInRange_iff _).mp (isInRange_modOp hrho)).1
    refine ⟨paillier, rfl, add_nonneg hx0 hrho0, fun hgcd => ?_⟩
    obtain ⟨hs, -, hgcd'⟩ := Paillier.addScalar_ok hadd
    obtain ⟨c, hc, hsum⟩ := (hplain (hgcd'.symm.trans hgcd)).addScalar (P := paillier.prv) rfl hs
    rw [hc] at hadd
    cases hadd
    exact hsum

/-- The first party's key, while `verify_cipher` accepts its ciphertext and its share is below the
modulus. -/
theorem HeldP1.consistentKey (h : HeldP1 curve key)
    (hcipher : key.paillier.verifyCipher key.cKey = .ok ()) (hlt : key.xShare < key.paillier.N) :
    ConsistentKey2p .p1 key := by
  obtain ⟨pk, hpk, hx0, hplain⟩ := h.encrypts
  obtain ⟨Q, x, cKey, P⟩ := key
  simp only at hpk
  subst hpk
  refine ⟨⟨pk.one_lt_N, pk.bits, pk.odd_N⟩, ⟨fun _ => rfl, fun _ => rfl⟩,
    (isInRange_iff _).mpr ⟨hx0, hlt⟩, hcipher, ?_⟩
  rintro pk' hpk' heq
  cases heq
  exact (hplain (Paillier.verifyCipher_ok hcipher).2.2).decrypt pk.decrypts hx0 hlt

/-- The second party reduces its share, and the modulus that it accepts is longer than the order. -/
theorem HeldP2.consistentKey (h : HeldP2 curve key) : ConsistentKey2p .p2 key := by
  have hlong : ∀ {N : ℕ} {x : ℤ},
      3 * q.size + 3 * secPStat + secPCom + 1 ≤ N.size → isInRange q x = true →
      isInRange N x = true := by
    intro N x hsize hx
    obtain ⟨h0, hlt⟩ := (isInRange_iff _).mp hx
    have hqN : q < N := by
      by_contra hle
      have := Nat.size_le_size (not_lt.mp hle)
      omega
    exact (isInRange_iff _).mpr ⟨h0, by omega⟩
  have hpub : ∀ {N : ℕ}, Role.p2 = .p1 ↔ (Paillier.pub N).fields.hasPrivate = true :=
    ⟨fun h => (by cases h), fun h => (by cases h)⟩
  cases h with
  | dkg x2 hx2 msg h =>
    obtain ⟨Q2, -, h⟩ := bind_ok_iff.mp h
    obtain ⟨Q1, -, h⟩ := bind_ok_iff.mp h
    obtain ⟨u1, -, h⟩ := bind_ok_iff.mp h
    obtain ⟨u2, -, h⟩ := bind_ok_iff.mp h
    obtain ⟨P, hP, h⟩ := bind_ok_iff.mp h
    obtain ⟨u3, hcipher, h⟩ := bind_ok_iff.mp h
    obtain ⟨u4, -, h⟩ := bind_ok_iff.mp h
    obtain ⟨u5, -, h⟩ := bind_ok_iff.mp h
    obtain ⟨u6, -, h⟩ := bind_ok_iff.mp h
    obtain ⟨u7, -, h⟩ := bind_ok_iff.mp h
    cases h
    obtain ⟨hsize, hbits, ⟨hN, -, hodd⟩, rfl⟩ := acceptModulus_ok_iff.mp hP
    exact ⟨⟨hN, hbits, hodd⟩, hpub, hlong hsize hx2, hcipher, fun pk hpk heq => by cases heq⟩
  | @refresh old _ rho2 e msg _ h =>
    obtain ⟨-, h⟩ := require_bind_ok_iff.mp h
    obtain ⟨P, hP, h⟩ := bind_ok_iff.mp h
    obtain ⟨u1, hcipher, h⟩ := bind_ok_iff.mp h
    obtain ⟨u2, -, h⟩ := bind_ok_iff.mp h
    obtain ⟨u3, -, h⟩ := bind_ok_iff.mp h
    obtain ⟨u4, -, h⟩ := bind_ok_iff.mp h
    obtain ⟨rho, -, h⟩ := bind_ok_iff.mp h
    obtain ⟨cKey, hadd, h⟩ := bind_ok_iff.mp h
    obtain ⟨x2, hx2, h⟩ := bind_ok_iff.mp h
    cases h
    obtain ⟨hsize, hbits, ⟨hN, -, hodd⟩, rfl⟩ := acceptModulus_ok_iff.mp hP
    exact ⟨⟨hN, hbits, hodd⟩, hpub, hlong hsize (isInRange_modOp hx2),
      Paillier.verifyCipher_addScalar (P := .pub _) hN hcipher hadd,
      fun pk hpk heq => by cases heq⟩

end Held

section Honest

variable {curve : Curve q E} {keys keys' : Ecdsa2pKey E × Ecdsa2pKey E}

/-- The run of two honest parties is a run of each of them. -/
theorem held_of_ecdsa2pDkg {ω : DkgRandomness q} {zk : DkgVerdicts}
    (h : ecdsa2pDkg curve ω zk = .ok keys) :
    HeldP1 curve keys.1 ∧ HeldP2 curve keys.2 := by
  have hx1 := (isInRange_iff _).mpr ω.x1_range
  have hx2 := (isInRange_iff _).mpr ω.x2_range
  obtain ⟨Q1, hQ1, h⟩ := bind_ok_iff.mp h
  obtain ⟨hN, h⟩ := cbAssert_bind_ok_iff.mp h
  obtain ⟨cKey, henc, h⟩ := bind_ok_iff.mp h
  obtain ⟨Q2, hQ2, h⟩ := bind_ok_iff.mp h
  obtain ⟨Q2', hQ2', h⟩ := bind_ok_iff.mp h
  obtain ⟨u1, hpi2, h⟩ := bind_ok_iff.mp h
  obtain ⟨Q1', hQ1', h⟩ := bind_ok_iff.mp h
  obtain ⟨u2, hpi1, h⟩ := bind_ok_iff.mp h
  obtain ⟨P, hP, h⟩ := bind_ok_iff.mp h
  obtain ⟨u3, hcipher, h⟩ := bind_ok_iff.mp h
  obtain ⟨u4, hvalid, h⟩ := bind_ok_iff.mp h
  obtain ⟨u5, hpdl, h⟩ := bind_ok_iff.mp h
  obtain ⟨u6, hequal, h⟩ := bind_ok_iff.mp h
  obtain ⟨u7, hrange, h⟩ := bind_ok_iff.mp h
  cases h
  obtain rfl := eq_of_curveCheck_on hQ1'
  obtain rfl := eq_of_curveCheck_on hQ2'
  constructor
  · refine .dkg ω.paillier ω.x1 ω.rKey hx1 ((isInRange_iff _).mpr ω.rKey_range) (.on Q2') zk.pi2 ?_
    simp only [ecdsa2pDkgP1, hQ1, hN, cbAssert_true, henc, hQ2', hpi2, ok_bind]
  · refine .dkg ω.x2 hx2 ⟨.on Q1', ω.paillier.N, cKey, .ok (), zk.pi1, zk.valid, zk.pdl, zk.equal,
      zk.range⟩ ?_
    simp only [ecdsa2pDkgP2, hQ2, hQ1', hpi1, hP, hcipher, hvalid, hpdl, hequal, hrange, ok_bind]

/-- The shares of `dkg` are the scalars that were drawn. -/
theorem ecdsa2pDkg_shares {ω : DkgRandomness q} {zk : DkgVerdicts}
    (h : ecdsa2pDkg curve ω zk = .ok keys) :
    keys.1.xShare = ω.x1 ∧ keys.2.xShare = ω.x2 := by
  obtain ⟨Q1, -, h⟩ := bind_ok_iff.mp h
  obtain ⟨-, h⟩ := cbAssert_bind_ok_iff.mp h
  obtain ⟨cKey, -, h⟩ := bind_ok_iff.mp h
  obtain ⟨Q2, -, h⟩ := bind_ok_iff.mp h
  obtain ⟨Q2', -, h⟩ := bind_ok_iff.mp h
  obtain ⟨u1, -, h⟩ := bind_ok_iff.mp h
  obtain ⟨Q1', -, h⟩ := bind_ok_iff.mp h
  obtain ⟨u2, -, h⟩ := bind_ok_iff.mp h
  obtain ⟨P, -, h⟩ := bind_ok_iff.mp h
  obtain ⟨u3, -, h⟩ := bind_ok_iff.mp h
  obtain ⟨u4, -, h⟩ := bind_ok_iff.mp h
  obtain ⟨u5, -, h⟩ := bind_ok_iff.mp h
  obtain ⟨u6, -, h⟩ := bind_ok_iff.mp h
  obtain ⟨u7, -, h⟩ := bind_ok_iff.mp h
  cases h
  exact ⟨rfl, rfl⟩

theorem held_of_ecdsa2pRefresh (h1 : HeldP1 curve keys.1) (h2 : HeldP2 curve keys.2)
    {ω : RefreshRandomness q} {zkValid : Outcome Unit}
    (h : ecdsa2pRefresh keys ω zkValid = .ok keys') :
    HeldP1 curve keys'.1 ∧ HeldP2 curve keys'.2 := by
  rw [ecdsa2pRefresh] at h
  split at h
  · cases h
  rename_i key hkey
  obtain ⟨cKeyTag, henc, h⟩ := bind_ok_iff.mp h
  obtain ⟨rKey, hrKey, h⟩ := bind_ok_iff.mp h
  obtain ⟨states, hstates, h⟩ := bind_ok_iff.mp h
  obtain ⟨P, hP, h⟩ := bind_ok_iff.mp h
  obtain ⟨u1, hcipher, h⟩ := bind_ok_iff.mp h
  obtain ⟨reps, hreps, h⟩ := bind_ok_iff.mp h
  obtain ⟨u2, hvalid, h⟩ := bind_ok_iff.mp h
  obtain ⟨u3, hequal, h⟩ := bind_ok_iff.mp h
  obtain ⟨rho, hrho, h⟩ := bind_ok_iff.mp h
  obtain ⟨cKey1, hc1, h⟩ := bind_ok_iff.mp h
  obtain ⟨cKey2, hc2, h⟩ := bind_ok_iff.mp h
  obtain ⟨x2, hx2, h⟩ := bind_ok_iff.mp h
  cases h
  constructor
  · refine .refresh h1 ω.paillier ω.rho1 ω.rKeyTag
      ((isInRange_iff _).mpr ω.rKeyTag_range) ω.masks ω.rho2 ω.e ?_
    simp only [ecdsa2pRefreshP1, hkey, henc, hrKey, hstates, hreps, hrho, hc1, ok_bind]
  · refine .refresh h2 ω.rho2 ω.e ⟨ω.paillier.N, cKeyTag, ω.rho1, reps, .ok (), zkValid⟩ ?_
    have hpos : (0 : ℤ) < ω.paillier.N := by
      have := ω.paillier.one_lt_N
      omega
    simp only [ecdsa2pRefreshP2, hpos, decide_true, require_true, Int.toNat_natCast, hP, hcipher,
      hvalid, hequal, hrho, hc2, hx2, ok_bind]

omit hq [AddCommGroup E] [Module (ZMod q) E] [DecidableEq E] in
/-- A refresh keeps the public key. -/
theorem ecdsa2pRefresh_Q {ω : RefreshRandomness q} {zkValid : Outcome Unit}
    (h : ecdsa2pRefresh keys ω zkValid = .ok keys') : keys'.1.Q = keys.1.Q := by
  rw [ecdsa2pRefresh] at h
  split at h
  · cases h
  obtain ⟨cKeyTag, -, h⟩ := bind_ok_iff.mp h
  obtain ⟨rKey, -, h⟩ := bind_ok_iff.mp h
  obtain ⟨states, -, h⟩ := bind_ok_iff.mp h
  obtain ⟨P, -, h⟩ := bind_ok_iff.mp h
  obtain ⟨u1, -, h⟩ := bind_ok_iff.mp h
  obtain ⟨reps, -, h⟩ := bind_ok_iff.mp h
  obtain ⟨u2, -, h⟩ := bind_ok_iff.mp h
  obtain ⟨u3, -, h⟩ := bind_ok_iff.mp h
  obtain ⟨rho, -, h⟩ := bind_ok_iff.mp h
  obtain ⟨cKey1, -, h⟩ := bind_ok_iff.mp h
  obtain ⟨cKey2, -, h⟩ := bind_ok_iff.mp h
  obtain ⟨x2, -, h⟩ := bind_ok_iff.mp h
  cases h
  rfl

theorem held_of_refreshRun {run : List (RefreshRandomness q × Outcome Unit)}
    (h1 : HeldP1 curve keys.1) (h2 : HeldP2 curve keys.2) (h : refreshRun keys run = .ok keys') :
    HeldP1 curve keys'.1 ∧ HeldP2 curve keys'.2 := by
  induction run generalizing keys with
  | nil =>
    cases h
    exact ⟨h1, h2⟩
  | cons step run ih =>
    obtain ⟨next, hnext, h⟩ := bind_ok_iff.mp h
    obtain ⟨hnext1, hnext2⟩ := held_of_ecdsa2pRefresh h1 h2 hnext
    exact ih hnext1 hnext2 h

omit [DecidableEq E] in
/-- `verify_cipher` accepts the ciphertext of an honest pair, whose first share is still below the
modulus. -/
theorem Ecdsa2pPair.cKey_accepted {t : ℕ} {key : PaillierKey}
    (hpair : Ecdsa2pPair curve t key keys.1 keys.2) (ht : t + 1 ≤ 2 ^ secPStat) :
    keys.1.paillier.verifyCipher keys.1.cKey = .ok () ∧ keys.1.xShare < keys.1.paillier.N := by
  have hx := (hpair.x1_lt ht).2
  have hN := key.mul_two_pow_lt hq.out.one_lt hpair.size_N
  rw [hpair.prv]
  exact ⟨(PaillierPrimes.encrypts_of_decrypt key.decrypts hpair.decrypt_cKey).verifyCipher rfl,
    hx.trans hN⟩

end Honest

end CbMpc
