import CbMpc.AcHonest
import CbMpc.Dkg
import CbMpc.HeldKeys2p

/-!
# Backups of keys

Every key that a party holds comes back from its blob, and its private scalar can be kept apart from
it.
-/
namespace CbMpc

section Backup

variable (garbage : ℕ → Fin 256) (L : LoosePaillier) (F : CurveId → CurveBackend)

/-- The blob `blob` of a key is split into `out` and `scalar`. Nothing but a representative of the
share is accepted in the place of the scalar. -/
structure Detached (key : ApiKey F) (blob out scalar publicShare : Bytes) : Prop where
  detach : detachPrivateScalar garbage F blob = .ok (out, scalar)
  getPublicShare : getPublicShareCompressed blob = .ok publicShare
  attach : attachPrivateScalar garbage F out scalar publicShare = .ok blob
  rejected : EntryPointsReject F out
  share_of_attach : ∀ s P out', attachPrivateScalar garbage F out s P = .ok out' →
    ((fromBin s : ℕ) : ZMod (F key.curve).q) = key.share.xShare

/-- A multi-party key and the blob that `additive` chooses. The jobs list the same parties in any
order. -/
structure BackedUp (additive : Bool) (names : List PName) (key : ApiKey F)
    (blob : Bytes) : Prop where
  serialize : ∀ job : ApiJob, job.IsOf names key.share.partyName →
    serializeBlob garbage additive job key = .ok blob
  deserialize : ∀ job : ApiJob, job.IsOf names key.share.partyName →
    deserializeBlob F additive job blob = .ok key
  detached : blob.length ≤ maxOpaqueBlobSize → (key.share.xShare : ZMod (F key.curve).q) ≠ 0 →
    ∃ out scalar publicShare, Detached garbage F key blob out scalar publicShare

/-- The same of a two-party blob, whose second party has nothing but the public point to compare a
scalar with. -/
structure Detached2p (key : ApiKey2p F) (blob out scalar publicShare : Bytes) : Prop where
  detach : detachPrivateScalar2p garbage L F blob = .ok (out, scalar)
  getPublicShare : getPublicShareCompressed2p L F blob = .ok publicShare
  attach : attachPrivateScalar2p garbage L F out scalar publicShare = .ok blob
  rejected : EntryPointsReject2p L F out
  share_of_attach : ∀ s out', attachPrivateScalar2p garbage L F out s publicShare = .ok out' →
    ((fromBin s : ℕ) : ZMod (F key.curve).q) = key.xShare
  eq_of_attach : key.role = .p1 → ∀ s P out', attachPrivateScalar2p garbage L F out s P = .ok out' →
    (fromBin s : ℤ) = key.xShare

structure BackedUp2p (key : ApiKey2p F) (blob : Bytes) : Prop where
  serialize : serializeKeyBlob2p garbage key = .ok blob
  deserialize : deserializeKeyBlob2p L F blob = .ok key
  detached : (key.xShare : ZMod (F key.curve).q) ≠ 0 →
    ∃ out scalar publicShare, Detached2p garbage L F key blob out scalar publicShare

variable {F}

theorem backedUp {names : List PName} {key : ApiKey F} {additive : Bool}
    (hrep : key.Representable names) (hkey : ConsistentShare (F key.curve).curve names key.share)
    (hsum : additive = true → key.share.Q = key.share.Qis.values.sum) :
    BackedUp garbage F additive names key (key.blob additive).bytes where
  serialize _ hjob := serializeBlob_eq garbage hrep hkey hjob
  deserialize _ hjob := deserializeBlob_eq hrep hkey hsum hjob
  detached hlen hx := ⟨(key.detached additive).bytes, key.scalar, key.publicShare,
    detachPrivateScalar_eq hrep hkey garbage hlen, getPublicShareCompressed_eq hrep hkey hlen,
    attachPrivateScalar_eq hrep hkey hx garbage hlen, detached_rejected hrep hkey hx,
    fun _ _ _ h => (attachPrivateScalar_ok hrep hkey hx hlen h).1⟩

theorem backedUp2p {role : Role} {c : CurveId} {key : Ecdsa2pKey (F c).E} (hc : c ≠ .ed25519)
    (hkey : ConsistentKey2p role key) (hQ : key.Q ≠ 0) :
    BackedUp2p garbage L F (ApiKey2p.ofKey role c key)
      (ApiKey2p.ofKey (F := F) role c key).blob.bytes where
  serialize := serializeKeyBlob2p_eq garbage hc hkey
  deserialize := deserializeKeyBlob2p_eq hc hkey hQ
  detached hx := ⟨(ApiKey2p.ofKey (F := F) role c key).detached.bytes,
    (ApiKey2p.ofKey (F := F) role c key).scalar, (ApiKey2p.ofKey (F := F) role c key).publicShare,
    detachPrivateScalar2p_eq hc hkey garbage hQ, getPublicShareCompressed2p_eq hc hkey hQ,
    attachPrivateScalar2p_eq hc hkey garbage hQ hx, detached2p_rejected hc hkey,
    fun _ _ h => (attachPrivateScalar2p_ok hc hkey h).1 rfl hx,
    fun hrole _ _ _ h => (attachPrivateScalar2p_ok hc hkey h).2 hrole⟩

variable (F) {D R P : Type} [DecidableEq D] [Inhabited R] [Inhabited P]
  (o : ∀ c, Oracles (F c).E D R P)

/-- Whatever the other parties sent, every key that is held comes back from its blob, and scalars
are detached and attached without loss. What is asked of the first of two parties holds in every run
with an honest second one. -/
theorem heldKeys_backedUp :
    (∀ (names : List PName) (key : ApiKey F),
      HeldAdditive (o key.curve) (F key.curve).curve names key.share →
      key.Representable names → ∃ blob, BackedUp garbage F true names key blob) ∧
    (∀ (names : List PName) (key : ApiKey F),
      HeldAc (o key.curve) (F key.curve).curve names key.share →
      key.Representable names → ∃ blob, BackedUp garbage F false names key blob) ∧
    (∀ (c : CurveId) (key : Ecdsa2pKey (F c).E), c ≠ .ed25519 → HeldP1 (F c).curve key →
      key.paillier.verifyCipher key.cKey = .ok () → key.xShare < key.paillier.N → key.Q ≠ 0 →
      ∃ blob, BackedUp2p garbage L F (ApiKey2p.ofKey .p1 c key) blob) ∧
    (∀ (c : CurveId) (key : Ecdsa2pKey (F c).E), c ≠ .ed25519 → HeldP2 (F c).curve key → key.Q ≠ 0 →
      ∃ blob, BackedUp2p garbage L F (ApiKey2p.ofKey .p2 c key) blob) ∧
    ∀ (c : CurveId) (ω : DkgRandomness (F c).q) (zk : DkgVerdicts)
      (run : List (RefreshRandomness (F c).q × Outcome Unit))
      (keys keys' : Ecdsa2pKey (F c).E × Ecdsa2pKey (F c).E), c ≠ .ed25519 →
      ecdsa2pDkg (F c).curve ω zk = .ok keys →
      refreshRun keys run = .ok keys' → run.length < 2 ^ secPStat → keys'.1.Q ≠ 0 →
      (∃ blob, BackedUp2p garbage L F (ApiKey2p.ofKey .p1 c keys'.1) blob) ∧
        ∃ blob, BackedUp2p garbage L F (ApiKey2p.ofKey .p2 c keys'.2) blob := by
  refine ⟨fun names key hkey hrep => ?_, fun names key hkey hrep => ?_,
    fun c key hc hkey hcipher hlt hQ => ?_,
    fun c key hc hkey hQ => ?_, fun c ω zk run keys keys' hc hdkg hrun hlen hQ => ?_⟩
  · exact ⟨_, backedUp garbage hrep hkey.consistentShare.1 fun _ => hkey.consistentShare.2⟩
  · exact ⟨_, backedUp garbage hrep hkey.consistentShare fun h => absurd h Bool.false_ne_true⟩
  · exact ⟨_, backedUp2p garbage L hc (hkey.consistentKey hcipher hlt) hQ⟩
  · exact ⟨_, backedUp2p garbage L hc hkey.consistentKey hQ⟩
  · obtain ⟨hdkg1, hdkg2⟩ := held_of_ecdsa2pDkg hdkg
    obtain ⟨h1, h2⟩ := held_of_refreshRun hdkg1 hdkg2 hrun
    obtain ⟨key, hpair⟩ := (ecdsa2pDkg_pair hdkg).refreshRun (by omega) hrun
    obtain ⟨hcipher, hlt⟩ := hpair.cKey_accepted (by omega)
    have hQ2 : keys'.2.Q ≠ 0 := hpair.Q_eq ▸ hQ
    exact ⟨⟨_, backedUp2p garbage L hc (h1.consistentKey hcipher hlt) hQ⟩,
      ⟨_, backedUp2p garbage L hc h2.consistentKey hQ2⟩⟩

end Backup

section Examples

/-- The curve of the scalars, with two bytes for a point. -/
def sampleBackend : CurveBackend where
  q := 1009
  prime := inferInstance
  order_size := by decide +kernel
  E := ZMod 1009
  group := inferInstance
  module := inferInstance
  decEq := inferInstance
  curve := sampleCurve
  size := 2
  size_le := by decide
  oct P := 2 :: binPad 2 P.val
  parse
    | [] => none
    | _ :: x => some (fromBin x)
  length_oct P _ := by rw [List.length_cons, length_binPad]
  head_oct P _ := by
    rw [List.head?_cons]
    decide
  parse_oct P _ := by
    have hlt : P.val < 256 ^ 2 := P.val_lt.trans (by norm_num)
    simp only [fromBin_binPad hlt]
    exact congrArg some (ZMod.natCast_rightInverse P)

def sampleBackends : CurveId → CurveBackend := fun _ => sampleBackend

/-- Nothing is known about loose numbers. -/
def sampleLoose : LoosePaillier :=
  ⟨fun _ => throwing .assertionFailed, fun _ _ => throwing .assertionFailed⟩

theorem sampleBackends_representable {names : List PName} {key : ApiKey sampleBackends}
    (hc : key.curve = .p256) (hnames : ∀ name ∈ names, name.length ≤ shrtMax) :
    key.Representable names :=
  ⟨by rw [hc]; decide, hnames, .inl rfl, fun _ _ _ => .inl rfl⟩

theorem sampleJob_names : ∀ name ∈ List.ofFn sampleJob.names, name.length ≤ shrtMax := by decide

/-- A party of the sample tree without a key. -/
def newParty (i : Fin 5) : AcParty 1009 (ZMod 1009) ℕ :=
  { sampleParty i with key := ⟨0, 0, .empty, sampleCurve, sampleNames i⟩ }

/-- The key of `a` after the parties of the sample tree ran `dkg_ac`. -/
theorem heldAc_sample : ∃ share,
      HeldAc sampleOracles sampleCurve (List.ofFn sampleJob.names) share := by
  have hv := sampleSession_valid false
  choose τ hτ using fun j => exists_labelling hv (newParty j)
  have haff : ∀ j ∈ (sampleSession false).quorum,
      AffineDealing (sampleSession false) (τ j) := fun j _ =>
    (hτ j).affine rfl (sampleParty_nonzero j)
  have hrun : acResult sampleOracles (sampleSession false) newParty
      (honestRun sampleOracles (sampleSession false) newParty .netGeneral) 0 = .ok _ :=
    acResult_dkg hv sampleOracles_complete rfl (fun j _ => hτ j) haff 0
  exact ⟨_, .dkg (sampleSession false) rfl rfl (by decide) 0 (newParty 0) rfl _ _ _ _ hrun⟩

/-- Shares of two parties that cancel each other. -/
def cancellingRandomness : DkgRandomness 1009 :=
  { sampleDkgRandomness with x2 := 1004, x2_range := by decide }

theorem dkg2p_ok (ω : DkgRandomness 1009) (hP : ω.paillier = samplePaillierKey)
    (h1 : ω.x1 ≠ 0) (h2 : ω.x2 ≠ 0) (hr : ω.rKey = 1) :
    ∃ keys, ecdsa2pDkg sampleCurve ω ⟨.ok (), .ok (), .ok (), .ok (), .ok (), .ok ()⟩ = .ok keys :=
  ecdsa2pDkg_ok sampleCurve h1 h2 (by rw [hr]; exact Int.one_gcd) (by rw [hP]; exact size_sampleN)

/-- The public key of shares that cancel each other is infinity, and the blob of the key is not
accepted again. -/
theorem cancellingKeys_lost : ∃ keys blob,
    ecdsa2pDkg sampleCurve cancellingRandomness ⟨.ok (), .ok (), .ok (), .ok (), .ok (),
      .ok ()⟩ = .ok keys ∧
    keys.2.xShare ≠ 0 ∧
    serializeKeyBlob2p (fun _ => 0) (ApiKey2p.ofKey (F := sampleBackends) .p2 .p256 keys.2) =
      .ok blob ∧
    deserializeKeyBlob2p sampleLoose sampleBackends blob = fail .format := by
  obtain ⟨keys, hkeys⟩ := dkg2p_ok cancellingRandomness rfl (by decide) (by decide) rfl
  obtain ⟨hx1, hx2⟩ := ecdsa2pDkg_shares hkeys
  have hpair := ecdsa2pDkg_pair hkeys
  have hkey : ConsistentKey2p .p2 keys.2 := (held_of_ecdsa2pDkg hkeys).2.consistentKey
  have hQ : keys.2.Q = 0 := by
    rw [hpair.Q_eq, ← hpair.sum, hx1, hx2]
    decide
  refine ⟨keys, _, hkeys, ?_, serializeKeyBlob2p_eq (F := sampleBackends) _ (by decide) hkey,
    deserializeKeyBlob2p_infinity (F := sampleBackends) (by decide) hkey rfl hQ⟩
  rw [hx2]
  decide

/-- The keys of party `a`, along the tree and without it, and those of two parties before and after
a refresh. -/
theorem heldKeys_backedUp_sample :
    (∃ (key : ApiKey sampleBackends) (blob : Bytes),
      HeldAdditive sampleOracles sampleCurve (List.ofFn sampleJob.names) key.share ∧
      BackedUp (fun _ => 0) sampleBackends true (List.ofFn sampleJob.names) key blob) ∧
    (∃ (key : ApiKey sampleBackends) (blob : Bytes),
      HeldAc sampleOracles sampleCurve (List.ofFn sampleJob.names) key.share ∧
      BackedUp (fun _ => 0) sampleBackends false (List.ofFn sampleJob.names) key blob) ∧
    ∃ keys : Ecdsa2pKey (ZMod 1009) × Ecdsa2pKey (ZMod 1009),
      ecdsa2pDkg sampleCurve sampleDkgRandomness ⟨.ok (), .ok (), .ok (), .ok (), .ok (),
        .ok ()⟩ = .ok keys ∧
      (∃ blob1 blob2 : Bytes,
        BackedUp2p (fun _ => 0) sampleLoose sampleBackends (ApiKey2p.ofKey .p1 .p256 keys.1) blob1 ∧
        BackedUp2p (fun _ => 0) sampleLoose sampleBackends
          (ApiKey2p.ofKey .p2 .p256 keys.2) blob2) ∧
      ∃ keys' : Ecdsa2pKey (ZMod 1009) × Ecdsa2pKey (ZMod 1009),
        refreshRun keys [(sampleRefreshRandomness, .ok ())] = .ok keys' ∧ ∃ blob1 blob2 : Bytes,
          BackedUp2p (fun _ => 0) sampleLoose sampleBackends
            (ApiKey2p.ofKey .p1 .p256 keys'.1) blob1 ∧
          BackedUp2p (fun _ => 0) sampleLoose sampleBackends
            (ApiKey2p.ofKey .p2 .p256 keys'.2) blob2 := by
  obtain ⟨hadditive, hac, hp1, hp2, hruns⟩ :=
    heldKeys_backedUp (fun _ => 0) sampleLoose sampleBackends (fun _ => sampleOracles)
  refine ⟨?_, ?_, ?_⟩
  · have hheld : HeldAdditive sampleOracles sampleCurve (List.ofFn sampleJob.names)
        (sharedKey sampleJob sampleCurve (fun _ => 5) 0) :=
      .dkg sampleDkgSession rfl (by decide) 0 (sampleDkgParty 0) _ _ (sampleDkg_ok 0)
    let key : ApiKey sampleBackends := ⟨.p256, _, hheld.consistentShare.1.curve_eq⟩
    obtain ⟨blob, hblob⟩ := hadditive _ key hheld (sampleBackends_representable rfl sampleJob_names)
    exact ⟨key, blob, hheld, hblob⟩
  · obtain ⟨share, hheld⟩ := heldAc_sample
    let key : ApiKey sampleBackends := ⟨.p256, share, hheld.consistentShare.curve_eq⟩
    obtain ⟨blob, hblob⟩ := hac _ key hheld (sampleBackends_representable rfl sampleJob_names)
    exact ⟨key, blob, hheld, hblob⟩
  · obtain ⟨keys, hkeys⟩ := dkg2p_ok sampleDkgRandomness rfl (by decide) (by decide) rfl
    obtain ⟨hx1, hx2⟩ := ecdsa2pDkg_shares hkeys
    obtain ⟨h1, h2⟩ := held_of_ecdsa2pDkg hkeys
    have hpair := ecdsa2pDkg_pair hkeys
    have hQ : keys.1.Q ≠ 0 := by
      rw [← hpair.sum, hx1, hx2]
      decide
    obtain ⟨hcipher, hlt⟩ := hpair.cKey_accepted (by decide)
    obtain ⟨blob1, hblob1⟩ := hp1 .p256 keys.1 (by decide) h1 hcipher hlt hQ
    obtain ⟨blob2, hblob2⟩ := hp2 .p256 keys.2 (by decide) h2 (hpair.Q_eq ▸ hQ)
    obtain ⟨keys', hkeys'⟩ :=
      hpair.refresh_ok (by decide) (sampleRefreshRandomness_good keys.1.xShare)
    have hrun : refreshRun keys [(sampleRefreshRandomness, .ok ())] = .ok keys' := by
      simp only [refreshRun, List.foldlM_cons, List.foldlM_nil, hkeys', ok_bind]
      rfl
    obtain ⟨⟨blob1', hblob1'⟩, blob2', hblob2'⟩ :=
      hruns .p256 _ _ _ keys keys' (by decide) hkeys hrun (by decide)
      (ecdsa2pRefresh_Q hkeys' ▸ hQ)
    exact ⟨keys, hkeys, ⟨blob1, blob2, hblob1, hblob2⟩, keys', hrun, blob1', blob2',
      hblob1', hblob2'⟩

end Examples

end CbMpc
