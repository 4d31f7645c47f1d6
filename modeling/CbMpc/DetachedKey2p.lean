import CbMpc.KeyBlob2p

/-!
# Two-party blobs without the private scalar

A share may have grown beyond the order, so that the detached scalar is an integer of any length
below the modulus. The first party compares it with the plaintext of its ciphertext, the second one
has nothing but the point that the caller gives.
-/
namespace CbMpc

section Vartime

theorem modOp_vartime_of_ok {f : ℤ → ℤ → ℤ} {m : ℕ} {a b r : ℤ} (h : modOp f false m a b = .ok r) :
    modOp f true m a b = .ok r := by
  rw [eq_emod_of_modOp_ok h]
  rfl

theorem Crt.computePowerVartime_of_ok {crt : Crt} {NN : ℕ} {c r : ℤ}
    (h : crt.computePower NN c = .ok r) :
    crt.computePowerVartime NN c = .ok r := by
  obtain ⟨cModP, hP, h⟩ := bind_ok_iff.mp h
  obtain ⟨cModQ, hQ, h⟩ := bind_ok_iff.mp h
  obtain ⟨mp, hmp, h⟩ := bind_ok_iff.mp h
  obtain ⟨mq, hmq, h⟩ := bind_ok_iff.mp h
  obtain ⟨d, hd, h⟩ := bind_ok_iff.mp h
  obtain ⟨v, hv, h⟩ := bind_ok_iff.mp h
  obtain ⟨hq, hhq, h⟩ := bind_ok_iff.mp h
  have hd' : modSub true crt.p mp mq = .ok d := modOp_vartime_of_ok hd
  have hv' : modMul true crt.p crt.qinv d = .ok v := modOp_vartime_of_ok hv
  have hhq' : modMul true NN v crt.q = .ok hq := modOp_vartime_of_ok hhq
  have h' : modAdd true NN mq hq = .ok r := modOp_vartime_of_ok h
  simp only [Crt.computePowerVartime, hP, hQ, hmp, hmq, hd', hv', hhq', h', ok_bind]

theorem PaillierPrimes.decryptVartime_of_ok {key : PaillierPrimes} {src m : ℤ}
    (h : key.decrypt src = .ok m) :
    key.decryptVartime src = .ok m := by
  obtain ⟨hrange, h⟩ := cbAssert_bind_ok_iff.mp h
  obtain ⟨isCoprime, hcop, h⟩ := bind_ok_iff.mp h
  obtain ⟨hcop1, h⟩ := cbAssert_bind_ok_iff.mp h
  obtain ⟨cache, hcache, h⟩ := bind_ok_iff.mp h
  obtain ⟨c1, hc1, h⟩ := bind_ok_iff.mp h
  obtain ⟨-, h⟩ := cbAssert_bind_ok_iff.mp h
  have h' : modMul true key.N ((c1 - 1) % 2 ^ paillierBits * cache.invNMod2k % 2 ^ paillierBits)
      cache.invPhiN = .ok m :=
    modOp_vartime_of_ok h
  have hcop' : coprime true src key.N = .ok true := by
    rw [hcop1] at hcop
    rw [coprime, if_pos rfl, decide_eq_true (gcd_of_coprime hcop)]
  simp only [PaillierPrimes.decryptVartime, hrange, cbAssert_true, hcop', hcache,
    Crt.computePowerVartime_of_ok hc1, ok_bind]
  exact h'

end Vartime

section RoundTrip

variable {F : CurveId → CurveBackend} {L : LoosePaillier}

/-- The blob with the modulus in the place of the share. -/
def ApiKey2p.detached (key : ApiKey2p F) : KeyBlob2p := { key.blob with xShare := key.paillier.N }

/-- The scalar, with no more bytes than it has. -/
def ApiKey2p.scalar (key : ApiKey2p F) : Bytes := binPad (getBinSize key.xShare) key.xShare.natAbs

/-- The encoding of the public point of the share. -/
def ApiKey2p.publicShare (key : ApiKey2p F) : Bytes :=
  (F key.curve).toCompressedBin
    ((key.xShare : ZMod (F key.curve).q) • (F key.curve).curve.generator)

variable {role : Role} {c : CurveId} {key : Ecdsa2pKey (F c).E}

theorem Role.code_le (role : Role) : role.code.toNat ≤ 1 := by cases role <;> decide

theorem Role.eq_of_code (role : Role) :
    (if role.code = 0 then Role.p1 else .p2) = role := by cases role <;> rfl

/-- The role agrees with the presence of the private key. -/
theorem ConsistentKey2p.role_beq (h : ConsistentKey2p role key) :
    (decide (role.code = 0) == key.paillier.fields.hasPrivate) = true := by
  have hiff := h.role_iff
  cases role with
  | p1 =>
    rw [hiff.mp rfl]
    rfl
  | p2 =>
    have hfalse : key.paillier.fields.hasPrivate = false := by
      rw [Bool.eq_false_iff]
      intro htrue
      cases hiff.mpr htrue
    rw [hfalse]
    rfl

theorem ConsistentKey2p.bits_le (h : ConsistentKey2p role key) :
    paillierBits ≤ (key.paillier.N : ℤ).natAbs.size := by
  rw [Int.natAbs_natCast, h.modulus.2.1]

/-- The second party has nothing to compare the share with. -/
theorem checkPlain_eq (h : ConsistentKey2p role key) {decrypt : ℤ → Outcome ℤ}
    (hdecrypt : ∀ pk hpk m, key.paillier = .prv pk hpk → pk.decrypt key.cKey = .ok m →
      decrypt key.cKey = .ok m) :
    checkPlain decrypt key.paillier.fields key.cKey key.xShare = .ok () := by
  have hplain := h.plain
  have hrange := h.range
  obtain ⟨Q, x, cKey, P⟩ := key
  cases P with
  | pub N => rfl
  | prv pk hpk =>
    have hmod : modReduce pk.N x = .ok x := modReduce_of_isInRange hrange
    rw [checkPlain]
    simp only [Paillier.fields, if_true, hdecrypt pk hpk x rfl (hplain pk hpk rfl), ok_bind,
      Int.toNat_natCast, hmod, decide_true, require_true]

theorem PaillierFields.decrypt_of_key {pk : PaillierPrimes} {hpk : pk.Updates} {src m : ℤ}
    (h : pk.decrypt src = .ok m) :
    (Paillier.prv pk hpk).fields.decrypt L src = .ok m := by
  rw [PaillierFields.decrypt, PaillierFields.key_fields]
  exact h

theorem PaillierFields.decryptVartime_of_key {pk : PaillierPrimes} {hpk : pk.Updates} {src m : ℤ}
    (h : pk.decrypt src = .ok m) :
    (Paillier.prv pk hpk).fields.decryptVartime L src = .ok m := by
  rw [PaillierFields.decryptVartime, PaillierFields.key_fields]
  exact PaillierPrimes.decryptVartime_of_ok h

variable (hc : c ≠ .ed25519) (h : ConsistentKey2p role key)

include hc h in
/-- Every test before the one of the share passes, whatever the share is. -/
theorem blobToKey_withShare (x : ℤ) {blob : KeyBlob2p}
    (hblob : blob = { (ApiKey2p.ofKey (F := F) role c key).blob with xShare := x }) :
    blobToKey L F blob = (do
      require (isInRange key.paillier.N x) .format
      checkPlain (key.paillier.fields.decrypt L) key.paillier.fields key.cKey x
      let Q ← (F c).fromBin ((F c).toCompressedBin key.Q)
      let Q ← withCode .format (curveCheck false (.on Q))
      .ok ⟨role, c, Q, x, key.cKey, key.paillier.fields⟩) := by
  have hrole : blob.role = role.code := by rw [hblob]; rfl
  have hcurve : blobCurve blob.curve = .ok c := by rw [hblob]; exact blobCurve_code hc
  have hP : blob.paillier = key.paillier.fields := by rw [hblob]; rfl
  have hc : blob.cKey = key.cKey := by rw [hblob]; rfl
  have hx : blob.xShare = x := by rw [hblob]
  have hQ : blob.QCompressed = (F c).toCompressedBin key.Q := by rw [hblob]; rfl
  clear hblob
  obtain ⟨version, role', curve, QCompressed, x', cKey, P⟩ := blob
  simp only at hrole hcurve hP hc hx hQ
  subst hrole hP hc hx hQ
  rw [blobToKey]
  simp only [Role.code_le, decide_true, require_true, ok_bind, hcurve, h.role_beq, h.bits_le,
    Paillier.fields_N, Int.toNat_natCast, Paillier.verifyCipher_pub, h.cipher, withCode,
    Role.eq_of_code]

include h in
theorem ConsistentKey2p.sized : (ApiKey2p.ofKey (F := F) role c key).blob.Sized := by
  obtain ⟨h0, hlt⟩ := (isInRange_iff _).mp h.range
  exact h.sized_blob ⟨h0, hlt.le⟩

theorem ApiKey2p.detached_ofKey : (ApiKey2p.ofKey (F := F) role c key).detached =
    { (ApiKey2p.ofKey (F := F) role c key).blob with xShare := (key.paillier.N : ℤ) } :=
  congrArg (fun x => { (ApiKey2p.ofKey (F := F) role c key).blob with xShare := x })
    (Paillier.fields_N _)

include h in
theorem ConsistentKey2p.sized_detached : (ApiKey2p.ofKey (F := F) role c key).detached.Sized := by
  rw [ApiKey2p.detached_ofKey]
  exact h.sized_blob ⟨Int.natCast_nonneg _, le_rfl⟩

include h in
/-- A blob that differs from the one of the key in the share only is parsed back. -/
theorem deserialize_eq_blobToKey {x : ℤ} {blob : KeyBlob2p}
    (hblob : blob = { (ApiKey2p.ofKey (F := F) role c key).blob with xShare := x })
    (hsized : blob.Sized) :
    convertFrom (KeyBlob2p.read L) blob.bytes = .ok blob ∧
      deserializeKeyBlob2p L F blob.bytes = blobToKey L F blob := by
  have hP : blob.paillier = key.paillier.fields := by rw [hblob]; rfl
  have hversion : blob.version = 1 := by rw [hblob]; rfl
  have hparse : convertFrom (KeyBlob2p.read L) blob.bytes = .ok blob :=
    hsized.parse_eq (by rw [hP]; exact h.decodes_fields)
  have htake : fromBin (blob.bytes.take 4) = 1 := by
    rw [blob.take_bytes, hversion]
    decide
  refine ⟨hparse, ?_⟩
  rw [deserializeKeyBlob2p, decide_eq_true blob.four_le_length, require_true, ok_bind,
    decide_eq_true htake, require_true, ok_bind, hparse, ok_bind, decide_eq_true hversion,
    require_true, ok_bind]

theorem serializeKeyBlob2p_eq (garbage : ℕ → Fin 256) (hc : c ≠ .ed25519)
    (h : ConsistentKey2p role key) :
    serializeKeyBlob2p garbage (ApiKey2p.ofKey (F := F) role c key) =
      .ok (ApiKey2p.ofKey (F := F) role c key).blob.bytes := by
  have hc' : (ApiKey2p.ofKey (F := F) role c key).curve ≠ .ed25519 := hc
  rw [serializeKeyBlob2p, decide_eq_true hc', require_true, ok_bind]
  exact h.sized.ser_eq garbage

include hc h in
/-- All that can go wrong with the blob of a key is its public point. -/
theorem deserializeKeyBlob2p_blob :
    deserializeKeyBlob2p L F (ApiKey2p.ofKey (F := F) role c key).blob.bytes = (do
    let Q ← (F c).fromBin ((F c).toCompressedBin key.Q)
    let Q ← withCode .format (curveCheck false (.on Q))
    .ok ⟨role, c, Q, key.xShare, key.cKey, key.paillier.fields⟩) := by
  have hplain : checkPlain (key.paillier.fields.decrypt L) key.paillier.fields
      key.cKey key.xShare = .ok () :=
    checkPlain_eq h fun pk _ m hpk hm => by
      rw [hpk]
      exact PaillierFields.decrypt_of_key hm
  have hblob := Eq.refl (ApiKey2p.ofKey (F := F) role c key).blob
  have hload := blobToKey_withShare (L := L) hc h key.xShare hblob
  rw [(deserialize_eq_blobToKey h (x := key.xShare) hblob h.sized).2, hload, h.range, require_true,
    ok_bind, hplain, ok_bind]

include hc h in
theorem deserializeKeyBlob2p_eq (hQ : key.Q ≠ 0) :
    deserializeKeyBlob2p L F (ApiKey2p.ofKey role c key).blob.bytes =
    .ok (ApiKey2p.ofKey role c key) := by
  rw [deserializeKeyBlob2p_blob hc h, CurveBackend.fromBin_toCompressedBin (.inr hQ), ok_bind]
  simp only [curveCheck, hQ, decide_false, Bool.and_false, Bool.false_eq_true, if_false,
    withCode, ok_bind]
  rfl

include hc h in
/-- The point at infinity is written, and refused when it is read. -/
theorem deserializeKeyBlob2p_infinity (htype : (F c).curve.type = .ossl) (hQ : key.Q = 0) :
    deserializeKeyBlob2p L F (ApiKey2p.ofKey (F := F) role c key).blob.bytes = fail .format := by
  rw [deserializeKeyBlob2p_blob hc h, CurveBackend.fromBin_toCompressedBin (.inl htype),
    ok_bind, hQ]
  simp only [curveCheck, decide_true, Bool.not_false, Bool.and_self, if_true]
  rfl

include hc h in
/-- A blob without its share is refused, since the modulus is out of range. -/
theorem deserializeKeyBlob2p_rejects :
    Rejects (deserializeKeyBlob2p L F (ApiKey2p.ofKey (F := F) role c key).detached.bytes) := by
  have hrange : isInRange key.paillier.N key.paillier.N = false := by
    rw [isInRange, decide_eq_false_iff_not]
    omega
  rw [(deserialize_eq_blobToKey h ApiKey2p.detached_ofKey h.sized_detached).2,
    blobToKey_withShare hc h _ ApiKey2p.detached_ofKey, hrange]
  exact rejects_fail .format

end RoundTrip

section EntryPoints

theorem returns_validateJob2p (job : ApiJob2p) : Returns (validateJob2p job) :=
  returns_bind_iff.mpr ⟨returns_require _ _, fun _ _ =>
      returns_bind_iff.mpr ⟨returns_require _ _, fun _ _ =>
    returns_bind_iff.mpr ⟨returns_require _ _, fun _ _ => returns_require _ _⟩⟩⟩

variable {F : CurveId → CurveBackend} {L : LoosePaillier} {role : Role} {c : CurveId}
  {key : Ecdsa2pKey (F c).E}

/-- What the functions that start a two-party protocol make of a blob: they return an error,
whatever the job. -/
structure EntryPointsReject2p (L : LoosePaillier) (F : CurveId → CurveBackend)
    (src : Bytes) : Prop where
  sign : ∀ (α : Type) (rest : ApiKey2p F → Outcome α) (job : ApiJob2p) (msgHash : Bytes),
    Rejects (sign2p L F rest job src msgHash)
  refresh : ∀ (α : Type) (rest : ApiKey2p F → Outcome α) (job : ApiJob2p),
    Rejects (refresh2p L F rest job src)

theorem detached2p_rejected (hc : c ≠ .ed25519) (h : ConsistentKey2p role key) :
    EntryPointsReject2p L F (ApiKey2p.ofKey (F := F) role c key).detached.bytes where
  sign _ _ job msgHash := rejects_bind (returns_validateJob2p job) fun _ _ =>
    rejects_bind (returns_validateMemArgMaxSize _ _) fun _ _ =>
      rejects_bind (returns_validateMemArgMaxSize msgHash _)
      fun _ _ => (deserializeKeyBlob2p_rejects hc h).bind _
  refresh _ _ job := rejects_bind (returns_validateJob2p job) fun _ _ =>
    rejects_bind (returns_validateMemArgMaxSize _ _) fun _ _ =>
      (deserializeKeyBlob2p_rejects hc h).bind _

end EntryPoints

section Attach

variable {F : CurveId → CurveBackend} {L : LoosePaillier} {role : Role} {c : CurveId}
  {key : Ecdsa2pKey (F c).E} (hc : c ≠ .ed25519) (h : ConsistentKey2p role key)

theorem KeyBlob2p.Sized.validate {blob : KeyBlob2p} (h : blob.Sized) :
    validateMemArgMaxSize blob.bytes maxOpaqueBlobSize = .ok () := by
  have hne : blob.bytes ≠ [] := List.ne_nil_of_length_pos (by have := blob.four_le_length; omega)
  rw [validateMemArgMaxSize, validateMemArg, decide_eq_true hne, require_true, ok_bind,
    decide_eq_true h.length_bytes, require_true]

/-- A share below the modulus is short enough for every reduction. -/
theorem ConsistentKey2p.modReduce_order (h : ConsistentKey2p role key) {x : ℤ}
    (hx : isInRange key.paillier.N x = true) :
    modReduce (F c).q x = .ok (residue (x : ZMod (F c).q)) := by
  obtain ⟨h0, hlt⟩ := (isInRange_iff x).mp hx
  have hbig : x < 2 ^ 4096 :=
    (hlt.trans h.N_lt).trans (pow_lt_pow_right₀ (by norm_num) (by norm_num))
  rw [modReduce_eq_emod (F c).prime.out.two_le h0 hbig, emod_eq_residue]

include hc h in
theorem detachPrivateScalar2p_eq (garbage : ℕ → Fin 256) (hQ : key.Q ≠ 0) :
    detachPrivateScalar2p garbage L F (ApiKey2p.ofKey (F := F) role c key).blob.bytes =
      .ok ((ApiKey2p.ofKey (F := F) role c key).detached.bytes,
        (ApiKey2p.ofKey (F := F) role c key).scalar) := by
  have hc' : (ApiKey2p.ofKey (F := F) role c key).curve ≠ .ed25519 := hc
  have hbin : toBin (ApiKey2p.ofKey (F := F) role c key).xShare
      (getBinSize (ApiKey2p.ofKey (F := F) role c key).xShare) =
      .ok (ApiKey2p.ofKey (F := F) role c key).scalar := by
    rw [toBin, decide_eq_true le_rfl]
    rfl
  have hser : ser garbage (ApiKey2p.ofKey (F := F) role c key).detached.write =
      .ok (ApiKey2p.ofKey (F := F) role c key).detached.bytes := h.sized_detached.ser_eq garbage
  rw [detachPrivateScalar2p, h.sized.validate, ok_bind, deserializeKeyBlob2p_eq hc h hQ, ok_bind,
    decide_eq_true hc', require_true, ok_bind, hbin, ok_bind]
  rw [ApiKey2p.detached] at hser
  rw [hser, ok_bind, ApiKey2p.detached]

include hc h in
theorem getPublicShareCompressed2p_eq (hQ : key.Q ≠ 0) :
    getPublicShareCompressed2p L F (ApiKey2p.ofKey (F := F) role c key).blob.bytes =
      .ok (ApiKey2p.ofKey (F := F) role c key).publicShare := by
  have hmod : modReduce (F c).q key.xShare = .ok (residue (key.xShare : ZMod (F c).q)) :=
    h.modReduce_order h.range
  rw [getPublicShareCompressed2p, h.sized.validate, ok_bind,
    deserializeKeyBlob2p_eq hc h hQ, ok_bind]
  change (do
    let x ← modReduce (F c).q key.xShare
    let X ← (F c).curve.mulToGenerator x
    .ok ((F c).toCompressedBin X)) = _
  rw [hmod, ok_bind, mulToGenerator_residue, ok_bind]
  rfl

include hc h in
/-- What attaching to the detached blob of a key comes down to. -/
theorem attachPrivateScalar2p_detached (garbage : ℕ → Fin 256) (scalar publicShare : Bytes) :
    attachPrivateScalar2p garbage L F (ApiKey2p.ofKey (F := F) role c key).detached.bytes
      scalar publicShare = (do
      validateMemArg scalar
      validateMemArg publicShare
      require (isInRange key.paillier.N (fromBin scalar)) .format
      checkPlain (key.paillier.fields.decryptVartime L) key.paillier.fields
        key.cKey (fromBin scalar)
      let x ← modReduce (F c).q (fromBin scalar)
      require (isInRange (F c).q x) .format
      let P ← (F c).fromBin publicShare
      let P ← curveCheck false (.on P)
      let X ← (F c).curve.mulToGenerator x
      require (decide (X = P)) .format
      let Q ← (F c).fromBin ((F c).toCompressedBin key.Q)
      let Q ← curveCheck false (.on Q)
      ser garbage { (ApiKey2p.ofKey (F := F) role c key).blob with
        QCompressed := (F c).toCompressedBin Q, xShare := fromBin scalar }.write) := by
  have hvalidate := (h.sized_detached (F := F)).validate
  obtain ⟨hparse, -⟩ := deserialize_eq_blobToKey (L := L) h ApiKey2p.detached_ofKey h.sized_detached
  rw [attachPrivateScalar2p, hvalidate, ok_bind, hparse, ok_bind]
  obtain ⟨blob, hblob⟩ : ∃ blob, blob = (ApiKey2p.ofKey (F := F) role c key).detached := ⟨_, rfl⟩
  have hversion : blob.version = 1 := by rw [hblob]; rfl
  have hrole : blob.role = role.code := by rw [hblob]; rfl
  have hcode : blob.curve = c.code := by rw [hblob]; rfl
  have hP : blob.paillier = key.paillier.fields := by rw [hblob]; rfl
  have hcKey : blob.cKey = key.cKey := by rw [hblob]; rfl
  have hQ : blob.QCompressed = (F c).toCompressedBin key.Q := by rw [hblob]; rfl
  rw [← hblob]
  clear hblob
  obtain ⟨version, role', curve, QCompressed, x, cKey, P⟩ := blob
  simp only at hversion hrole hcode hP hcKey hQ
  subst hversion hrole hcode hP hcKey hQ
  simp only [decide_true, require_true, ok_bind, Role.code_le, blobCurve_code hc, h.role_beq,
    h.bits_le, Paillier.fields_N, Int.toNat_natCast, Paillier.verifyCipher_pub, h.cipher, withCode]
  rfl

theorem ConsistentKey2p.fromBin_scalar (h : ConsistentKey2p role key) :
    (fromBin (ApiKey2p.ofKey (F := F) role c key).scalar : ℤ) = key.xShare := by
  have habs : (key.xShare.natAbs : ℤ) = key.xShare :=
    Int.natAbs_of_nonneg ((isInRange_iff _).mp h.range).1
  have hpow : key.xShare.natAbs < 256 ^ getBinSize key.xShare :=
    lt_pow_of_getBinSize_le (by rw [habs])
  rw [ApiKey2p.scalar]
  change ((fromBin (binPad (getBinSize key.xShare) key.xShare.natAbs) : ℕ) : ℤ) = _
  rw [fromBin_binPad hpow, habs]

theorem checkPlainVartime_eq (h : ConsistentKey2p role key) :
    checkPlain (key.paillier.fields.decryptVartime L) key.paillier.fields
      key.cKey key.xShare = .ok () :=
  checkPlain_eq h fun pk _ m hpk hm => by
    rw [hpk]
    exact PaillierFields.decryptVartime_of_key hm

include hc h in
/-- The detached scalar fits its own blob again. -/
theorem attachPrivateScalar2p_eq (garbage : ℕ → Fin 256) (hQ : key.Q ≠ 0)
    (hx : (key.xShare : ZMod (F c).q) ≠ 0) :
    attachPrivateScalar2p garbage L F (ApiKey2p.ofKey (F := F) role c key).detached.bytes
      (ApiKey2p.ofKey (F := F) role c key).scalar (ApiKey2p.ofKey (F := F) role c key).publicShare =
      .ok (ApiKey2p.ofKey (F := F) role c key).blob.bytes := by
  have hne : key.xShare ≠ 0 := fun h0 => hx (by rw [h0, Int.cast_zero])
  have hpos : 0 < getBinSize key.xShare := by
    have hsize : 0 < key.xShare.natAbs.size := Nat.size_pos.mpr (Int.natAbs_pos.mpr hne)
    rw [getBinSize, bitsToBytes]
    omega
  have hscalar : (ApiKey2p.ofKey (F := F) role c key).scalar ≠ [] :=
    List.ne_nil_of_length_pos ((length_binPad _ _).symm ▸ hpos)
  have hpoint : (key.xShare : ZMod (F c).q) • (F c).curve.generator ≠ 0 := fun h0 =>
    hx ((smul_generator_eq_zero _).mp h0)
  have hpublic : (ApiKey2p.ofKey (F := F) role c key).publicShare =
      (F c).toCompressedBin ((key.xShare : ZMod (F c).q) • (F c).curve.generator) := rfl
  rw [attachPrivateScalar2p_detached hc h, hpublic, h.fromBin_scalar, checkPlainVartime_eq h]
  simp only [validateMemArg, hscalar, CurveBackend.toCompressedBin_ne_nil, h.range,
    h.modReduce_order h.range, isInRange_residue,
    CurveBackend.fromBin_toCompressedBin (.inr hpoint),
    CurveBackend.fromBin_toCompressedBin (.inr hQ), curveCheck, hpoint, hQ,
    mulToGenerator_residue, ne_eq, not_false_eq_true, decide_true, decide_false, require_true,
    ok_bind, Bool.and_false, Bool.false_eq_true, if_false]
  exact h.sized.ser_eq garbage

include hc h in
/-- A scalar that is attached has the point that the caller gave, and at the first party it is the
share. -/
theorem attachPrivateScalar2p_ok {garbage : ℕ → Fin 256} {scalar publicShare out : Bytes}
    (hattach : attachPrivateScalar2p garbage L F
      (ApiKey2p.ofKey (F := F) role c key).detached.bytes scalar publicShare =
      .ok out) :
    (publicShare = (ApiKey2p.ofKey (F := F) role c key).publicShare →
      (key.xShare : ZMod (F c).q) ≠ 0 →
      ((fromBin scalar : ℕ) : ZMod (F c).q) = key.xShare) ∧
      (role = .p1 → (fromBin scalar : ℤ) = key.xShare) := by
  rw [attachPrivateScalar2p_detached hc h] at hattach
  obtain ⟨u, -, hattach⟩ := bind_ok_iff.mp hattach
  obtain ⟨u', -, hattach⟩ := bind_ok_iff.mp hattach
  obtain ⟨hrange, hattach⟩ := require_bind_ok_iff.mp hattach
  obtain ⟨u'', hplain, hattach⟩ := bind_ok_iff.mp hattach
  obtain ⟨x, hmod, hattach⟩ := bind_ok_iff.mp hattach
  obtain ⟨-, hattach⟩ := require_bind_ok_iff.mp hattach
  obtain ⟨P, hP, hattach⟩ := bind_ok_iff.mp hattach
  obtain ⟨P', hP', hattach⟩ := bind_ok_iff.mp hattach
  obtain ⟨X, hX, hattach⟩ := bind_ok_iff.mp hattach
  obtain ⟨heq, -⟩ := require_bind_ok_iff.mp hattach
  constructor
  · rintro rfl hx
    have hpoint : (key.xShare : ZMod (F c).q) • (F c).curve.generator ≠ 0 := fun h0 =>
      hx ((smul_generator_eq_zero _).mp h0)
    have hown : (F c).fromBin (ApiKey2p.ofKey (F := F) role c key).publicShare =
        .ok ((key.xShare : ZMod (F c).q) • (F c).curve.generator) :=
          CurveBackend.fromBin_toCompressedBin (.inr hpoint)
    rw [hown] at hP
    cases hP
    have hcast : (x : ZMod (F c).q) = key.xShare := by
      refine smul_generator_injective (F c).curve ?_
      rw [← mulToGenerator_ok _ hX, of_decide_eq_true heq, eq_of_curveCheck_on hP']
    rw [← hcast, modReduce_cast hmod, Int.cast_natCast]
  · intro hrole
    have hprv := h.role_iff.mp hrole
    have hmodN := modReduce_of_isInRange hrange
    have hkey := h.plain
    obtain ⟨Q, xShare, cKey, P⟩ := key
    cases P with
    | pub N => cases hprv
    | prv pk hpk =>
      rw [checkPlain, if_pos hprv] at hplain
      simp only [PaillierFields.decryptVartime_of_key (hkey pk hpk rfl), Paillier.fields_N,
        Int.toNat_natCast, hmodN, ok_bind] at hplain
      exact (of_decide_eq_true ((require_ok_iff _ _).mp hplain)).symm

end Attach

end CbMpc
