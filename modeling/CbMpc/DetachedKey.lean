import CbMpc.KeyBlob

/-!
# Blobs without the private scalar

Detaching sets the share of a blob to 0. The public point of the share stays in the blob, so that
the protocols refuse the detached blob and attaching finds out whether a scalar belongs to it.
-/
namespace CbMpc

section Rejects

variable {α β : Type}

/-- The function returns an error code. -/
def Rejects (x : Outcome α) : Prop := ∃ rv, x = fail rv

theorem rejects_fail (rv : ErrorCode) : Rejects (fail rv : Outcome α) := ⟨rv, rfl⟩

theorem Rejects.bind {x : Outcome α} (h : Rejects x) (f : α → Outcome β) : Rejects (x >>= f) := by
  obtain ⟨rv, rfl⟩ := h
  exact rejects_fail rv

/-- What comes before a rejection may reject as well, but it must not throw. -/
theorem rejects_bind {x : Outcome α} {f : α → Outcome β} (hx : Returns x)
    (hf : ∀ a, x = .ok a → Rejects (f a)) :
    Rejects (x >>= f) := by
  cases x with
  | ok a => exact hf a rfl
  | error e =>
    cases e with
    | code rv => exact rejects_fail rv
    | thrown e => exact absurd rfl (hx e)

theorem rejects_require (b : Bool) (rv : ErrorCode) {f : Unit → Outcome α} (h : Rejects (f ())) :
    Rejects (require b rv >>= f) := rejects_bind (returns_require b rv) fun _ _ => h

end Rejects

section Detached

variable {F : CurveId → CurveBackend}

theorem returns_loadQis (B : CurveBackend) (entries : List (PName × Bytes)) :
    Returns (loadQis B entries) :=
  returns_foldlM (fun _ e _ =>
    returns_bind_iff.mpr ⟨CurveBackend.returns_fromBin e.2, fun _ _ => returns_ok _⟩) _

/-- Every point that is loaded comes from an entry. -/
theorem loadQis_find {B : CurveBackend} {entries : List (PName × Bytes)}
    {Qis : OrderedMap PName B.E} (h : loadQis B entries = .ok Qis) {name : PName} {P : B.E}
    (hP : Qis.find name = some P) :
    ∃ bin, (name, bin) ∈ entries ∧ B.fromBin bin = .ok P := by
  have hloop : ∀ (l : List (PName × Bytes)) (m : OrderedMap PName B.E), l.foldlM (fun m e => do
      let P ← B.fromBin e.2
      .ok (m.insert e.1 P)) m = Except.ok (ε := Failure) Qis →
      m.find name = some P ∨ ∃ bin, (name, bin) ∈ l ∧ B.fromBin bin = .ok P := by
    intro l
    induction l with
    | nil =>
      intro m hm
      cases hm
      exact .inl hP
    | cons e l ih =>
      intro m hm
      rw [List.foldlM_cons] at hm
      obtain ⟨m', hm', hm⟩ := bind_ok_iff.mp hm
      obtain ⟨R, hR, hm'⟩ := bind_ok_iff.mp hm'
      cases hm'
      rcases ih _ hm with hfind | ⟨bin, hmem, hbin⟩
      · rw [OrderedMap.find_insert] at hfind
        split at hfind
        · rename_i hname
          cases hfind
          exact .inr ⟨e.2, by rw [hname]; exact List.mem_cons_self, hR⟩
        · exact .inl hfind
      · exact .inr ⟨bin, List.mem_cons_of_mem _ hmem, hbin⟩
  exact (hloop entries .empty h).resolve_left (by simp)

/-- A blob with the share 0 is refused when its own point is not infinity. -/
theorem loadKey_rejects {c : CurveId} {blob : KeyBlob}
    (hc : blobCurve blob.curve = .ok c) (hx : blob.xShare = 0) {entries : List (PName × Bytes)}
    (hself : ∀ bin, (blob.partyName, bin) ∈ entries → ∀ P, (F c).fromBin bin = .ok P → P ≠ 0)
    (additive : Bool) :
    Rejects (loadKey F additive blob entries) := by
  rw [loadKey, hc, ok_bind]
  refine rejects_require _ _ (rejects_bind (CurveBackend.returns_fromBin _) fun Q _ =>
    rejects_bind (returns_loadQis _ _) fun Qis hQis => rejects_require _ _ ?_)
  cases hfind : Qis.find blob.partyName with
  | none => exact rejects_fail .format
  | some P =>
    obtain ⟨bin, hmem, hbin⟩ := loadQis_find hQis hfind
    have hP := hself bin hmem P hbin
    simp only
    rw [hx, CurveBackend.mulToGenerator_zero, ok_bind, decide_eq_false hP.symm]
    exact rejects_fail .format

/-- The blob of a key without its share. -/
def ApiKey.detached (additive : Bool) (key : ApiKey F) : KeyBlob :=
  { key.blob additive with xShare := 0 }

variable {names : List PName} {key : ApiKey F} {additive : Bool}

/-- Without its share a blob is not longer. -/
theorem ApiKey.length_detached_le :
    (key.detached additive).bytes.length ≤ (key.blob additive).bytes.length := by
  have hzero : (encBn 0).length ≤ (encBn key.share.xShare).length := by
    have hpos := List.length_pos_of_ne_nil (encLen_ne_nil
      (2 * getBinSize key.share.xShare + if key.share.xShare < 0 then 1 else 0))
    have hone : (encBn 0).length = 1 := by decide
    rw [hone, encBn, List.length_append]
    omega
  rw [KeyBlob.bytes_eq, KeyBlob.bytes_eq, List.length_append, List.length_append]
  exact Nat.add_le_add_left hzero _

theorem ApiKey.Representable.sized_detached (h : key.Representable names)
    (hkey : ConsistentShare (F key.curve).curve names key.share) :
    (key.detached additive).Sized := by
  have hzero : getBinSize 0 = 0 := by decide
  exact (h.sized hkey).withShare (hzero.trans_le (Nat.zero_le 66))

variable (hrep : key.Representable names)
  (hkey : ConsistentShare (F key.curve).curve names key.share)
  (hx : (key.share.xShare : ZMod (F key.curve).q) ≠ 0)

include hx in
theorem ConsistentShare.point_ne_zero :
    (key.share.xShare : ZMod (F key.curve).q) • (F key.curve).curve.generator ≠ 0 :=
  fun h => hx ((smul_generator_eq_zero _).mp h)

include hkey in
theorem ConsistentShare.find_blob (additive : Bool) :
    (key.blob additive).QisCompressed.find key.share.partyName =
    some ((F key.curve).toCompressedBin
      ((key.share.xShare : ZMod (F key.curve).q) • (F key.curve).curve.generator)) := by
  change (key.share.Qis.mapValues _).find _ = _
  rw [OrderedMap.find_mapValues, hkey.self]
  rfl

include hrep hkey hx in
/-- Both versions of a detached blob are refused by all deserializers, with any job. -/
theorem deserializeBlob_rejects (version : Bool) (job : ApiJob) :
    Rejects (deserializeBlob F version job (key.detached additive).bytes) := by
  have hself : ∀ bin, (key.share.partyName, bin) ∈
      (key.detached additive).entriesFor job.partyNames →
      ∀ P, (F key.curve).fromBin bin = .ok P → P ≠ 0 := by
    intro bin hmem P hP
    obtain ⟨name, -, he⟩ := List.mem_map.mp hmem
    obtain ⟨rfl, rfl⟩ := Prod.mk.inj he
    have hfind : (key.detached additive).QisCompressed.find key.share.partyName =
      _ := hkey.find_blob additive
    rw [hfind, Option.getD_some,
      CurveBackend.fromBin_toCompressedBin (.inr (ConsistentShare.point_ne_zero hx))] at hP
    cases hP
    exact ConsistentShare.point_ne_zero hx
  have hload : Rejects (loadKey F version (key.detached additive) _) :=
    loadKey_rejects (blobCurve_code hrep.curve_ne) rfl hself version
  rw [deserializeBlob, (hrep.sized_detached hkey).parse_bytes]
  exact rejects_require _ _
    (rejects_require _ _ (rejects_require _ _ (rejects_require _ _ (rejects_require _ _
    (rejects_bind (returns_forEach fun name _ => returns_require _ _) fun _ _ => hload)))))

include hrep hkey hx in
theorem deserializeAcKeyBlobOfAll_rejects :
    Rejects (deserializeAcKeyBlobOfAll F (key.detached additive).bytes) := by
  have hself : ∀ bin, (key.share.partyName, bin) ∈ (key.detached additive).QisCompressed.entries →
      ∀ P, (F key.curve).fromBin bin = .ok P → P ≠ 0 := by
    intro bin hmem P hP
    have hfind := (OrderedMap.mem_entries_iff _ _ _).mp hmem
    have hown : (key.detached additive).QisCompressed.find key.share.partyName =
      _ := hkey.find_blob additive
    rw [hown] at hfind
    cases hfind
    rw [CurveBackend.fromBin_toCompressedBin (.inr (ConsistentShare.point_ne_zero hx))] at hP
    cases hP
    exact ConsistentShare.point_ne_zero hx
  have hload : Rejects (loadKey F false (key.detached additive) _) :=
    loadKey_rejects (blobCurve_code hrep.curve_ne) rfl hself false
  rw [deserializeAcKeyBlobOfAll, (hrep.sized_detached hkey).parse_bytes]
  exact rejects_require _ _ (rejects_require _ _ (rejects_require _ _ hload))

theorem returns_validateMemArgMaxSize (m : Bytes) (maxSize : ℕ) :
    Returns (validateMemArgMaxSize m maxSize) :=
  returns_bind_iff.mpr ⟨returns_require _ _, fun _ _ => returns_require _ _⟩

theorem returns_validateJobMp (job : ApiJob) : Returns (validateJobMp job) :=
  returns_bind_iff.mpr ⟨returns_require _ _, fun _ _ =>
      returns_bind_iff.mpr ⟨returns_require _ _, fun _ _ =>
    returns_bind_iff.mpr ⟨returns_require _ _, fun _ _ => returns_require _ _⟩⟩⟩

theorem returns_validateSign (job : ApiJob) (src msg : Bytes) (sigReceiver : ℤ) :
    Returns (validateSign job src msg sigReceiver) :=
  returns_bind_iff.mpr ⟨returns_validateJobMp job, fun _ _ => returns_bind_iff.mpr
    ⟨returns_validateMemArgMaxSize _ _, fun _ _ => returns_bind_iff.mpr
      ⟨returns_validateMemArgMaxSize _ _, fun _ _ => returns_require _ _⟩⟩⟩

/-- What the functions that start a protocol make of a blob: they return an error, whatever the
job. -/
structure EntryPointsReject (F : CurveId → CurveBackend) (src : Bytes) : Prop where
  signAdditive : ∀ (α : Type) (rest : ApiKey F → Outcome α) (job : ApiJob)
    (msg : Bytes) (sigReceiver : ℤ),
    Rejects (signAdditive F rest job src msg sigReceiver)
  signAc : ∀ (α : Type) (rest : ApiKey F → Outcome α) (job : ApiJob)
    (msg : Bytes) (sigReceiver : ℤ),
    Rejects (signAc F rest job src msg sigReceiver)
  refreshAdditive : ∀ (α : Type) (rest : ApiKey F → Outcome α) (job : ApiJob),
    Rejects (refreshAdditive F rest job src)
  refreshAc : ∀ (α : Type) (rest : ApiKey F → Outcome α) (job : ApiJob),
    Rejects (refreshAc F rest job src)

include hrep hkey hx in
theorem detached_rejected : EntryPointsReject F (key.detached additive).bytes where
  signAdditive _ rest job msg sigReceiver :=
      rejects_bind (returns_validateSign job _ msg sigReceiver) fun _ _ =>
    (deserializeBlob_rejects hrep hkey hx true job).bind rest
  signAc _ _ job msg sigReceiver :=
      rejects_bind (returns_validateSign job _ msg sigReceiver) fun _ _ =>
    (deserializeAcKeyBlobOfAll_rejects hrep hkey hx).bind _
  refreshAdditive _ rest job := rejects_bind (returns_validateJobMp job) fun _ _ =>
    rejects_bind (returns_validateMemArgMaxSize _ _) fun _ _ =>
      (deserializeBlob_rejects hrep hkey hx true job).bind rest
  refreshAc _ rest job := rejects_bind (returns_validateJobMp job) fun _ _ =>
    rejects_bind (returns_validateMemArgMaxSize _ _) fun _ _ =>
      (deserializeBlob_rejects hrep hkey hx false job).bind rest

/-- The bytes of a scalar of the size of the order. -/
def ApiKey.scalar (key : ApiKey F) : Bytes :=
  binPad (getBinSize (F key.curve).q) key.share.xShare.natAbs

/-- The encoding of the public point of a share. -/
def ApiKey.publicShare (key : ApiKey F) : Bytes :=
  (F key.curve).toCompressedBin
    ((key.share.xShare : ZMod (F key.curve).q) • (F key.curve).curve.generator)

theorem parseKeyBlobAnyVersion_eq {blob : KeyBlob} {c : CurveId} (h : blob.Sized)
    (hcurve : blobCurve blob.curve = .ok c)
    (hversion : ∃ additive, blob.version = blobVersion additive)
    (hlen : blob.bytes.length ≤ maxOpaqueBlobSize) :
    parseKeyBlobAnyVersion blob.bytes = .ok (blob, c) := by
  have hv : blob.version = blobVersion true ∨ blob.version = blobVersion false := by
    obtain ⟨additive, hadd⟩ := hversion
    cases additive with
    | true => exact .inl hadd
    | false => exact .inr hadd
  rw [parseKeyBlobAnyVersion, validateMemArgMaxSize, validateMemArg,
    decide_eq_true blob.bytes_ne_nil, decide_eq_true hlen, require_true, require_true, ok_bind,
    ok_bind, h.parse_bytes, ok_bind, decide_eq_true hv, require_true, ok_bind, hcurve, ok_bind]

theorem order_bytes_pos (B : CurveBackend) : 0 < getBinSize B.q := by
  have hsize : 0 < B.q.size := Nat.size_pos.mpr B.prime.out.pos
  rw [getBinSize, Int.natAbs_natCast, bitsToBytes]
  omega

include hkey in
theorem ConsistentShare.selfQi_eq {blob : KeyBlob} (additive : Bool)
    (hname : blob.partyName = key.share.partyName)
    (hQis : blob.QisCompressed = (key.blob additive).QisCompressed) :
    blob.selfQi = .ok key.publicShare := by
  have hne : key.share.partyName ≠ [] := fun he => hkey.nonempty (he ▸ hkey.self_mem)
  rw [KeyBlob.selfQi, hname, decide_eq_true hne, require_true, ok_bind, hQis,
    hkey.find_blob additive]
  simp only
  rw [decide_eq_true (CurveBackend.toCompressedBin_ne_nil _), require_true, ok_bind]
  rfl

include hrep hkey in
theorem detachPrivateScalar_eq (garbage : ℕ → Fin 256)
    (hlen : (key.blob additive).bytes.length ≤ maxOpaqueBlobSize) :
    detachPrivateScalar garbage F (key.blob additive).bytes =
      .ok ((key.detached additive).bytes, key.scalar) := by
  have hparse := parseKeyBlobAnyVersion_eq (hrep.sized hkey)
    (blobCurve_code hrep.curve_ne) ⟨additive, rfl⟩ hlen
  have hbin : toBin key.share.xShare (getBinSize (F key.curve).q) = .ok key.scalar := by
    rw [toBin, decide_eq_true (getBinSize_le_of_isInRange hkey.range)]
    rfl
  rw [detachPrivateScalar, hparse, ok_bind]
  simp only [show (key.blob additive).xShare = key.share.xShare from rfl, hkey.range,
    order_bytes_pos, decide_true, require_true, ok_bind, hbin]
  have hconvert : KeyBlob.convert garbage { key.blob additive with xShare := 0 } =
      .ok (key.detached additive).bytes :=
    (hrep.sized_detached hkey).convert_eq garbage
  rw [hconvert, ok_bind]

include hrep hkey in
theorem getPublicShareCompressed_eq (hlen : (key.blob additive).bytes.length ≤ maxOpaqueBlobSize) :
    getPublicShareCompressed (key.blob additive).bytes = .ok key.publicShare := by
  rw [getPublicShareCompressed,
    parseKeyBlobAnyVersion_eq (hrep.sized hkey) (blobCurve_code hrep.curve_ne) ⟨additive, rfl⟩ hlen,
    ok_bind]
  exact hkey.selfQi_eq additive rfl rfl

include hrep hkey hx in
/-- The detached scalar fits its own blob again. -/
theorem attachPrivateScalar_eq (garbage : ℕ → Fin 256)
    (hlen : (key.blob additive).bytes.length ≤ maxOpaqueBlobSize) :
    attachPrivateScalar garbage F (key.detached additive).bytes key.scalar key.publicShare =
      .ok (key.blob additive).bytes := by
  have hparse := parseKeyBlobAnyVersion_eq (hrep.sized_detached hkey)
    (blobCurve_code hrep.curve_ne) ⟨additive, rfl⟩
    (ApiKey.length_detached_le.trans hlen)
  have hlength : key.scalar.length = getBinSize (F key.curve).q := length_binPad _ _
  have hscalar : key.scalar ≠ [] :=
    List.ne_nil_of_length_pos (by rw [hlength]; exact order_bytes_pos _)
  have hpoint : (key.share.xShare : ZMod (F key.curve).q) • (F key.curve).curve.generator ≠ 0 :=
    ConsistentShare.point_ne_zero hx
  obtain ⟨h0, hlt⟩ := (isInRange_iff _).mp hkey.range
  have habs : (key.share.xShare.natAbs : ℤ) = key.share.xShare := Int.natAbs_of_nonneg h0
  have hfrom : (fromBin key.scalar : ℤ) = key.share.xShare := by
    rw [ApiKey.scalar, fromBin_binPad, habs]
    refine lt_pow_of_getBinSize_le ?_
    rw [habs]
    exact getBinSize_le_of_isInRange hkey.range
  have hconvert : KeyBlob.convert garbage
      { key.detached additive with xShare := key.share.xShare } =
      .ok (key.blob additive).bytes := (hrep.sized hkey).convert_eq garbage
  have hself : (key.detached additive).selfQi = .ok key.publicShare :=
    hkey.selfQi_eq additive rfl rfl
  rw [attachPrivateScalar, hparse, ok_bind]
  simp only [hself, order_bytes_pos, validateMemArg, hscalar, hlength,
    CurveBackend.toCompressedBin_ne_nil, ApiKey.publicShare,
    CurveBackend.fromBin_toCompressedBin (.inr hpoint), curveCheck, hpoint, hfrom,
    modReduce_of_isInRange hkey.range, hkey.range,
    mulToGenerator_of_isInRange (F key.curve).curve hkey.range, decide_true, decide_false, ne_eq,
    not_false_eq_true, require_true, ok_bind, Bool.and_false, Bool.false_eq_true, if_false]
  exact hconvert

include hrep hkey hx in
/-- Nothing but a representative of the share can be attached, and it gives the same blob. -/
theorem attachPrivateScalar_ok {garbage : ℕ → Fin 256} {scalar publicShare out : Bytes}
    (hlen : (key.blob additive).bytes.length ≤ maxOpaqueBlobSize)
    (h : attachPrivateScalar garbage F (key.detached additive).bytes scalar publicShare = .ok out) :
    ((fromBin scalar : ℕ) : ZMod (F key.curve).q) = key.share.xShare ∧
    out = (key.blob additive).bytes := by
  have hparse := parseKeyBlobAnyVersion_eq (hrep.sized_detached hkey)
    (blobCurve_code hrep.curve_ne) ⟨additive, rfl⟩
    (ApiKey.length_detached_le.trans hlen)
  rw [attachPrivateScalar, hparse, ok_bind] at h
  obtain ⟨-, h⟩ := require_bind_ok_iff.mp h
  obtain ⟨u, -, h⟩ := bind_ok_iff.mp h
  obtain ⟨-, h⟩ := require_bind_ok_iff.mp h
  obtain ⟨u', -, h⟩ := bind_ok_iff.mp h
  obtain ⟨Qi, hQi, h⟩ := bind_ok_iff.mp h
  obtain ⟨-, h⟩ := require_bind_ok_iff.mp h
  obtain ⟨P, hP, h⟩ := bind_ok_iff.mp h
  obtain ⟨P', hP', h⟩ := bind_ok_iff.mp h
  obtain ⟨x, hmod, h⟩ := bind_ok_iff.mp h
  obtain ⟨hrange, h⟩ := require_bind_ok_iff.mp h
  obtain ⟨X, hX, h⟩ := bind_ok_iff.mp h
  obtain ⟨heq, hout⟩ := require_bind_ok_iff.mp h
  have hself : (key.detached additive).selfQi = .ok key.publicShare :=
    hkey.selfQi_eq additive rfl rfl
  obtain rfl : key.publicShare = Qi := Except.ok.inj (hself.symm.trans hQi)
  rw [ApiKey.publicShare, CurveBackend.fromBin_toCompressedBin
    (.inr (ConsistentShare.point_ne_zero hx))] at hP
  cases hP
  obtain rfl := (eq_of_curveCheck_on hP').symm
  rw [mulToGenerator_of_isInRange _ hrange] at hX
  cases hX
  have hcast : (x : ZMod (F key.curve).q) = key.share.xShare :=
    smul_generator_injective _ (of_decide_eq_true heq)
  have hx' : x = key.share.xShare := by
    rw [eq_residue_of_isInRange hrange, hcast, ← eq_residue_of_isInRange hkey.range]
  refine ⟨?_, ?_⟩
  · rw [← hcast, modReduce_cast hmod, Int.cast_natCast]
  · subst hx'
    have hconvert : KeyBlob.convert garbage
        { key.detached additive with xShare := key.share.xShare } =
        .ok (key.blob additive).bytes := (hrep.sized hkey).convert_eq garbage
    exact Except.ok.inj (hout.symm.trans hconvert)

end Detached

end CbMpc
