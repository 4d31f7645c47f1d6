import CbMpc.KeyBlob
import CbMpc.Spelling

/-!
# Blobs and their normal forms

The public functions read a blob with `coinbase::convert`, which stops at the last member and takes
any spelling. A value that was read is written again in the strict spelling, which is read as the
same value.
-/
namespace CbMpc

open ReadM WriteM

/-- `MAX_CIPHERTEXT_BLOB_SIZE`. -/
def maxCiphertextBlobSize : ℕ := 67108864

/-- The values that `parse` accepts are spelled in front of their input, and `build` writes each of
them as an input that is accepted as the same value, which is the input itself if that was spelled
strictly. -/
structure NormalForm {V : Type} (parse : Bytes → Outcome V) (build : V → Outcome Bytes)
    (spells : Reading → Bytes → V → Prop) :
    Prop where
  spelled : ∀ src v, parse src = .ok v → ∃ w tail, src = w ++ tail ∧ spells .lenient w v
  normal : ∀ src v, parse src = .ok v → ∃ bytes, build v = .ok bytes ∧ parse bytes = .ok v ∧
    bytes.length ≤ src.length ∧
    (bytes = src ↔ spells .strict src v)

theorem convertFrom_ok {α : Type} {x : ReadM α} {src : Bytes} {a : α}
    (h : convertFrom x src = .ok a) :
    ∃ r, x ⟨src, 0, none⟩ = .ok (a, r) ∧ r.error = none := by
  obtain ⟨⟨a', r⟩, hx, h⟩ := bind_ok_iff.mp h
  cases he : r.error with
  | some rv =>
    simp only [he] at h
    cases h
  | none =>
    simp only [he] at h
    cases h
    exact ⟨r, hx, he⟩

theorem ReadM.Consumes.of_convertFrom {α : Type} {x : ReadM α} {S : Bytes → α → Prop}
    (hx : Consumes x S) {src : Bytes} {a : α} (h : convertFrom x src = .ok a) :
    ∃ w tail, src = w ++ tail ∧ S w a := by
  obtain ⟨r, hr, he⟩ := convertFrom_ok h
  obtain ⟨w, tail, hdrop, -, -, hw⟩ := hx _ a r hr he
  exact ⟨w, tail, hdrop, hw⟩

theorem validateMemArgMaxSize_ok_iff {m : Bytes} {maxSize : ℕ} :
    validateMemArgMaxSize m maxSize = .ok () ↔ m ≠ [] ∧ m.length ≤ maxSize := by
  rw [validateMemArgMaxSize, validateMemArg, require_bind_ok_iff, require_ok_iff, decide_eq_true_eq,
    decide_eq_true_eq]

section Types

variable {L : CurveTable} (order : KeyOrder L)

/-- A blob of one type: the size of the argument, its conversion, and the checks on the value. -/
def acceptBlob (maxSize : ℕ) (t : Ty) (check : t.Val L → Outcome Unit)
    (src : Bytes) : Outcome (t.Val L) := do
  validateMemArgMaxSize src maxSize
  let v ← convertFrom (read order t) src
  check v
  .ok v

variable {order}

theorem acceptBlob_ok_iff {maxSize : ℕ} {t : Ty} {check : t.Val L → Outcome Unit}
    {src : Bytes} {v : t.Val L} :
    acceptBlob order maxSize t check src = .ok v ↔
      src ≠ [] ∧ src.length ≤ maxSize ∧
      convertFrom (read order t) src = .ok v ∧ check v = .ok () := by
  constructor
  · intro h
    obtain ⟨u, hsize, h⟩ := bind_ok_iff.mp h
    obtain ⟨v', hv, h⟩ := bind_ok_iff.mp h
    obtain ⟨u', hcheck, h⟩ := bind_ok_iff.mp h
    cases h
    obtain ⟨hne, hlen⟩ := validateMemArgMaxSize_ok_iff.mp hsize
    exact ⟨hne, hlen, hv, hcheck⟩
  · rintro ⟨hne, hlen, hv, hcheck⟩
    exact bind_ok_iff.mpr ⟨(), validateMemArgMaxSize_ok_iff.mpr ⟨hne, hlen⟩, bind_ok_iff.mpr ⟨v, hv,
      bind_ok_iff.mpr ⟨(), hcheck, rfl⟩⟩⟩

/-- A value that was read is written, and what is written is read. -/
theorem reencode (hL : L.Lawful) (htrans : order.Transitive) {t : Ty}
    (ht : t.InBlob = true) {src : Bytes} (hlen : src.length ≤ intMax) {v : t.Val L}
    (h : convertFrom (read order t) src = .ok v) (garbage : ℕ → Fin 256) :
    ser garbage (write t v) = .ok (enc t v) ∧ convertFrom (read order t) (enc t v) = .ok v ∧
    (enc t v).length ≤ src.length ∧
      (enc t v = src ↔ Spells order .strict t src v) := by
  obtain ⟨w, tail, rfl, hw⟩ := (consumes_read hL htrans ht).of_convertFrom h
  have hfits := hw.fits hL
  have hle : (enc t v).length ≤ (w ++ tail).length := by
    rw [List.length_append]
    exact hw.length_enc_le.trans (Nat.le_add_right _ _)
  have hint := hle.trans hlen
  refine ⟨?_, convertFrom_eq (decodes_read hfits) hint, hle, ?_⟩
  · rw [ser_eq (writes_write hfits)]
    exact if_pos hint
  · rw [spells_strict_iff ht hfits, eq_comm]

theorem acceptBlob_normalForm (hL : L.Lawful) (htrans : order.Transitive)
    {t : Ty} (ht : t.InBlob = true) (hne : ∀ v : t.Val L, enc t v ≠ []) {maxSize : ℕ}
    (hmax : maxSize ≤ intMax) (check : t.Val L → Outcome Unit) (garbage : ℕ → Fin 256) :
    NormalForm (acceptBlob order maxSize t check) (fun v => ser garbage (write t v)) fun i w v =>
      Spells order i t w v where
  spelled src v h := (consumes_read hL htrans ht).of_convertFrom (acceptBlob_ok_iff.mp h).2.2.1
  normal src v h := by
    obtain ⟨-, hlen, hv, hcheck⟩ := acceptBlob_ok_iff.mp h
    obtain ⟨hwrite, hread, hle, hiff⟩ := reencode hL htrans ht (hlen.trans hmax) hv garbage
    exact ⟨enc t v, hwrite, acceptBlob_ok_iff.mpr ⟨hne v, hle.trans hlen, hread, hcheck⟩, hle, hiff⟩

end Types

section Tdh2

variable {L : CurveTable}

/-- `public_key_t`: `Q`, `Gamma` and `sid`. -/
def publicKeyTy : Ty := .pair .point (.pair .point .buf)

/-- `ciphertext_t`: `c`, `R1`, `R2`, `e`, `f`, `iv` and `L`. -/
def ciphertextTy : Ty :=
  .pair .buf (.pair .point (.pair .point (.pair .bn (.pair .bn (.pair .buf .buf)))))

/-- `partial_decryption_t`: `rid`, `Xi`, `ei` and `fi`. -/
def partialDecryptionTy : Ty := .pair (.int .w32) (.pair .point (.pair .bn .bn))

/-- The point operations of `validate_public_key`. -/
structure PublicKeyChecks (L : CurveTable) where
  decCurve : DecidableEq L.Curve
  decPoint : DecidableEq L.Point
  check : L.Curve → L.Point → Bool
  gamma : L.Curve → L.Point → Bytes → L.Point

/-- `validate_public_key`. -/
def PublicKeyChecks.validate (O : PublicKeyChecks L) : publicKeyTy.Val L → Outcome Unit
  | (some (c, Q), some (c', Gamma), sid) => do
    let _ := O.decCurve
    let _ := O.decPoint
    require (decide (c' = c)) .format
    require (O.check c Q) .format
    require (O.check c Gamma) .format
    require (decide (Gamma = O.gamma c Q sid)) .format
  | _ => fail .format

theorem encCurve_ne_nil (c : Option L.Curve) : encCurve L c ≠ [] := by
  apply List.ne_nil_of_length_pos
  rw [encCurve, encUint, length_binPad]
  decide

theorem encPoint_ne_nil (P : Option (L.Curve × L.Point)) : encPoint L P ≠ [] :=
  List.append_ne_nil_of_left_ne_nil (encCurve_ne_nil _) _

theorem encBuf_ne_nil (v : Bytes) : encBuf v ≠ [] :=
  List.append_ne_nil_of_left_ne_nil (encLen_ne_nil _) _

theorem encUint_ne_nil {w : IntWidth} (v : Word w) : encUint v ≠ [] := by
  apply List.ne_nil_of_length_pos
  rw [encUint, length_binPad]
  cases w <;> decide

variable (order : KeyOrder L)

/-- The public key of `encrypt`, `verify` and the two `combine`s. -/
def acceptPublicKey (O : PublicKeyChecks L) : Bytes → Outcome (publicKeyTy.Val L) :=
  acceptBlob order maxOpaqueBlobSize publicKeyTy O.validate

/-- The ciphertext of `verify`, `partial_decrypt` and the two `combine`s, which then use its
value. -/
def acceptCiphertext (use : ciphertextTy.Val L → Outcome Unit) :
    Bytes → Outcome (ciphertextTy.Val L) :=
  acceptBlob order maxCiphertextBlobSize ciphertextTy use

/-- A partial decryption of the two `combine`s. -/
def acceptPartialDecryption (use : partialDecryptionTy.Val L → Outcome Unit) :
    Bytes → Outcome (partialDecryptionTy.Val L) :=
  acceptBlob order maxOpaqueBlobSize partialDecryptionTy use

end Tdh2

section KeyBlobs

theorem noCurves_lawful : noCurves.Lawful := ⟨fun _ c => c.elim, fun c => c.elim⟩

theorem nameLess_trans {a b c : PName} (hab : nameLess a b = true)
    (hbc : nameLess b c = true) : nameLess a c = true :=
  decide_eq_true ((of_decide_eq_true hab : a < b).trans (of_decide_eq_true hbc))

theorem nameOrder_transitive : nameOrder.Transitive := by
  intro k a b c hab hbc
  cases k with
  | string => exact nameLess_trans hab hbc
  | _ => exact absurd hab Bool.false_ne_true

/-- The bytes of a point in a buffer. The strict reading wants the compressed ones. -/
def Reading.PointBin (i : Reading) (B : CurveBackend) (bin : Bytes) (P : B.E) : Prop :=
  B.fromBin bin = .ok P ∧ (i = .strict → bin = B.toCompressedBin P)

variable {F : CurveId → CurveBackend}

/-- The spellings of a key. -/
def SpellsKey (additive : Bool) (i : Reading) (w : Bytes) (key : ApiKey F) : Prop :=
  ∃ blob : KeyBlob, Spells nameOrder i keyBlobTy w blob.val ∧ blob.version = blobVersion additive ∧
    blob.curve = key.curve.code ∧ blob.partyName = key.share.partyName ∧
    blob.xShare = key.share.xShare ∧
    i.PointBin (F key.curve) blob.QCompressed key.share.Q ∧
    (∀ name, (blob.QisCompressed.find name).isSome = (key.share.Qis.find name).isSome) ∧
    ∀ name bin P, blob.QisCompressed.find name = some bin → key.share.Qis.find name = some P →
    i.PointBin (F key.curve) bin P

theorem KeyBlob.val_ofVal {v : keyBlobTy.Val noCurves}
    (h : Fits nameOrder keyBlobTy v) : (ofVal v).val = v := by
  obtain ⟨version, curve, name, Q, entries, x⟩ := v
  have hsorted : SortedKeys nameLess entries := h.2.2.2.2.1.2.1
  have hlt : List.Pairwise (fun a b : PName × Bytes => a.1 < b.1) entries :=
    hsorted.imp fun h => of_decide_eq_true h
  have hentries := OrderedMap.ofEntries_entries (⟨entries, hlt⟩ : OrderedMap PName Bytes)
  rw [ofVal, val]
  exact congrArg (fun m : OrderedMap PName Bytes =>
    (version, curve, name, Q, m.entries, x)) hentries

theorem blobCurve_ok {code : Word .w32} {c : CurveId} (h : blobCurve code = .ok c) :
    code = c.code ∧ c ≠ .ed25519 := by
  unfold blobCurve at h
  split_ifs at h with h1 h2
  · cases h
    exact ⟨h1, by decide⟩
  · cases h
    exact ⟨h2, by decide⟩
  · cases h

/-- The points of distinct names are decoded one by one. -/
theorem loadQis_ok {B : CurveBackend} {f : PName → Bytes} {names : List PName}
    {Qis : OrderedMap PName B.E} (h : loadQis B (names.map fun name => (name, f name)) = .ok Qis) :
    ∃ g : PName → B.E, (∀ name ∈ names, B.fromBin (f name) = .ok (g name)) ∧
    Qis = OrderedMap.ofKeys g names := by
  have hall : ∀ (l : List PName) (m m' : OrderedMap PName B.E),
      (l.map fun name => (name, f name)).foldlM (fun m e => do
      let P ← B.fromBin e.2
      .ok (m.insert e.1 P)) m = .ok m' → ∀ name ∈ l, ∃ P, B.fromBin (f name) = .ok P := by
    intro l
    induction l with
    | nil => exact fun _ _ _ name hname => absurd hname List.not_mem_nil
    | cons a l ih =>
      intro m m' hl name hname
      obtain ⟨m₁, hstep, hl⟩ := bind_ok_iff.mp hl
      obtain ⟨P, hP, -⟩ := bind_ok_iff.mp hstep
      rcases List.mem_cons.mp hname with rfl | hname
      · exact ⟨P, hP⟩
      · exact ih m₁ m' hl name hname
  have hpoint : ∀ name, ∃ P, name ∈ names → B.fromBin (f name) = .ok P := by
    intro name
    by_cases hname : name ∈ names
    · obtain ⟨P, hP⟩ := hall names _ _ h name hname
      exact ⟨P, fun _ => hP⟩
    · exact ⟨0, fun hmem => absurd hmem hname⟩
  choose g hg using hpoint
  refine ⟨g, hg, ?_⟩
  rw [loadQis, List.foldlM_map, foldlM_insert .empty hg] at h
  exact (Except.ok.inj h).symm

variable {additive : Bool} {job : ApiJob} {src : Bytes} {key : ApiKey F}

theorem validateJobMp_ok (h : validateJobMp job = .ok ()) :
    job.partyNames.length ≤ 64 ∧ [] ∉ job.partyNames ∧ job.partyNames.Nodup := by
  simp only [validateJobMp, require_bind_ok_iff, require_ok_iff, decide_eq_true_eq] at h
  exact ⟨h.2.1, h.2.2.2⟩

/-- What a key that was accepted satisfies. -/
structure AcceptedKey (additive : Bool) (job : ApiJob) (blob : KeyBlob)
    (key : ApiKey F) : Prop where
  version : blob.version = blobVersion additive
  curve : blob.curve = key.curve.code
  curve_ne : key.curve ≠ .ed25519
  partyName : blob.partyName = key.share.partyName
  xShare : blob.xShare = key.share.xShare
  Q : (F key.curve).fromBin blob.QCompressed = .ok key.share.Q
  find : ∀ name, (blob.QisCompressed.find name).isSome = (key.share.Qis.find name).isSome
  Qi : ∀ name bin P, blob.QisCompressed.find name = some bin → key.share.Qis.find name = some P →
    (F key.curve).fromBin bin = .ok P
  sum : additive = true → key.share.Q = key.share.Qis.values.sum
  share : ConsistentShare (F key.curve).curve job.partyNames key.share
  job : job.IsOf job.partyNames key.share.partyName

theorem deserializeBlob_ok (hnames : job.partyNames.length ≤ 64 ∧
      [] ∉ job.partyNames ∧ job.partyNames.Nodup)
    (h : deserializeBlob F additive job src = .ok key) :
    ∃ blob, KeyBlob.parse src = .ok blob ∧ AcceptedKey additive job blob key := by
  rw [deserializeBlob, require_bind_ok_iff] at h
  obtain ⟨hself, h⟩ := h
  obtain ⟨blob, hparse, h⟩ := bind_ok_iff.mp h
  simp only [require_bind_ok_iff, decide_eq_true_eq] at h
  obtain ⟨hversion, hname, hselfName, hsize, h⟩ := h
  obtain ⟨u, hall, h⟩ := bind_ok_iff.mp h
  obtain ⟨c, hc, h⟩ := bind_ok_iff.mp h
  rw [require_bind_ok_iff] at h
  obtain ⟨hrange, h⟩ := h
  obtain ⟨Q, hQ, h⟩ := bind_ok_iff.mp h
  obtain ⟨Qis, hQis, h⟩ := bind_ok_iff.mp h
  rw [require_bind_ok_iff] at h
  obtain ⟨hsum, h⟩ := h
  obtain ⟨Qi, hQi, h⟩ : ∃ Qi, Qis.find blob.partyName = some Qi ∧
      ((F c).curve.mulToGenerator blob.xShare >>= fun X =>
      require (decide (X = Qi)) .format >>= fun _ =>
        .ok ⟨c, ⟨blob.xShare, Q, Qis, (F c).curve, blob.partyName⟩, rfl⟩) =
      .ok key := by
    cases hfind : Qis.find blob.partyName with
    | none =>
      rw [hfind] at h
      cases h
    | some Qi =>
      rw [hfind] at h
      exact ⟨Qi, rfl, h⟩
  rw [mulToGenerator_of_isInRange (F c).curve hrange, ok_bind, require_bind_ok_iff,
    decide_eq_true_eq] at h
  obtain ⟨hX, h⟩ := h
  cases h
  obtain ⟨hcode, hne⟩ := blobCurve_ok hc
  obtain ⟨g, hg, rfl⟩ := loadQis_ok hQis
  have hfound : ∀ name ∈ job.partyNames,
      (blob.QisCompressed.find name).isSome = true := fun name hmem =>
    (require_ok_iff _ _).mp (forEach_ok_iff.mp hall name hmem)
  have hperm : job.partyNames.Perm blob.QisCompressed.keys := by
    refine (List.subperm_of_subset hnames.2.2 fun name hmem => ?_).perm_of_length_le ?_
    · exact (blob.QisCompressed.mem_keys_iff name).mpr (hfound name hmem)
    · rw [OrderedMap.keys, List.length_map, hsize]
      exact le_rfl
  have hkeys : ∀ name, (blob.QisCompressed.find name).isSome = true ↔
      name ∈ job.partyNames := fun name => by
    rw [hperm.mem_iff, blob.QisCompressed.mem_keys_iff]
  have hsome : ∀ name, ((OrderedMap.ofKeys g job.partyNames).find name).isSome = true ↔
      name ∈ job.partyNames := fun name => by
    rw [OrderedMap.find_ofKeys]
    split_ifs with hmem <;> simp [hmem]
  refine ⟨blob, hparse, hversion, hcode, hne, rfl, rfl, hQ, fun name => ?_,
    fun name bin P hbin hP => ?_, fun hadd => ?_, ?_, ?_⟩
  · exact Bool.eq_iff_iff.mpr ((hkeys name).trans (hsome name).symm)
  · have hmem := (hkeys name).mp (by rw [hbin, Option.isSome_some])
    rw [OrderedMap.find_ofKeys, if_pos hmem] at hP
    have hg := hg name hmem
    rw [hbin, Option.getD_some, Option.some.inj hP] at hg
    exact hg
  · rw [hadd] at hsum
    exact of_decide_eq_true hsum
  · have hmem := (hsome blob.partyName).mp (by rw [hQi, Option.isSome_some])
    exact ⟨rfl, hnames.2.2, hnames.2.1, hnames.1, hmem, hsome, hrange,
      hQi.trans (congrArg some hX.symm)⟩
  · exact ⟨.refl _, of_decide_eq_true hself, hselfName.symm⟩

/-- What the decoders of both backends are documented to do: infinity is decoded by the OpenSSL
curves only, and no encoding is shorter than the compressed one. -/
structure CurveBackend.Lawful (B : CurveBackend) : Prop where
  encodable : ∀ bin P, B.fromBin bin = .ok P → B.Encodable P
  size_le : ∀ bin P, B.fromBin bin = .ok P → 1 + B.size ≤ bin.length

theorem length_encBuf_mono {v v' : Bytes} (h : v.length ≤ v'.length) :
    (encBuf v).length ≤ (encBuf v').length := by
  rw [encBuf, encBuf, List.length_append, List.length_append]
  exact Nat.add_le_add (length_encLen_mono h) h

theorem findEntries_mapKey {W V : Type} (f : PName → W) (name : PName) (l : List (PName × V)) :
    OrderedMap.findEntries name (l.map fun e => (e.1, f e.1)) =
      (OrderedMap.findEntries name l).map fun _ => f name := by
  induction l with
  | nil => rfl
  | cons e l ih =>
    rw [List.map_cons, OrderedMap.findEntries, OrderedMap.findEntries]
    by_cases h : name = e.1
    · rw [if_pos h, if_pos h, h]
      rfl
    · rw [if_neg h, if_neg h, ih]

variable {blob : KeyBlob}

theorem AcceptedKey.entries_eq (h : AcceptedKey additive job blob key) :
    (key.blob additive).QisCompressed.entries =
    blob.QisCompressed.entries.map fun e =>
      (e.1, (F key.curve).toCompressedBin ((key.share.Qis.find e.1).getD 0)) := by
  refine OrderedMap.entries_eq_of_find (key.blob additive).QisCompressed.sorted ?_ fun name => ?_
  · exact List.pairwise_map.mpr blob.QisCompressed.sorted
  · rw [findEntries_mapKey fun name =>
      (F key.curve).toCompressedBin ((key.share.Qis.find name).getD 0)]
    change (key.share.Qis.mapValues (F key.curve).toCompressedBin).find name =
      (blob.QisCompressed.find name).map _
    have hfind := h.find name
    rw [OrderedMap.find_mapValues]
    cases hP : key.share.Qis.find name with
    | none =>
      rw [hP, Option.isSome_none, Option.isSome_eq_false_iff, Option.isNone_iff_eq_none] at hfind
      rw [hfind]
      rfl
    | some P =>
      rw [hP, Option.isSome_some] at hfind
      obtain ⟨bin, hbin⟩ := Option.isSome_iff_exists.mp hfind
      rw [hbin]
      rfl

/-- The bytes of an accepted key are no more than those of the blob that it was read from. -/
theorem AcceptedKey.length_bytes_le (hB : (F key.curve).Lawful)
    (h : AcceptedKey additive job blob key) :
    (key.blob additive).bytes.length ≤ blob.bytes.length := by
  have hQ : (encBuf (key.blob additive).QCompressed).length ≤ (encBuf blob.QCompressed).length := by
    apply length_encBuf_mono
    change ((F key.curve).toCompressedBin key.share.Q).length ≤ _
    rw [CurveBackend.length_toCompressedBin]
    exact hB.size_le _ _ h.Q
  have hmap : (encMap encString encBuf (key.blob additive).QisCompressed.entries).length ≤
      (encMap encString encBuf blob.QisCompressed.entries).length := by
    rw [h.entries_eq, encMap, encMap, List.length_append, List.length_append, List.length_map,
      List.flatMap_map]
    refine Nat.add_le_add_left ?_ _
    rw [List.length_flatMap, List.length_flatMap]
    refine List.sum_le_sum fun e he => ?_
    rw [List.length_append, List.length_append]
    refine Nat.add_le_add_left (length_encBuf_mono ?_) _
    have hbin := (blob.QisCompressed.mem_entries_iff e.1 e.2).mp he
    have hfind := h.find e.1
    rw [hbin, Option.isSome_some] at hfind
    obtain ⟨P, hP⟩ := Option.isSome_iff_exists.mp hfind.symm
    rw [CurveBackend.length_toCompressedBin]
    exact hB.size_le _ _ (h.Qi e.1 e.2 P hbin hP)
  rw [KeyBlob.bytes_eq, KeyBlob.bytes_eq, KeyBlob.head, KeyBlob.head]
  simp only [List.length_append, encUint, length_binPad]
  rw [show (key.blob additive).partyName = blob.partyName from h.partyName.symm,
    show (key.blob additive).xShare = blob.xShare from h.xShare.symm]
  omega

/-- A map with the same names and the compressed points is the map of the key. -/
theorem eq_blob {key : ApiKey F} (hversion : blob.version = blobVersion additive)
    (hcurve : blob.curve = key.curve.code) (hname : blob.partyName = key.share.partyName)
    (hx : blob.xShare = key.share.xShare)
    (hQ : blob.QCompressed = (F key.curve).toCompressedBin key.share.Q)
    (hfind : ∀ name, (blob.QisCompressed.find name).isSome = (key.share.Qis.find name).isSome)
    (hQi : ∀ name bin P, blob.QisCompressed.find name = some bin →
      key.share.Qis.find name = some P →
      bin = (F key.curve).toCompressedBin P) : blob = key.blob additive := by
  have hQis : blob.QisCompressed = key.share.Qis.mapValues (F key.curve).toCompressedBin := by
    refine OrderedMap.ext_find fun name => ?_
    have hfind := hfind name
    rw [OrderedMap.find_mapValues]
    cases hP : key.share.Qis.find name with
    | none =>
      rw [hP, Option.isSome_none, Option.isSome_eq_false_iff, Option.isNone_iff_eq_none] at hfind
      exact hfind
    | some P =>
      rw [hP, Option.isSome_some] at hfind
      obtain ⟨bin, hbin⟩ := Option.isSome_iff_exists.mp hfind
      rw [hbin, hQi name bin P hbin hP]
      rfl
  obtain ⟨version, curve, name, Q, Qis, x⟩ := blob
  simp only at hversion hcurve hname hx hQ hQis
  rw [hversion, hcurve, hname, hx, hQ, hQis]
  rfl

variable (garbage : ℕ → Fin 256)

theorem deserializeBlob_normal (hF : ∀ c, (F c).Lawful)
    (hnames : job.partyNames.length ≤ 64 ∧ [] ∉ job.partyNames ∧ job.partyNames.Nodup)
    (hlen : src.length ≤ intMax) (h : deserializeBlob F additive job src = .ok key) :
    (∃ w tail, src = w ++ tail ∧ SpellsKey additive .lenient w key) ∧
    ∃ bytes, bytes ≠ [] ∧ serializeBlob garbage additive job key = .ok bytes ∧
    deserializeBlob F additive job bytes = .ok key ∧
      bytes.length ≤ src.length ∧ (bytes = src ↔ SpellsKey additive .strict src key) := by
  obtain ⟨blob, hparse, hkey⟩ := deserializeBlob_ok hnames h
  obtain ⟨v, hv, hblob⟩ := bind_ok_iff.mp hparse
  cases hblob
  obtain ⟨w, tail, rfl, hw⟩ :=
    (consumes_read noCurves_lawful nameOrder_transitive rfl).of_convertFrom hv
  have hfits := hw.fits noCurves_lawful
  have hval := KeyBlob.val_ofVal hfits
  obtain ⟨-, -, hname, -, hmap, -⟩ := id hfits
  have hentry : ∀ name bin, (KeyBlob.ofVal v).QisCompressed.find name = some bin →
      name.length ≤ shrtMax := by
    intro name bin hbin
    have hmem := ((KeyBlob.ofVal v).QisCompressed.mem_entries_iff name bin).mpr hbin
    have hentries : (KeyBlob.ofVal v).QisCompressed.entries = v.2.2.2.2.1 :=
      congrArg (fun u => u.2.2.2.2.1) hval
    rw [hentries] at hmem
    exact (List.forall_iff_forall_mem.mp hmap.2.2 _ hmem).1
  have hrep : key.Representable job.partyNames := by
    refine ⟨hkey.curve_ne, fun name hmem => ?_, (hF _).encodable _ _ hkey.Q, fun name P hP => ?_⟩
    · have hsome := (hkey.share.find_isSome name).mpr hmem
      rw [← hkey.find name] at hsome
      obtain ⟨bin, hbin⟩ := Option.isSome_iff_exists.mp hsome
      exact hentry name bin hbin
    · have hsome := hkey.find name
      rw [hP, Option.isSome_some] at hsome
      obtain ⟨bin, hbin⟩ := Option.isSome_iff_exists.mp hsome
      exact (hF _).encodable _ _ (hkey.Qi name bin P hbin hP)
  have hsized : (key.blob additive).Sized := hrep.sized hkey.share
  refine ⟨⟨w, tail, rfl, KeyBlob.ofVal v, by rw [hval]; exact hw, hkey.version, hkey.curve,
    hkey.partyName, hkey.xShare, ⟨hkey.Q, nofun⟩, hkey.find, fun name bin P hbin hP =>
      ⟨hkey.Qi name bin P hbin hP, nofun⟩⟩, (key.blob additive).bytes,
    (key.blob additive).bytes_ne_nil, serializeBlob_eq garbage hrep hkey.share hkey.job,
    deserializeBlob_eq hrep hkey.share hkey.sum hkey.job, ?_, ?_⟩
  · have hbytes : (KeyBlob.ofVal v).bytes.length ≤ w.length := by
      rw [KeyBlob.bytes, hval]
      exact hw.length_enc_le
    rw [List.length_append]
    exact ((hkey.length_bytes_le (hF _)).trans hbytes).trans (Nat.le_add_right _ _)
  · constructor
    · intro hsame
      refine ⟨key.blob additive, (spells_strict_iff rfl hsized.fits).mpr hsame.symm, rfl,
        rfl, rfl, rfl, ⟨CurveBackend.fromBin_toCompressedBin hrep.Q, fun _ => rfl⟩, fun name => ?_,
        fun name bin P hbin hP => ?_⟩
      · change ((key.share.Qis.mapValues _).find name).isSome = _
        rw [OrderedMap.find_mapValues, Option.isSome_map]
      · change (key.share.Qis.mapValues _).find name = some bin at hbin
        rw [OrderedMap.find_mapValues, hP] at hbin
        cases hbin
        exact ⟨CurveBackend.fromBin_toCompressedBin (hrep.Qi name P hP), fun _ => rfl⟩
    · rintro ⟨blob, hspells, hversion, hcurve, hname, hx, hQ, hfind, hQi⟩
      have hblob := eq_blob hversion hcurve hname hx (hQ.2 rfl) hfind fun name bin P hbin hP =>
        (hQi name bin P hbin hP).2 rfl
      rw [hblob] at hspells
      exact ((spells_strict_iff rfl hsized.fits).mp hspells).symm

/-- A key of the additive or the general protocols, as `refresh_additive` and `refresh_ac` take
it. -/
def acceptKeyBlob (F : CurveId → CurveBackend) (additive : Bool) (job : ApiJob) :
    Bytes → Outcome (ApiKey F) :=
  if additive then refreshAdditive F .ok job else refreshAc F .ok job

theorem acceptKeyBlob_ok_iff :
    acceptKeyBlob F additive job src = .ok key ↔ validateJobMp job = .ok () ∧
    (src ≠ [] ∧ src.length ≤ maxOpaqueBlobSize) ∧ deserializeBlob F additive job src = .ok key := by
  have hcall : acceptKeyBlob F additive job src = (do
      validateJobMp job
      validateMemArgMaxSize src maxOpaqueBlobSize
      let key ← deserializeBlob F additive job src
      .ok key) := by
    cases additive <;> rfl
  rw [hcall, ← validateMemArgMaxSize_ok_iff]
  constructor
  · intro h
    obtain ⟨u, hjob, h⟩ := bind_ok_iff.mp h
    obtain ⟨u', hsize, h⟩ := bind_ok_iff.mp h
    obtain ⟨key', hkey, h⟩ := bind_ok_iff.mp h
    cases h
    exact ⟨hjob, hsize, hkey⟩
  · rintro ⟨hjob, hsize, hkey⟩
    exact bind_ok_iff.mpr ⟨(), hjob, bind_ok_iff.mpr ⟨(), hsize, bind_ok_iff.mpr ⟨key, hkey, rfl⟩⟩⟩

theorem keyBlob_normalForm (hF : ∀ c, (F c).Lawful) (additive : Bool) (job : ApiJob) :
    NormalForm (acceptKeyBlob F additive job) (serializeBlob garbage additive job)
      (SpellsKey additive) where
  spelled src key h := by
    obtain ⟨hjob, ⟨-, hlen⟩, hkey⟩ := acceptKeyBlob_ok_iff.mp h
    exact (deserializeBlob_normal garbage hF (validateJobMp_ok hjob)
      (hlen.trans (by decide)) hkey).1
  normal src key h := by
    obtain ⟨hjob, ⟨-, hlen⟩, hkey⟩ := acceptKeyBlob_ok_iff.mp h
    obtain ⟨bytes, hne, hser, hdeser, hle, hiff⟩ :=
      (deserializeBlob_normal garbage hF (validateJobMp_ok hjob) (hlen.trans (by decide)) hkey).2
    exact ⟨bytes, hser, acceptKeyBlob_ok_iff.mpr ⟨hjob, ⟨hne, hle.trans hlen⟩, hdeser⟩, hle, hiff⟩

end KeyBlobs

end CbMpc
