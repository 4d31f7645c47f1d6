import CbMpc.CanonicalBlob
import CbMpc.KeyBackup

/-!
# Ciphertexts for an access structure

The blob of a publicly verifiable ciphertext holds the bytes of `ec_pve_ac_t`, whose vectors are
read with limits that the caller sets.
-/
namespace CbMpc

open ReadM WriteM

section Vectors

variable {α : Type}

/-- `convert_vector` when reading. -/
def readVectorMax (maxElements : ℕ) (x : ReadM α) : ReadM (List α) := do
  let count ← readLen
  if ← ReadM.isError then
    return []
  else if maxContainerElements < count ∨ maxElements < count then
    ReadM.setError .format
    return []
  else if ← ensure count then
    ReadM.whileNoError x count
  else
    return []

/-- The elements of a vector, or of an array, one after another. -/
def SpellsEach (S : Bytes → α → Prop) (w : Bytes) (v : List α) : Prop :=
  ∃ words : List Bytes, w = words.flatten ∧ List.Forall₂ S words v

def Reading.Vector (i : Reading) (S : Bytes → α → Prop) (w : Bytes) (v : List α) : Prop :=
  ∃ p each, i.Len p v.length ∧ w = p ++ each ∧ SpellsEach S each v

variable {x : ReadM α} {S : Bytes → α → Prop}

theorem sound_readVectorMax (hx : Sound x) (maxElements : ℕ) :
    Sound (readVectorMax maxElements x) :=
  sound_readLen.bind fun count => sound_isError.bind fun _ =>
    .ite (.pure []) (.ite (sound_setError .format [])
    ((Sound.mk (safe_ensure count) (stable_ensure count)).bind fun _ =>
      .ite (hx.whileNoError count) (.pure [])))

theorem consumes_whileNoError (hx : Consumes x S) (hs : Stable x) (n : ℕ) :
    Consumes (ReadM.whileNoError x n) fun w v => v.length = n ∧ SpellsEach S w v := by
  induction n with
  | zero => exact .pure ⟨rfl, [], rfl, .nil⟩
  | succ n ih =>
    have htail : ∀ a, Stable (ReadM.whileNoError x n >>= fun as =>
        pure (a :: as) : ReadM (List α)) :=
      fun a => (hs.whileNoError n).bind fun _ => .pure _
    refine .unless (hx.bind (fun a w hw =>
      ih.bind (fun as w' hw' => .pure ?_) fun _ => .pure _) htail)
      (hs.bind htail) (.pure [])
    obtain ⟨rfl, words, rfl, hwords⟩ := hw'
    exact ⟨rfl, w :: words, by rw [List.append_nil, List.flatten_cons], .cons hw hwords⟩

theorem consumes_forAll (hx : Consumes x S) (hs : Stable x) (n : ℕ) :
    Consumes (ReadM.forAll x n) fun w v => v.length = n ∧ SpellsEach S w v := by
  induction n with
  | zero => exact .pure ⟨rfl, [], rfl, .nil⟩
  | succ n ih =>
    refine hx.bind (fun a w hw => ih.bind (fun as w' hw' => .pure ?_) fun _ => .pure _) fun a =>
      (hs.forAll n).bind fun _ => .pure _
    obtain ⟨rfl, words, rfl, hwords⟩ := hw'
    exact ⟨rfl, w :: words, by rw [List.append_nil, List.flatten_cons], .cons hw hwords⟩

theorem consumes_readVectorMax (hx : Consumes x S) (hs : Sound x) (maxElements : ℕ) :
    Consumes (readVectorMax maxElements x) fun w v =>
      v.length ≤ maxContainerElements ∧ v.length ≤ maxElements ∧ Reading.lenient.Vector S w v := by
  have hloop : ∀ count, Stable (ensure count >>= fun b => if b = true then
      ReadM.whileNoError x count else pure [] : ReadM (List α)) :=
    fun count => (stable_ensure count).bind fun _ => .ite (hs.stable.whileNoError count) (.pure [])
  have hrest : ∀ count, Stable (if maxContainerElements < count ∨ maxElements < count then
      ReadM.setError .format >>= fun _ => pure []
      else ensure count >>= fun b => if b = true then ReadM.whileNoError x count else
        pure [] : ReadM (List α)) :=
    fun count => .ite (sound_setError .format []).stable (hloop count)
  refine consumes_readLen.bind (fun count p hp =>
    .unless (.ite (fun _ => consumes_setError _ _ _) fun hcount => ?_) (hrest count)
    (.pure [])) fun count => stable_isError.bind fun _ => .ite (.pure []) (hrest count)
  refine ((consumes_whileNoError hx hs.stable count).mono fun w v hw => ?_).afterEnsure
    (hs.stable.whileNoError count) (.pure [])
  obtain ⟨rfl, hw⟩ := hw
  exact ⟨by omega, by omega, p, w, hp, rfl, hw⟩

theorem decodes_readVectorMax {enc : α → Bytes} {v : List α} {maxElements : ℕ}
    (hcount : v.length ≤ maxContainerElements) (hmax : v.length ≤ maxElements)
    (hne : ∀ a ∈ v, enc a ≠ []) (hx : ∀ a ∈ v, Decodes x (enc a) a) :
    Decodes (readVectorMax maxElements x) (encVector enc v) v := by
  have hcont : maxContainerElements = 1048576 := rfl
  have hconv : maxConvertLen = 67108864 := rfl
  refine (decodes_readLen (by omega)).bind (.bind_nil decodes_isError ?_)
  rw [if_neg Bool.false_ne_true, if_neg (by omega)]
  exact .ensure (length_le_flatMap hne) (.whileNoError hx)

variable {T : Bytes → α → Prop} {enc : α → Bytes} {w : Bytes} {v : List α}

theorem SpellsEach.length_le (h : SpellsEach T w v)
    (hT : ∀ w a, T w a → (enc a).length ≤ w.length) :
    (v.flatMap enc).length ≤ w.length := by
  obtain ⟨words, rfl, hwords⟩ := h
  induction hwords with
  | nil => exact le_rfl
  | cons ha _ ih =>
    rw [List.flatMap_cons, List.flatten_cons, List.length_append, List.length_append]
    exact Nat.add_le_add (hT _ _ ha) ih

theorem Reading.Vector.length_le {i : Reading} (h : i.Vector T w v)
    (hT : ∀ w a, T w a → (enc a).length ≤ w.length) :
    (encVector enc v).length ≤ w.length := by
  obtain ⟨p, each, hp, rfl, heach⟩ := h
  rw [encVector, List.length_append, List.length_append]
  exact Nat.add_le_add (length_encLen_le_of_len hp) (heach.length_le hT)

theorem spellsEach_iff (hT : ∀ a ∈ v, ∀ w, T w a ↔ w = enc a) :
    SpellsEach T w v ↔ w = v.flatMap enc := by
  constructor
  · rintro ⟨words, rfl, hwords⟩
    induction hwords with
    | nil => rfl
    | cons ha _ ih =>
      rw [List.flatten_cons, List.flatMap_cons, ih fun a ha => hT a (by simp [ha]),
        (hT _ (by simp) _).mp ha]
  · rintro rfl
    refine ⟨v.map enc, by rw [List.flatMap_def], ?_⟩
    exact List.forall₂_map_left_iff.mpr (List.forall₂_same.mpr fun a ha => (hT a ha _).mpr rfl)

theorem strict_vector_iff (hcount : v.length ≤ maxContainerElements)
    (hT : ∀ a ∈ v, ∀ w, T w a ↔ w = enc a) :
    Reading.strict.Vector T w v ↔ w = encVector enc v := by
  have hmax : maxContainerElements ≤ maxConvertLen := by decide
  constructor
  · rintro ⟨p, each, hp, rfl, heach⟩
    rw [encVector, (strict_len_iff.mp hp).2, (spellsEach_iff hT).mp heach]
  · rintro rfl
    exact ⟨_, _, strict_len_iff.mpr ⟨hcount.trans hmax, rfl⟩, rfl, (spellsEach_iff hT).mpr rfl⟩

end Vectors

section Body

variable (L : CurveTable)

/-- A row of `ec_pve_ac_t`. -/
structure PveRow where
  xBin : Bytes
  r : Bytes
  c : Bytes
  quorumC : List Bytes

/-- `ec_pve_ac_t`. -/
structure PveAc where
  Q : List (Option (L.Curve × L.Point))
  L : Bytes
  b : Bytes
  rows : List PveRow

/-- `kappa`. -/
def pveKappa : ℕ := 128

def readPveRow (maxQuorumC : ℕ) : ReadM PveRow := do
  let xBin ← readBuf
  let r ← readBuf
  let c ← readBuf
  let quorumC ← readVectorMax maxQuorumC readBuf
  return ⟨xBin, r, c, quorumC⟩

/-- The reading mode of `ec_pve_ac_t::convert`. The second call converts `L` and `b`. -/
def readPveAc (maxQ maxQuorumC : ℕ) : ReadM (PveAc L) := do
  let Q ← readVectorMax maxQ (readPoint L)
  let label ← readBuf
  let b ← readRest (List.replicate 16 0) (readFixed 16)
  let rows ← ReadM.forAll (readPveRow maxQuorumC) pveKappa
  return ⟨Q, label, b, rows⟩

def writePveRow (row : PveRow) : WriteM Unit := do
  writeBuf row.xBin
  writeBuf row.r
  writeBuf row.c
  writeVector writeBuf row.quorumC

/-- The writing modes of `ec_pve_ac_t::convert`. -/
def writePveAc (v : PveAc L) : WriteM Unit := do
  writeVector (writePoint L) v.Q
  writeBuf v.L
  writeRest (writeFixed v.b)
  WriteM.forAll writePveRow v.rows

def encPveRow (row : PveRow) : Bytes :=
  encBuf row.xBin ++ (encBuf row.r ++ (encBuf row.c ++ encVector encBuf row.quorumC))

def encPveAc (v : PveAc L) : Bytes :=
  encVector (encPoint L) v.Q ++ (encBuf v.L ++ (v.b ++ v.rows.flatMap encPveRow))

def SpellsPveRow (i : Reading) (w : Bytes) (row : PveRow) : Prop :=
  ∃ w1 w2 w3 w4, w = w1 ++ (w2 ++ (w3 ++ w4)) ∧ i.Buf w1 row.xBin ∧ i.Buf w2 row.r ∧
    i.Buf w3 row.c ∧ i.Vector i.Buf w4 row.quorumC

def SpellsPveAc (i : Reading) (w : Bytes) (v : PveAc L) : Prop :=
  ∃ w1 w2 w3, w = w1 ++ (w2 ++ (v.b ++ w3)) ∧ i.Vector (i.Point L) w1 v.Q ∧ i.Buf w2 v.L ∧
    SpellsEach (SpellsPveRow i) w3 v.rows

/-- The limits that the readers test. -/
structure PveAc.Within (maxQ maxQuorumC : ℕ) (v : PveAc L) : Prop where
  Q : v.Q.length ≤ maxContainerElements ∧ v.Q.length ≤ maxQ
  b : v.b.length = 16
  rows : v.rows.length = pveKappa
  quorumC : ∀ row ∈ v.rows, row.quorumC.length ≤ maxContainerElements ∧
    row.quorumC.length ≤ maxQuorumC

variable {L} {maxQ maxQuorumC : ℕ}

theorem sound_readPveRow : Sound (readPveRow maxQuorumC) :=
  sound_readBuf.bind fun _ => sound_readBuf.bind fun _ => sound_readBuf.bind fun _ =>
    (sound_readVectorMax sound_readBuf maxQuorumC).bind fun _ => .pure _

theorem consumes_readPveRow : Consumes (readPveRow maxQuorumC) fun w row =>
    (row.quorumC.length ≤ maxContainerElements ∧ row.quorumC.length ≤ maxQuorumC) ∧
        SpellsPveRow .lenient w row := by
  have hvec := sound_readVectorMax sound_readBuf maxQuorumC
  refine consumes_readBuf.bind (fun xBin w1 h1 => ?_) fun _ =>
      (sound_readBuf.bind fun _ => sound_readBuf.bind fun _ =>
    hvec.bind fun _ => .pure _).stable
  refine consumes_readBuf.bind (fun r w2 h2 => ?_) fun _ =>
    (sound_readBuf.bind fun _ => hvec.bind fun _ => .pure _).stable
  refine consumes_readBuf.bind (fun c w3 h3 => ?_) fun _ => (hvec.bind fun _ => .pure _).stable
  refine (consumes_readVectorMax consumes_readBuf sound_readBuf maxQuorumC).bind
    (fun quorumC w4 h4 => .pure ?_) fun _ => .pure _
  obtain ⟨hcont, hmax, h4⟩ := h4
  exact ⟨⟨hcont, hmax⟩, w1, w2, w3, w4, by rw [List.append_nil], h1, h2, h3, h4⟩

theorem consumes_readPveAc (hL : L.Lawful) : Consumes (readPveAc L maxQ maxQuorumC) fun w v =>
    v.Within L maxQ maxQuorumC ∧ SpellsPveAc L .lenient w v := by
  have hrows : Sound (ReadM.forAll (readPveRow maxQuorumC) pveKappa) :=
    ⟨sound_readPveRow.safe.forAll _, sound_readPveRow.stable.forAll _⟩
  have hfixed : Sound (readRest (List.replicate 16 0) (readFixed 16)) :=
    sound_readRest (sound_readFixed 16)
  refine (consumes_readVectorMax (consumes_readPoint hL) (sound_readPoint L) maxQ).bind
      (fun Q w1 h1 => ?_) fun _ =>
    (sound_readBuf.bind fun _ => hfixed.bind fun _ => hrows.bind fun _ => .pure _).stable
  refine consumes_readBuf.bind (fun label w2 h2 => ?_) fun _ =>
    (hfixed.bind fun _ => hrows.bind fun _ => .pure _).stable
  refine ((consumes_readFixed 16).unless (sound_readFixed 16).stable (.pure _)).bind
      (fun b w3 h3 => ?_) fun _ =>
    (hrows.bind fun _ => .pure _).stable
  refine (consumes_forAll consumes_readPveRow sound_readPveRow.stable pveKappa).bind
    (fun rows w4 h4 => .pure ?_) fun _ => .pure _
  obtain ⟨hcont, hmax, h1⟩ := h1
  obtain ⟨hb, rfl⟩ := h3
  obtain ⟨hlen, words, rfl, hwords⟩ := h4
  refine ⟨⟨⟨hcont, hmax⟩, hb, hlen, fun row hrow => ?_⟩, w1, w2,
    words.flatten, by rw [List.append_nil], h1, h2, words, rfl, hwords.imp fun _ _ h => h.2⟩
  obtain ⟨word, -, hword, -⟩ := exists_of_forall₂ hwords hrow
  exact hword

/-- The rows that can be written and read again. -/
def PveRow.Fits (maxQuorumC : ℕ) (row : PveRow) : Prop :=
  row.xBin.length ≤ maxConvertLen ∧ row.r.length ≤ maxConvertLen ∧ row.c.length ≤ maxConvertLen ∧
    row.quorumC.length ≤ maxContainerElements ∧ row.quorumC.length ≤ maxQuorumC ∧ ∀ c ∈ row.quorumC,
      c.length ≤ maxConvertLen

structure PveAc.Fits (maxQ maxQuorumC : ℕ) (v : PveAc L) :
    Prop extends v.Within L maxQ maxQuorumC where
  points : ∀ P ∈ v.Q, ValidPoint P
  L_le : v.L.length ≤ maxConvertLen
  rows_fit : ∀ row ∈ v.rows, row.Fits maxQuorumC

theorem fits_of_spells (hL : L.Lawful) {i : Reading} {w : Bytes} {v : PveAc L}
    (hv : v.Within L maxQ maxQuorumC) (h : SpellsPveAc L i w v) : v.Fits maxQ maxQuorumC := by
  obtain ⟨w1, w2, w3, -, h1, h2, h3⟩ := h
  refine ⟨hv, fun P hP => ?_, ?_, fun row hrow => ?_⟩
  · obtain ⟨p, each, -, -, words, -, hwords⟩ := h1
    obtain ⟨word, -, c, bytes, P', rfl, -, -, hfrom, -⟩ := exists_of_forall₂ hwords hP
    exact hL.fromBin_toBin c bytes P' hfrom
  · obtain ⟨p, hp, -⟩ := h2
    exact hp.le_max
  · obtain ⟨words, -, hwords⟩ := h3
    obtain ⟨word, -, w1, w2, w3, w4, -, ⟨p1, hp1, -⟩, ⟨p2, hp2, -⟩, ⟨p3, hp3, -⟩, p, each, -, -,
        cs, -, hcs⟩ :=
      exists_of_forall₂ hwords hrow
    refine ⟨hp1.le_max, hp2.le_max, hp3.le_max, (hv.quorumC row hrow).1, (hv.quorumC row hrow).2,
      fun c hc => ?_⟩
    obtain ⟨word, -, p, hp, -⟩ := exists_of_forall₂ hcs hc
    exact hp.le_max

theorem length_encPveRow_le {i : Reading} {w : Bytes} {row : PveRow} (h : SpellsPveRow i w row) :
    (encPveRow row).length ≤ w.length := by
  obtain ⟨w1, w2, w3, w4, rfl, h1, h2, h3, h4⟩ := h
  have hvec := h4.length_le fun _ _ h => Reading.Buf.length_encBuf_le h
  simp only [encPveRow, List.length_append]
  exact Nat.add_le_add h1.length_encBuf_le
    (Nat.add_le_add h2.length_encBuf_le (Nat.add_le_add h3.length_encBuf_le hvec))

theorem length_encPoint_le {i : Reading} {w : Bytes}
    {P : Option (L.Curve × L.Point)} (h : i.Point L w P) :
    (encPoint L P).length ≤ w.length := by
  obtain ⟨c, bytes, P, rfl, rfl, hlen, -, -⟩ := h
  simp only [encPoint, Option.map_some, Option.getD_some, List.length_append, L.length_toBin, hlen]
  exact le_rfl

theorem length_encPveAc_le {i : Reading} {w : Bytes} {v : PveAc L} (h : SpellsPveAc L i w v) :
    (encPveAc L v).length ≤ w.length := by
  obtain ⟨w1, w2, w3, rfl, h1, h2, h3⟩ := h
  have hQ := h1.length_le fun _ _ h => length_encPoint_le h
  have hrows := h3.length_le fun _ _ h => length_encPveRow_le h
  simp only [encPveAc, List.length_append]
  exact Nat.add_le_add hQ (Nat.add_le_add h2.length_encBuf_le (Nat.add_le_add_left hrows _))

theorem strict_buf_iff {w v : Bytes} (hv : v.length ≤ maxConvertLen) :
    Reading.strict.Buf w v ↔ w = encBuf v := by
  refine ⟨fun ⟨p, hp, hw⟩ => hw.trans ?_, fun hw => ⟨_, strict_len_iff.mpr ⟨hv, rfl⟩, hw⟩⟩
  rw [(strict_len_iff.mp hp).2]
  rfl

theorem strict_pveRow_iff {row : PveRow} (h : row.Fits maxQuorumC) {w : Bytes} :
    SpellsPveRow .strict w row ↔ w = encPveRow row := by
  obtain ⟨hx, hr, hc, hcount, -, hcs⟩ := h
  have hvec : ∀ w, Reading.strict.Vector Reading.strict.Buf w row.quorumC ↔
      w = encVector encBuf row.quorumC := fun w =>
    strict_vector_iff hcount fun c hmem w => strict_buf_iff (hcs c hmem)
  constructor
  · rintro ⟨w1, w2, w3, w4, rfl, h1, h2, h3, h4⟩
    rw [(strict_buf_iff hx).mp h1, (strict_buf_iff hr).mp h2, (strict_buf_iff hc).mp h3,
      (hvec _).mp h4]
    rfl
  · rintro rfl
    exact ⟨_, _, _, _, rfl, (strict_buf_iff hx).mpr rfl, (strict_buf_iff hr).mpr rfl,
      (strict_buf_iff hc).mpr rfl, (hvec _).mpr rfl⟩

theorem strict_point_iff {P : Option (L.Curve × L.Point)} (hP : ValidPoint P) {w : Bytes} :
    Reading.strict.Point L w P ↔ w = encPoint L P := by
  match P, hP with
  | some (c, P), hP =>
    constructor
    · rintro ⟨c', bytes, P', hv, rfl, -, -, hstrict⟩
      obtain ⟨rfl, rfl⟩ := Prod.mk.inj (Option.some.inj hv)
      rw [hstrict rfl]
      rfl
    · rintro rfl
      exact ⟨c, L.toBin c P, P, rfl, rfl, L.length_toBin c P, hP, fun _ => rfl⟩

theorem strict_pveAc_iff {v : PveAc L} (h : v.Fits maxQ maxQuorumC) {w : Bytes} :
    SpellsPveAc L .strict w v ↔ w = encPveAc L v := by
  have hQ : ∀ w, Reading.strict.Vector (Reading.strict.Point L) w v.Q ↔
      w = encVector (encPoint L) v.Q := fun w =>
    strict_vector_iff h.Q.1 fun P hP w => strict_point_iff (h.points P hP)
  have hrows : ∀ w, SpellsEach (SpellsPveRow .strict) w v.rows ↔
      w = v.rows.flatMap encPveRow := fun w =>
    spellsEach_iff fun row hrow w => strict_pveRow_iff (h.rows_fit row hrow)
  constructor
  · rintro ⟨w1, w2, w3, rfl, h1, h2, h3⟩
    rw [(hQ _).mp h1, (strict_buf_iff h.L_le).mp h2, (hrows _).mp h3]
    rfl
  · rintro rfl
    exact ⟨_, _, _, rfl, (hQ _).mpr rfl, (strict_buf_iff h.L_le).mpr rfl, (hrows _).mpr rfl⟩

theorem decodes_readPveRow {row : PveRow} (h : row.Fits maxQuorumC) :
    Decodes (readPveRow maxQuorumC) (encPveRow row) row := by
  obtain ⟨hx, hr, hc, hcount, hmax, hcs⟩ := h
  have hvec := decodes_readVectorMax hcount hmax (fun c _ => encBuf_ne_nil c) fun c hmem =>
    decodes_readBuf (hcs c hmem)
  exact (decodes_readBuf hx).bind
    ((decodes_readBuf hr).bind ((decodes_readBuf hc).bind (hvec.bind_end (.pure row))))

theorem decodes_readPveAc {v : PveAc L} (h : v.Fits maxQ maxQuorumC) :
    Decodes (readPveAc L maxQ maxQuorumC) (encPveAc L v) v := by
  have hpoint : ∀ P ∈ v.Q, Decodes (readPoint L) (encPoint L P) P := by
    intro P hP
    have hvalid := h.points P hP
    match P, hvalid with
    | some (c, P), hvalid => exact decodes_readPoint L hvalid
  have hQ := decodes_readVectorMax h.Q.1 h.Q.2 (fun P _ => encPoint_ne_nil P) hpoint
  have hb := decodes_readFixed v.b
  have hrows := Decodes.forAll fun row hrow => decodes_readPveRow (h.rows_fit row hrow)
  rw [h.b] at hb
  rw [h.rows] at hrows
  exact hQ.bind ((decodes_readBuf h.L_le).bind
    ((decodes_readRest hb).bind (hrows.bind_end (.pure v))))

theorem writes_writePveAc {v : PveAc L} (h : v.Fits maxQ maxQuorumC) :
    Writes (writePveAc L v) (encPveAc L v) := by
  have hrow : ∀ row ∈ v.rows, Writes (writePveRow row) (encPveRow row) := by
    intro row hrow
    obtain ⟨hx, hr, hc, hcount, -, hcs⟩ := h.rows_fit row hrow
    exact (writes_writeBuf hx).bind ((writes_writeBuf hr).bind ((writes_writeBuf hc).bind
      (writes_writeVector hcount fun c hmem => writes_writeBuf (hcs c hmem))))
  exact (writes_writeVector h.Q.1 fun P _ => writes_writePoint L P).bind
    ((writes_writeBuf h.L_le).bind
    ((writes_writeRest (writes_put v.b)).bind (.forAll hrow)))

end Body

section Blob

variable (L : CurveTable)

/-- `pve_ac_ciphertext_blob_v1_t`. -/
structure PveBlob where
  version : Word .w32
  batchCount : Word .w32
  ct : Bytes

def pveBlobTy : Ty := .pair (.uint .w32) (.pair (.uint .w32) .buf)

/-- The members in the order of `convert`. -/
def PveBlob.val (blob : PveBlob) : pveBlobTy.Val noCurves :=
  (blob.version, blob.batchCount, blob.ct)

def PveBlob.ofVal : pveBlobTy.Val noCurves → PveBlob
  | (version, batchCount, ct) => ⟨version, batchCount, ct⟩

def PveBlob.parse (src : Bytes) : Outcome PveBlob := do
  let v ← convertFrom (read nameOrder pveBlobTy) src
  .ok (ofVal v)

/-- `MAX_BATCH_COUNT`. -/
def maxBatchCount : ℕ := 100000

/-- `parse_ac_ciphertext` and `parse_ac_ciphertext_body`, with the number of leaves. -/
def parsePveAc (leaves : ℕ) (src : Bytes) : Outcome (Word .w32 × PveAc L) := do
  let blob ← PveBlob.parse src
  require (decide (blob.version = 1)) .format
  require (decide (blob.batchCount ≠ 0)) .format
  require (decide (blob.batchCount.toNat ≤ maxBatchCount)) .range
  let body ← convertFrom (readPveAc L blob.batchCount.toNat leaves) blob.ct
  .ok (blob.batchCount, body)

/-- A ciphertext of `verify_ac`, `partial_decrypt_ac_attempt` and `combine_ac`, which then use its
value. -/
def acceptPveAc (leaves : ℕ) (use : Word .w32 × PveAc L → Outcome Unit) (src : Bytes) :
    Outcome (Word .w32 × PveAc L) := do
  validateMemArgMaxSize src maxCiphertextBlobSize
  let v ← parsePveAc L leaves src
  use v
  .ok v

/-- The end of `encrypt_ac`. -/
def buildPveAc (garbage : ℕ → Fin 256) (v : Word .w32 × PveAc L) : Outcome Bytes := do
  let ct ← ser garbage (writePveAc L v.2)
  ser garbage (write pveBlobTy (PveBlob.val ⟨1, v.1, ct⟩))

/-- The body is spelled inside a buffer of the blob, where bytes may follow it. -/
def SpellsPve (i : Reading) (w : Bytes) (v : Word .w32 × PveAc L) : Prop :=
  ∃ ct tail : Bytes, Spells nameOrder i pveBlobTy w (PveBlob.val ⟨1, v.1, ct ++ tail⟩) ∧
    SpellsPveAc L i ct v.2 ∧
    (i = .strict → tail = [])

variable {L} {leaves : ℕ} {use : Word .w32 × PveAc L → Outcome Unit} {src : Bytes}
  {v : Word .w32 × PveAc L}

theorem acceptPveAc_ok_iff :
    acceptPveAc L leaves use src = .ok v ↔ (src ≠ [] ∧ src.length ≤ maxCiphertextBlobSize) ∧
    parsePveAc L leaves src = .ok v ∧ use v = .ok () := by
  rw [← validateMemArgMaxSize_ok_iff]
  constructor
  · intro h
    obtain ⟨u, hsize, h⟩ := bind_ok_iff.mp h
    obtain ⟨v', hv, h⟩ := bind_ok_iff.mp h
    obtain ⟨u', huse, h⟩ := bind_ok_iff.mp h
    cases h
    exact ⟨hsize, hv, huse⟩
  · rintro ⟨hsize, hv, huse⟩
    exact bind_ok_iff.mpr ⟨(), hsize, bind_ok_iff.mpr ⟨v, hv, bind_ok_iff.mpr ⟨(), huse, rfl⟩⟩⟩

theorem parsePveAc_ok_iff : parsePveAc L leaves src = .ok v ↔ ∃ ct : Bytes,
    convertFrom (read nameOrder pveBlobTy) src = .ok (PveBlob.val ⟨1, v.1, ct⟩) ∧ v.1 ≠ 0 ∧
    v.1.toNat ≤ maxBatchCount ∧
      convertFrom (readPveAc L v.1.toNat leaves) ct = .ok v.2 := by
  constructor
  · intro h
    obtain ⟨blob, hblob, h⟩ := bind_ok_iff.mp h
    obtain ⟨u, hu, hblob⟩ := bind_ok_iff.mp hblob
    cases hblob
    simp only [require_bind_ok_iff, decide_eq_true_eq] at h
    obtain ⟨hversion, hne, hle, h⟩ := h
    obtain ⟨body, hbody, h⟩ := bind_ok_iff.mp h
    cases h
    refine ⟨(PveBlob.ofVal u).ct, hu.trans ?_, hne, hle, hbody⟩
    rw [← hversion]
    rfl
  · rintro ⟨ct, hblob, hne, hle, hbody⟩
    refine bind_ok_iff.mpr ⟨⟨1, v.1, ct⟩, bind_ok_iff.mpr ⟨_, hblob, rfl⟩, ?_⟩
    simp only [require_bind_ok_iff, decide_eq_true_eq]
    exact ⟨trivial, hne, hle, bind_ok_iff.mpr ⟨v.2, hbody, rfl⟩⟩

theorem pveAc_normalForm (hL : L.Lawful) (leaves : ℕ) (use : Word .w32 × PveAc L → Outcome Unit)
    (garbage : ℕ → Fin 256) :
    NormalForm (acceptPveAc L leaves use) (buildPveAc L garbage) (SpellsPve L) where
  spelled src v h := by
    obtain ⟨-, hv, -⟩ := acceptPveAc_ok_iff.mp h
    obtain ⟨ct, hblob, -, -, hbody⟩ := parsePveAc_ok_iff.mp hv
    obtain ⟨w, tail, hsrc, hw⟩ :=
      (consumes_read noCurves_lawful nameOrder_transitive rfl).of_convertFrom hblob
    obtain ⟨w', tail', rfl, -, hw'⟩ := (consumes_readPveAc hL).of_convertFrom hbody
    exact ⟨w, tail, hsrc, w', tail', hw, hw', nofun⟩
  normal src v h := by
    obtain ⟨⟨hne, hlen⟩, hv, huse⟩ := acceptPveAc_ok_iff.mp h
    obtain ⟨ct, hblob, hzero, hcount, hbody⟩ := parsePveAc_ok_iff.mp hv
    obtain ⟨w, tail, rfl, hw⟩ :=
      (consumes_read noCurves_lawful nameOrder_transitive rfl).of_convertFrom hblob
    obtain ⟨w', tail', rfl, hwithin, hw'⟩ := (consumes_readPveAc hL).of_convertFrom hbody
    have hmax : maxCiphertextBlobSize ≤ intMax := by decide
    have hint : maxConvertLen ≤ intMax := by decide
    have hfits := fits_of_spells hL hwithin hw'
    have hct : (w' ++ tail').length ≤ maxConvertLen := (hw.fits noCurves_lawful).2.2
    have hbodyLen : (encPveAc L v.2).length ≤ (w' ++ tail').length := by
      rw [List.length_append]
      exact (length_encPveAc_le hw').trans (Nat.le_add_right _ _)
    have houter : Fits nameOrder pveBlobTy (PveBlob.val ⟨1, v.1, encPveAc L v.2⟩) :=
      ⟨trivial, trivial, hbodyLen.trans hct⟩
    have houterLen : (enc pveBlobTy (PveBlob.val ⟨1, v.1, encPveAc L v.2⟩)).length ≤
        (w ++ tail).length := by
      have hspelled := hw.length_enc_le
      have hmono : (enc pveBlobTy (PveBlob.val ⟨1, v.1, encPveAc L v.2⟩)).length ≤
          (enc pveBlobTy (PveBlob.val ⟨1, v.1, w' ++ tail'⟩)).length := by
        have hbuf := length_encBuf_mono hbodyLen
        change (encUint (1 : Word .w32) ++ (encUint v.1 ++ encBuf (encPveAc L v.2))).length ≤
          (encUint (1 : Word .w32) ++ (encUint v.1 ++ encBuf (w' ++ tail'))).length
        simp only [List.length_append] at hbuf ⊢
        omega
      rw [List.length_append]
      exact (hmono.trans hspelled).trans (Nat.le_add_right _ _)
    have hser : ser garbage (writePveAc L v.2) = .ok (encPveAc L v.2) := by
      rw [ser_eq (writes_writePveAc hfits)]
      exact if_pos (hbodyLen.trans (hct.trans hint))
    have hserOuter : ser garbage (write pveBlobTy (PveBlob.val ⟨1, v.1, encPveAc L v.2⟩)) =
        .ok (enc pveBlobTy (PveBlob.val ⟨1, v.1, encPveAc L v.2⟩)) := by
      rw [ser_eq (writes_write houter)]
      exact if_pos (houterLen.trans (hlen.trans hmax))
    have hread : parsePveAc L leaves
        (enc pveBlobTy (PveBlob.val ⟨1, v.1, encPveAc L v.2⟩)) = .ok v :=
      parsePveAc_ok_iff.mpr ⟨encPveAc L v.2,
        convertFrom_eq (decodes_read houter) (houterLen.trans (hlen.trans hmax)), hzero,
        hcount, convertFrom_eq (decodes_readPveAc hfits) (hbodyLen.trans (hct.trans hint))⟩
    refine ⟨_, bind_ok_iff.mpr ⟨_, hser, hserOuter⟩,
      acceptPveAc_ok_iff.mpr ⟨⟨?_, houterLen.trans hlen⟩, hread, huse⟩,
      houterLen, ?_⟩
    · exact List.append_ne_nil_of_left_ne_nil (encUint_ne_nil _) _
    · constructor
      · intro hsame
        refine ⟨encPveAc L v.2, [], ?_, (strict_pveAc_iff hfits).mpr rfl, fun _ => rfl⟩
        rw [List.append_nil]
        exact (spells_strict_iff rfl houter).mpr hsame.symm
      · rintro ⟨ct, tail', hspells, hspelled, htail⟩
        rw [htail rfl, List.append_nil, (strict_pveAc_iff hfits).mp hspelled] at hspells
        exact ((spells_strict_iff rfl houter).mp hspells).symm

end Blob

section Canonical

variable {L : CurveTable} {order : KeyOrder L}

/-- Every accepted input is the one that is written for its value. -/
def Canonical {V : Type} (parse : Bytes → Outcome V) (build : V → Outcome Bytes) : Prop :=
  ∀ src v, parse src = .ok v → build v = .ok src

theorem enc_publicKey_ne_nil (v : publicKeyTy.Val L) : enc publicKeyTy v ≠ [] :=
  List.append_ne_nil_of_left_ne_nil (encPoint_ne_nil _) _

theorem enc_ciphertext_ne_nil (v : ciphertextTy.Val L) : enc ciphertextTy v ≠ [] :=
  List.append_ne_nil_of_left_ne_nil (encBuf_ne_nil _) _

theorem enc_partialDecryption_ne_nil (v : partialDecryptionTy.Val L) :
    enc partialDecryptionTy v ≠ [] :=
  List.append_ne_nil_of_left_ne_nil (encUint_ne_nil _) _

theorem enc_keyBlob_ne_nil (v : keyBlobTy.Val noCurves) : enc keyBlobTy v ≠ [] :=
  List.append_ne_nil_of_left_ne_nil (encUint_ne_nil _) _

/-- The blobs of the three interfaces have normal forms: key blobs as keys of a job and as records,
public keys, ciphertexts and partial decryptions of TDH2, and verifiable ciphertexts. -/
theorem blobs_normalForm (F : CurveId → CurveBackend) (hF : ∀ c, (F c).Lawful) (hL : L.Lawful)
    (htrans : order.Transitive) (garbage : ℕ → Fin 256) :
    (∀ additive job, NormalForm (acceptKeyBlob F additive job)
      (serializeBlob garbage additive job) (SpellsKey additive)) ∧
    (∀ use, NormalForm (acceptBlob nameOrder maxOpaqueBlobSize keyBlobTy use) (fun v =>
      ser garbage (write keyBlobTy v))
      fun i w v => Spells nameOrder i keyBlobTy w v) ∧
    (∀ O, NormalForm (acceptPublicKey order O) (fun v => ser garbage (write publicKeyTy v))
      fun i w v => Spells order i publicKeyTy w v) ∧
    (∀ use, NormalForm (acceptCiphertext order use) (fun v => ser garbage (write ciphertextTy v))
      fun i w v => Spells order i ciphertextTy w v) ∧
    (∀ use, NormalForm (acceptPartialDecryption order use) (fun v =>
      ser garbage (write partialDecryptionTy v))
      fun i w v => Spells order i partialDecryptionTy w v) ∧
    ∀ leaves use, NormalForm (acceptPveAc L leaves use) (buildPveAc L garbage) (SpellsPve L) := by
  have hopaque : maxOpaqueBlobSize ≤ intMax := by decide
  have hcipher : maxCiphertextBlobSize ≤ intMax := by decide
  refine ⟨fun additive job => keyBlob_normalForm garbage hF additive job, fun use => ?_, fun O =>
    ?_, fun use => ?_, fun use => ?_,
    fun leaves use => pveAc_normalForm hL leaves use garbage⟩
  · exact acceptBlob_normalForm noCurves_lawful nameOrder_transitive rfl
      enc_keyBlob_ne_nil hopaque use garbage
  · exact acceptBlob_normalForm hL htrans rfl enc_publicKey_ne_nil hopaque O.validate garbage
  · exact acceptBlob_normalForm hL htrans rfl enc_ciphertext_ne_nil hcipher use garbage
  · exact acceptBlob_normalForm hL htrans rfl enc_partialDecryption_ne_nil hopaque use garbage

end Canonical

section Examples

/-- The decoder of this curve looks at the length. -/
def sizedBackend : CurveBackend :=
  { sampleBackend with
    parse := fun bin => if bin.length = 3 then sampleBackend.parse bin else none
    parse_oct := fun P hP => (if_pos (sampleBackend.length_oct P hP)).trans
      (sampleBackend.parse_oct P hP) }

theorem sizedBackend_lawful : sizedBackend.Lawful := by
  refine ⟨fun bin P _ => .inl rfl, fun bin P h => ?_⟩
  change 3 ≤ bin.length
  unfold CurveBackend.fromBin at h
  split at h
  · obtain ⟨hlen, -⟩ := require_bind_ok_iff.mp h
    have hlen : bin.length = 3 ∨ bin.length = 5 := of_decide_eq_true hlen
    omega
  · by_contra hlt
    have hparse : sizedBackend.parse bin = none := if_neg (by omega)
    rw [hparse] at h
    cases h

theorem sampleCurves_lawful : sampleCurves.Lawful := by
  refine ⟨fun code c h => ?_, fun _ _ _ _ => rfl⟩
  by_contra hne
  have hnone : sampleCurves.find code = none := if_neg hne
  rw [hnone] at h
  cases h

theorem sampleOrder_transitive : sampleOrder.Transitive := by
  intro k a b c hab hbc
  cases k with
  | uint w =>
    have h1 : BitVec.toNat a < BitVec.toNat b := of_decide_eq_true hab
    have h2 : BitVec.toNat b < BitVec.toNat c := of_decide_eq_true hbc
    exact decide_eq_true (h1.trans h2)
  | _ => exact absurd hab Bool.false_ne_true

def sizedBackends : CurveId → CurveBackend := fun _ => sizedBackend

def blobJob : ApiJob := ⟨0, [[97], [98]]⟩

/-- The blob of the share 1 of the key 3 of two parties. -/
def blobBytes : Bytes :=
  [0, 0, 0, 1, 0, 0, 0, 1, 0, 1, 97, 3, 2, 0, 3, 2, 0, 1, 97, 3, 2, 0, 1, 0, 1, 98, 3,
    2, 0, 2, 2, 1]

theorem blobBytes_reencoded :
    (acceptKeyBlob sizedBackends true blobJob (blobBytes ++ [0]) >>= fun key =>
    serializeBlob (fun _ => 0) true blobJob key) = .ok blobBytes := by
  decide +kernel

/-- A byte behind a key blob is not seen. -/
theorem trailing_byte_accepted :
    ¬ Canonical (acceptKeyBlob sizedBackends true blobJob)
      (serializeBlob (fun _ => 0) true blobJob) := by
  intro h
  obtain ⟨key, hkey, hser⟩ := bind_ok_iff.mp blobBytes_reencoded
  rw [h _ key hkey] at hser
  exact absurd (congrArg List.length (Except.ok.inj hser)) (by decide)

/-- The blob with the byte behind it has the blob without it for its normal form. -/
theorem blobs_normalForm_sample :
    ∃ key bytes, acceptKeyBlob sizedBackends true blobJob (blobBytes ++ [0]) = .ok key ∧
    serializeBlob (fun _ => 0) true blobJob key = .ok bytes ∧
    acceptKeyBlob sizedBackends true blobJob bytes = .ok key := by
  obtain ⟨key, hkey, -⟩ := bind_ok_iff.mp blobBytes_reencoded
  obtain ⟨bytes, hser, hread, -⟩ :=
    ((blobs_normalForm sizedBackends (fun _ => sizedBackend_lawful) sampleCurves_lawful
    sampleOrder_transitive (fun _ => 0)).1 true blobJob).normal _ key hkey
  exact ⟨key, bytes, hkey, hser, hread⟩

end Examples

end CbMpc
