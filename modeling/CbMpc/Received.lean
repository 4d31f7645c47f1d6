import CbMpc.CodeWords

/-!
# What readers yield

A reader that ends without an error yields a value of which a writer cuts nothing: the limits of the
reading mode lie below those that the writing modes cut at.
-/
namespace CbMpc

open ReadM Node

section Parts

variable {α : Type}

theorem ReadM.Ensures.mono {x : ReadM α} {P Q : α → Prop} (hx : Ensures x P)
    (h : ∀ a, P a → Q a) : Ensures x Q :=
  fun r a r' hr he => h a (hx r a r' hr he)

theorem stable_option {β : Type} {f : Option α → ReadM β} (hnone : Stable (f none))
    (hsome : ∀ a, Stable (f (some a))) :
    ∀ o, Stable (f o) := by
  rintro (_ | a)
  · exact hnone
  · exact hsome a

theorem ensures_ensure (n : ℕ) : Ensures (ensure n) fun b => b = true := by
  intro r b r' h he
  rw [ensure_apply] at h
  split_ifs at h
  · cases h
    rfl
  · cases h
    exact absurd he (r.error_setError_ne_none .format)

theorem ensures_current (n : ℕ) : Ensures (current n) fun bytes => bytes.length = n := by
  intro r bytes r' h he
  change (if r.offset + n ≤ r.src.length then (pure _ : ReadM (List Octet)) else throw _) r = _ at h
  split_ifs at h with hle
  · cases h
    rw [List.length_take, List.length_drop]
    omega
  · cases h

/-- Bytes are there, and their use accepted them. -/
theorem ensures_checked (n : ℕ) (f : List Octet → Except ErrorCode α) :
    Ensures (checked n f) fun o => ∃ bytes a, bytes.length = n ∧ f bytes = .ok a ∧ o = some a := by
  refine ensures_isError.bind (fun e he => .ite (fun h => by simp [he] at h) fun _ => ?_) fun _ =>
    .ite ((stable_setError .format).bind fun _ => .pure none) ((stable_ensure n).bind fun _ =>
      .ite ((stable_current n).bind fun bytes => ?_) (.pure none))
  · refine (ensures_ensure n).bind (fun b hb => .ite (fun _ => ?_) fun h => absurd hb h) fun _ =>
      .ite ((stable_current n).bind fun bytes => ?_) (.pure none)
    · refine (ensures_current n).bind (fun bytes hbytes => ?_) fun bytes => ?_
      · cases hf : f bytes with
        | error rv => exact ensures_setError _ _ _
        | ok a =>
          exact (ensures_true _).bind (fun _ _ => .pure ⟨bytes, a, hbytes, hf, rfl⟩) fun _ =>
            .pure _
      · cases f bytes with
        | error rv => exact (stable_setError rv).bind fun _ => .pure none
        | ok a => exact (stable_forward n).bind fun _ => .pure (some a)
    · cases f bytes with
      | error rv => exact (stable_setError rv).bind fun _ => .pure none
      | ok a => exact (stable_forward n).bind fun _ => .pure (some a)
  · cases f bytes with
    | error rv => exact (stable_setError rv).bind fun _ => .pure none
    | ok a => exact (stable_forward n).bind fun _ => .pure (some a)

theorem ensures_fetch (n : ℕ) :
    Ensures (fetch n) fun o => ∃ bytes, bytes.length = n ∧ o = some bytes :=
  (ensures_checked n .ok).mono fun o ⟨bytes, a, hlen, ha, ho⟩ => ⟨bytes, hlen, by
    cases ha
    exact ho⟩

theorem ensures_forAll {x : ReadM α} {P : α → Prop} (hx : Ensures x P) (hs : Stable x) (n : ℕ) :
    Ensures (ReadM.forAll x n) fun as => as.length = n ∧ as.Forall P := by
  induction n with
  | zero => exact .pure ⟨rfl, trivial⟩
  | succ n ih =>
    refine hx.bind (fun a ha =>
        ih.bind (fun as has => .pure ⟨by simp [has.1], ?_⟩) fun _ => .pure _) fun a =>
      (hs.forAll n).bind fun _ => .pure _
    exact (List.forall_cons P a as).mpr ⟨ha, has.2⟩

theorem ensures_whileNoError {x : ReadM α} {P : α → Prop} (hx : Ensures x P)
    (hs : Stable x) (n : ℕ) :
    Ensures (ReadM.whileNoError x n) fun as => as.length = n ∧ as.Forall P := by
  induction n with
  | zero => exact .pure ⟨rfl, trivial⟩
  | succ n ih =>
    have htail : ∀ a, Stable (ReadM.whileNoError x n >>= fun as =>
        pure (a :: as) : ReadM (List α)) :=
      fun a => (hs.whileNoError n).bind fun _ => .pure _
    refine ensures_isError.bind (fun e he => .ite (fun h => by simp [he] at h) fun _ => ?_) fun _ =>
      .ite (.pure []) (hs.bind htail)
    refine hx.bind (fun a ha =>
      ih.bind (fun as has => .pure ⟨by simp [has.1], ?_⟩) fun _ => .pure _) htail
    exact (List.forall_cons P a as).mpr ⟨ha, has.2⟩

theorem ensures_readRest {default : α} {x : ReadM α} {P : α → Prop}
    (hx : Ensures x P) (hs : Stable x) :
    Ensures (readRest default x) P :=
  ensures_isError.bind (fun e he => .ite (fun h => by simp [he] at h) fun _ => hx) fun _ =>
    .ite (.pure default) hs

theorem ensures_checkLen (len : ℕ) : Ensures (checkLen len) (· ≤ maxConvertLen) :=
  (ensures_true _).bind (fun _ _ => .ite (fun _ => .pure (Nat.zero_le _)) fun _ =>
    .ite (fun _ => ensures_setError _ _ _) fun h => .pure (not_lt.mp h))
    fun _ => .ite (.pure _) (.ite ((stable_setError .format).bind fun _ => .pure _) (.pure _))

theorem ensures_readLen : Ensures readLen (· ≤ maxConvertLen) := by
  have h2 : ∀ f : ℕ → ℕ, Ensures (readByte >>= fun b => checkLen (f b)) (· ≤ maxConvertLen) :=
      fun f =>
    (ensures_true _).bind (fun b _ => ensures_checkLen (f b)) fun b => (sound_checkLen (f b)).stable
  have h3 : ∀ f : ℕ → ℕ → ℕ,
      Ensures (readByte >>= fun b₁ => readByte >>= fun b₂ =>
        checkLen (f b₁ b₂)) (· ≤ maxConvertLen) :=
    fun f => (ensures_true _).bind (fun b _ => h2 (f b)) fun b =>
      (sound_readByte.bind fun c => sound_checkLen (f b c)).stable
  have h4 : ∀ f : ℕ → ℕ → ℕ → ℕ,
      Ensures (readByte >>= fun b₁ => readByte >>= fun b₂ => readByte >>= fun b₃ =>
      checkLen (f b₁ b₂ b₃)) (· ≤ maxConvertLen) :=
    fun f => (ensures_true _).bind (fun b _ => h3 (f b)) fun b =>
      (sound_readByte.bind fun c => sound_readByte.bind fun d => sound_checkLen (f b c d)).stable
  refine (ensures_true _).bind (fun b _ =>
    (ensures_true _).bind (fun e _ => ?_) fun e => ?_) fun b => ?_
  · exact .ite (fun _ => .pure (Nat.zero_le _)) fun _ => .ite (fun _ => ensures_checkLen b) fun _ =>
      .ite (fun _ => h2 _) fun _ => .ite (fun _ => h3 _) fun _ => h4 _
  · exact (Sound.ite (.pure 0)
      (.ite (sound_checkLen b) (.ite (sound_readByte.bind fun _ => sound_checkLen _)
      (.ite (sound_readByte.bind fun _ => sound_readByte.bind fun _ => sound_checkLen _)
        (sound_readByte.bind fun _ => sound_readByte.bind fun _ => sound_readByte.bind fun _ =>
          sound_checkLen _))))).stable
  · exact (sound_isError.bind fun _ =>
      Sound.ite (.pure 0) (.ite (sound_checkLen b)
        (.ite (sound_readByte.bind fun _ => sound_checkLen _)
      (.ite (sound_readByte.bind fun _ => sound_readByte.bind fun _ => sound_checkLen _)
        (sound_readByte.bind fun _ => sound_readByte.bind fun _ => sound_readByte.bind fun _ =>
          sound_checkLen _))))).stable

end Parts

section Leaves

theorem ensures_readString : Ensures readString fun v => v.length ≤ shrtMax := by
  refine (ensures_true _).bind (fun size _ =>
      .ite (fun _ => ensures_setError _ _ _) fun hsize => ?_) fun size =>
    .ite (sound_setError .format _).stable
      ((sound_fetch _).stable.bind (stable_option (.pure _) fun _ => .pure _))
  refine (ensures_fetch _).bind (fun o ho => ?_) (stable_option (.pure _) fun _ => .pure _)
  obtain ⟨bytes, hlen, rfl⟩ := ho
  refine .pure ?_
  have hlt : size.toInt < 2 ^ 15 := BitVec.toInt_lt
  rw [hlen, shrtMax]
  omega

theorem ensures_readBuf : Ensures readBuf fun v => v.length ≤ maxConvertLen := by
  refine ensures_readLen.bind (fun size hsize =>
      .ite (fun _ => ensures_setError _ _ _) fun _ => ?_) fun size =>
    .ite (sound_setError .format _).stable
      ((sound_fetch _).stable.bind (stable_option (.pure _) fun _ => .pure _))
  refine (ensures_fetch _).bind (fun o ho => ?_) (stable_option (.pure _) fun _ => .pure _)
  obtain ⟨bytes, hlen, rfl⟩ := ho
  exact .pure (hlen.trans_le hsize)

theorem ensures_readFixed (n : ℕ) : Ensures (readFixed n) fun v => v.length = n := by
  refine (ensures_fetch n).bind (fun o ho => ?_) (stable_option (.pure _) fun _ => .pure _)
  obtain ⟨bytes, hlen, rfl⟩ := ho
  exact .pure hlen

theorem getBinSize_le_of_natAbs_lt {v : ℤ} {n : ℕ} (h : v.natAbs < 256 ^ n) : getBinSize v ≤ n := by
  have hsize : v.natAbs.size ≤ 8 * n := Nat.size_le.mpr (by rwa [pow_mul])
  rw [getBinSize, bitsToBytes]
  omega

theorem ensures_readBn : Ensures readBn fun v => getBinSize v ≤ maxSerializedBignumBytes := by
  refine (ensures_true _).bind (fun header _ =>
      .ite (fun _ => ensures_setError _ _ _) fun hheader => ?_) fun header =>
    .ite (sound_setError .format _).stable ((sound_fetch _).stable.bind
      (stable_option (.pure _) fun _ => .ite (sound_setError .format _).stable (.pure _)))
  refine (ensures_fetch _).bind (fun o ho => ?_)
    (stable_option (.pure _) fun _ => .ite (sound_setError .format _).stable (.pure _))
  obtain ⟨bytes, hlen, rfl⟩ := ho
  refine .ite (fun _ => ensures_setError _ _ _) fun _ => .pure ?_
  refine (getBinSize_le_of_natAbs_lt (n := header / 2) ?_).trans (by omega)
  have hlt := fromBin_lt bytes
  rw [hlen] at hlt
  split_ifs <;> simpa using hlt

theorem ensures_readMod :
    Ensures readMod fun v => isValidModulus v = true ∧ getBinSize v ≤ maxSerializedBignumBytes := by
  have hend : ∀ m : ℤ, Stable (if isValidModulus m = true then
      ReadM.assert (decide (m.natAbs.size ≤ maxModulusBits)) >>= fun _ => pure m
      else ReadM.setError .format >>= fun _ => pure m : ReadM ℤ) := fun m =>
    .ite ((stable_assert _).bind fun _ => .pure m) (sound_setError .format m).stable
  refine ensures_readBn.bind (fun m hm => ?_) fun m =>
    stable_isError.bind fun _ => .ite (.pure m) (hend m)
  refine ensures_isError.bind (fun e he => .ite (fun h => by simp [he] at h) fun _ => ?_) fun _ =>
    .ite (.pure m) (hend m)
  exact .ite (fun hvalid => (ensures_true _).bind (fun _ _ => .pure ⟨hvalid, hm⟩) fun _ =>
    .pure m) fun _ => ensures_setError _ _ _

variable (L : CurveTable)

theorem ensures_readCurve : Ensures (readCurve L) fun c => c.isSome = true := by
  refine (ensures_true _).bind (fun code _ =>
      ensures_isError.bind (fun e he => .ite (fun h => by simp [he] at h) fun _ =>
    .ite (fun _ => ensures_setError _ _ _) fun _ => ?_) fun _ =>
      .ite (.pure _) (.ite (sound_setError .format _).stable ?_))
    fun code => stable_isError.bind fun _ =>
      .ite (.pure _) (.ite (sound_setError .format _).stable ?_)
  · cases L.find code with
    | none => exact ensures_setError _ _ _
    | some c => exact .pure rfl
  · cases L.find code with
    | none => exact (sound_setError .format _).stable
    | some c => exact .pure _
  · cases L.find code with
    | none => exact (sound_setError .format _).stable
    | some c => exact .pure _

/-- A point has a curve, and its curve read it from bytes of the curve's size. -/
theorem ensures_readPoint :
    Ensures (readPoint L) fun v => ∃ c bytes P, bytes.length = L.pointSize c ∧
    L.fromBin c bytes = .ok P ∧ v = some (c, P) := by
  refine (ensures_readCurve L).bind (fun c hc =>
    ensures_isError.bind (fun e he => .ite (fun h => by simp [he] at h) fun _ => ?_)
    fun _ => .ite (.pure _) ?_) fun c => stable_isError.bind fun _ => .ite (.pure _) ?_
  · obtain ⟨c, rfl⟩ := Option.isSome_iff_exists.mp hc
    refine (ensures_checked _ _).bind (fun o ho => ?_) (stable_option (.pure _) fun _ => .pure _)
    obtain ⟨bytes, P, hlen, hP, rfl⟩ := ho
    exact .pure ⟨c, bytes, P, hlen, hP, rfl⟩
  · cases c with
    | none => exact .pure _
    | some c => exact (stable_checked _ _).bind (stable_option (.pure _) fun _ => .pure _)
  · cases c with
    | none => exact .pure _
    | some c => exact (stable_checked _ _).bind (stable_option (.pure _) fun _ => .pure _)

end Leaves

section Trees

theorem length_readChildren {x : ReadM Node} (hs : Sound x) (n : ℕ) :
    Ensures (readChildren x n) fun cs => cs.length = n := by
  induction n with
  | zero => exact .pure rfl
  | succ n ih =>
    have htail : ∀ c, Stable (readChildren x n >>= fun cs => pure (c :: cs) : ReadM (List Node)) :=
      fun c => ((sound_readChildren hs n).bind fun _ => .pure _).stable
    refine (ensures_true _).bind (fun c _ =>
      ensures_readRest (ih.bind (fun cs hcs => .pure ?_) fun _ => .pure _) (htail c))
      fun c => (sound_readRest ((sound_readChildren hs n).bind fun _ => .pure _)).stable
    rw [List.length_cons, hcs]

def BoundedNode (t : Node) : Prop := t.name.length ≤ shrtMax ∧ t.children.length ≤ maxConvertLen

theorem bounded_readNode (levels : ℕ) :
    Ensures (readNode levels) fun t => t.Forall BoundedNode := by
  induction levels with
  | zero => exact ensures_setError .format _ _
  | succ levels ih =>
    have hs := sound_readNode levels
    have hend : ∀ (type : Word .w32) (name : List Octet) (th : Word .w32) (n : ℕ),
        Sound (readChildren (readNode levels) n >>= fun cs =>
          pure (mk (wordNodeType type) name th.toInt cs)) :=
      fun type name th n => (sound_readChildren hs n).bind fun _ => .pure _
    refine (ensures_true _).bind (fun type _ =>
      ensures_readString.bind (fun name hname => (ensures_true _).bind
      (fun th _ => ensures_readLen.bind (fun n hn => ?_) fun n => (hend type name th n).stable)
      fun th => (sound_readLen.bind (hend type name th)).stable)
      fun name => ((sound_readRest (sound_readUint .w32)).bind fun th =>
        sound_readLen.bind (hend type name th)).stable)
      fun type => (sound_readString.bind fun name =>
        (sound_readRest (sound_readUint .w32)).bind fun th =>
        sound_readLen.bind (hend type name th)).stable
    have hchildren : Ensures (readChildren (readNode levels) n) fun cs => cs.length = n ∧ ∀ c ∈ cs,
        c.Forall BoundedNode :=
      fun r cs r' hr he => ⟨length_readChildren hs n r cs r' hr he,
        ensures_readChildren ih hs n r cs r' hr he⟩
    refine hchildren.bind (fun cs hcs => .pure fun s hmem => ?_) fun _ => .pure _
    rcases mem_subtrees_mk.mp hmem with rfl | ⟨c, hc, hsub⟩
    · exact ⟨hname, hcs.1.trans_le hn⟩
    · exact hcs.2 c hc s hsub

theorem ensures_readAc_valid {L : CurveTable} : Ensures (readAc L) ValidAc := by
  have hnode : Ensures (readNode maxAcTreeLevel) fun t => t.Forall BoundedNode ∧
      t.height < maxAcTreeLevel :=
    fun r t r' hr he => ⟨bounded_readNode _ r t r' hr he, ensures_readNode _ r t r' hr he⟩
  refine (ensures_readAc_of hnode).mono fun ac hac => hac.imp_right ?_
  rintro ⟨curve, root, rfl, hvalid, hbounded, hheight⟩
  refine ⟨curve, root, rfl, hvalid, ?_, hheight⟩
  refine convertible_of_wellFormed (validateTree_ok hvalid).1 (fun nm hnm => ?_) fun s hs =>
    (hbounded s hs).2
  obtain ⟨s, hs, rfl⟩ := List.mem_map.mp hnm
  exact (hbounded s hs).1

end Trees

section Containers

variable {α K V : Type}

theorem ensures_readVector {x : ReadM α} {P : α → Prop} (hx : Ensures x P) (hs : Sound x) :
    Ensures (readVector x) fun v => v.length ≤ maxContainerElements ∧ v.Forall P := by
  have hloop : ∀ count, Stable (ensure count >>= fun b => if b = true then
      ReadM.whileNoError x count else pure [] : ReadM (List α)) :=
    fun count => (stable_ensure count).bind fun _ => .ite (hs.stable.whileNoError count) (.pure [])
  refine (ensures_true _).bind (fun count _ =>
      ensures_isError.bind (fun e he => .ite (fun h => by simp [he] at h) fun _ =>
    .ite (fun _ => ensures_setError _ _ _) fun hcount => ?_) fun _ =>
      .ite (.pure []) (.ite (sound_setError .format []).stable (hloop count)))
    fun count => stable_isError.bind fun _ =>
      .ite (.pure []) (.ite (sound_setError .format []).stable (hloop count))
  refine (ensures_ensure count).bind (fun b hb => .ite (fun _ => ?_) fun h => absurd hb h) fun _ =>
    .ite (hs.stable.whileNoError count) (.pure [])
  exact (ensures_whileNoError hx hs.stable count).mono fun v hv => ⟨by omega, hv.2⟩

theorem ensures_readBoolVector : Ensures readBoolVector fun v => v.length ≤ shrtMax := by
  refine (ensures_true _).bind (fun count _ =>
      .ite (fun _ => ensures_setError _ _ _) fun hcount => ?_) fun count =>
    .ite (sound_setError .format []).stable (sound_readBool.stable.whileNoError _)
  refine (ensures_whileNoError (ensures_true readBool) sound_readBool.stable _).mono fun v hv => ?_
  have hlt : count.toInt < 2 ^ 15 := BitVec.toInt_lt
  rw [hv.1, shrtMax]
  omega

theorem emplace_ok {less : K → K → Bool} {key : K} {item : V} {es es' : List (K × V)}
    (h : emplace less key item es = some es') {P : K × V → Prop} (hP : P (key, item))
    (hes : es.Forall P) : es'.length = es.length + 1 ∧ es'.Forall P := by
  induction es generalizing es' with
  | nil =>
    cases h
    exact ⟨rfl, hP⟩
  | cons e es ih =>
    obtain ⟨he, hes⟩ := (List.forall_cons P e es).mp hes
    rw [emplace] at h
    split_ifs at h with h1 h2
    · cases h
      exact ⟨rfl, (List.forall_cons P _ _).mpr ⟨hP, (List.forall_cons P _ _).mpr ⟨he, hes⟩⟩⟩
    · obtain ⟨tail, htail, rfl⟩ := Option.map_eq_some_iff.mp h
      obtain ⟨hlen, htailP⟩ := ih htail hes
      exact ⟨by rw [List.length_cons, hlen, List.length_cons],
        (List.forall_cons P _ _).mpr ⟨he, htailP⟩⟩

theorem ensures_readEntries {less : K → K → Bool} {readKey : ReadM K} {readItem : ReadM V}
    {P : K → Prop} {Q : V → Prop} (hk : Ensures readKey P) (hi : Ensures readItem Q)
    (hsk : Sound readKey) (hsi : Sound readItem) (n : ℕ) {entries : List (K × V)}
    (hentries : entries.Forall fun e => P e.1 ∧ Q e.2) :
    Ensures (readEntries less readKey readItem n entries) fun v => v.length ≤ entries.length + n ∧
    v.Forall fun e => P e.1 ∧ Q e.2 := by
  induction n generalizing entries with
  | zero => exact .pure ⟨Nat.le_refl _, hentries⟩
  | succ n ih =>
    have hnext : ∀ es, Sound (readEntries less readKey readItem n es) := sound_readEntries hsk hsi n
    have hbody : ∀ key, Sound (if entries.all (fun e => less key e.1 || less e.1 key) = true then
        readItem >>= fun item =>
        readRest entries (readEntries less readKey readItem n
          ((emplace less key item entries).getD entries))
        else ReadM.setError .format >>= fun _ => pure entries) :=
      fun key => .ite (hsi.bind fun item => sound_readRest (hnext _))
        (sound_setError .format entries)
    refine ensures_isError.bind (fun e he => .ite (fun h => by simp [he] at h) fun _ => ?_) fun _ =>
      .ite (.pure entries) (hsk.bind fun key => sound_readRest (hbody key)).stable
    refine hk.bind (fun key hkey => ensures_readRest ?_ (hbody key).stable) fun key =>
      (sound_readRest (hbody key)).stable
    refine .ite (fun _ => ?_) fun _ => ensures_setError _ _ _
    refine hi.bind (fun item hitem => ensures_readRest ?_ (hnext _).stable) fun item =>
      (sound_readRest (hnext _)).stable
    cases hemp : emplace less key item entries with
    | none => exact (ih hentries).mono fun v hv => ⟨hv.1.trans (Nat.le_succ _), hv.2⟩
    | some es =>
      obtain ⟨hlen, hes⟩ := emplace_ok hemp (P := fun e => P e.1 ∧ Q e.2) ⟨hkey, hitem⟩ hentries
      exact (ih hes).mono fun v hv => ⟨by omega, hv.2⟩

theorem ensures_readMap {less : K → K → Bool} {readKey : ReadM K} {readItem : ReadM V}
    {P : K → Prop} {Q : V → Prop} (hk : Ensures readKey P) (hi : Ensures readItem Q)
    (hsk : Sound readKey) (hsi : Sound readItem) :
    Ensures (readMap less readKey readItem) fun v => v.length ≤ maxContainerElements ∧
    v.Forall fun e => P e.1 ∧ Q e.2 := by
  refine (ensures_true _).bind (fun count _ =>
      .ite (fun _ => ensures_setError _ _ _) fun hcount => ?_) fun count =>
    .ite (sound_setError .format []).stable (sound_readEntries hsk hsi count []).stable
  refine (@ensures_readEntries K V less readKey readItem P Q hk hi hsk hsi count [] trivial).mono
    fun v hv => ⟨?_, hv.2⟩
  rw [List.length_nil] at hv
  omega

end Containers

section Language

variable {L : CurveTable} (order : KeyOrder L)

/-- Nothing is cut when a value that was read is written again. -/
theorem ensures_read (t : Ty) : Ensures (read order t) (Whole t) := by
  have hmax : maxContainerElements = 1048576 := rfl
  induction t with
  | bool | uint | int | string | buf | bits | bn | mod => exact ensures_true _
  | fixed n => exact ensures_readFixed n
  | curve => exact ensures_readCurve L
  | point =>
    refine (ensures_readPoint L).mono ?_
    rintro _ ⟨c, bytes, P, -, -, rfl⟩
    rfl
  | ac => exact ensures_readAc_valid
  | array n t ih => exact ensures_forAll ih (sound_read order t).stable n
  | vector t ih =>
    exact (ensures_readVector ih (sound_read order t)).mono fun v hv => ⟨by omega, hv.2⟩
  | boolVector =>
    exact ensures_readBoolVector.mono fun v hv =>
      ⟨by rw [shrtMax] at hv; omega, fun h => absurd hv (not_le.mpr h)⟩
  | map k i ihk ihi =>
    exact (ensures_readMap ihk ihi (sound_read order k) (sound_read order i)).mono fun v hv =>
      ⟨by omega, hv.2⟩
  | pair a b iha ihb =>
    have hb := sound_read order b
    refine iha.bind (fun v hv =>
      (ensures_readRest ihb hb.stable).bind (fun w hw => .pure ⟨hv, hw⟩) fun _ => .pure _)
      fun v => ((sound_readRest hb).bind fun _ => .pure _).stable
  | fields a b iha ihb =>
    exact iha.bind (fun v hv => ihb.bind (fun w hw => .pure ⟨hv, hw⟩) fun _ => .pure _)
      fun v => ((sound_read order b).bind fun _ => .pure _).stable

end Language

end CbMpc
