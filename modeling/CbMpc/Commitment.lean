import CbMpc.HashInput
import CbMpc.Messages
import CbMpc.Received

/-!
# What a commitment binds

`commitment_t` feeds its arguments to HMAC under the key `rand`, and behind them the session and the
identities. A peer sends the arguments through the converter, which keeps the sign of a number and
the curve of a point. What is hashed keeps neither.
-/
namespace CbMpc

open ReadM WriteM

section Readers

variable {L : CurveTable} (order : KeyOrder L)

/-- `convert` of an argument in the reading mode. -/
def readArg : (t : ArgTy) → ReadM (t.Val L)
  | .one t _ => read order t
  | .elgCom => do
    let left ← readPoint L
    let right ← readPoint L
    return (left, right)
  | .vector (.one .bool _) => readBoolVector
  | .vector t => readVector (readArg t)

/-- A value that some message contains. -/
def Received (t : ArgTy) (v : t.Val L) : Prop :=
  ∃ r r', readArg order t r = .ok (v, r') ∧ r'.error = none

def ReceivedArgs : (ts : List ArgTy) → Args L ts → Prop
  | [], _ => True
  | t :: ts, v => Received order t v.1 ∧ ReceivedArgs ts v.2

theorem sound_readArg (t : ArgTy) : Sound (readArg order t) := by
  induction t with
  | one t ht => exact sound_read order t
  | elgCom => exact (sound_readPoint L).bind fun _ => (sound_readPoint L).bind fun _ => .pure _
  | vector t ih =>
    cases t with
    | one t ht =>
      cases t with
      | bool => exact sound_readBoolVector
      | uint | int | string | buf | bits | fixed | bn | mod | curve | point | ac | array | vector
      | boolVector | map | pair
        | fields => exact sound_readVector ih
    | elgCom => exact sound_readVector ih
    | vector t => exact sound_readVector ih

theorem ensures_readOne (t : Ty) : Ensures (read order t) (WholeOne (fun _ => True) t) := by
  have hconv : maxConvertLen = 67108864 := rfl
  have hbn : maxSerializedBignumBytes = 1048576 := rfl
  have hint : intMax = 2147483647 := rfl
  cases t with
  | string => exact ensures_readString.mono fun v hv => lt_of_le_of_lt hv (by decide)
  | buf => exact ensures_readBuf.mono fun v hv => (hv.trans (by omega) : v.length ≤ intMax)
  | bn => exact ensures_readBn.mono fun v hv => (hv.trans (by omega) : getBinSize v ≤ intMax)
  | mod => exact ensures_readMod.mono fun v hv => (hv.2.trans (by omega) : getBinSize v ≤ intMax)
  | point =>
    refine (ensures_readPoint L).mono ?_
    rintro _ ⟨c, bytes, P, -, -, rfl⟩
    exact ⟨c, P, trivial, rfl⟩
  | bool | uint | int | bits | fixed | curve | ac | array | vector | boolVector | map | pair
  | fields => exact ensures_read order _

theorem ensures_readArg (t : ArgTy) : Ensures (readArg order t) (WholeArg (fun _ => True) t) := by
  have hmax : maxContainerElements = 1048576 := rfl
  induction t with
  | one t ht => exact ensures_readOne order t
  | elgCom =>
    have hpoint : Ensures (readPoint L) fun v => v.isSome = true := (ensures_readPoint L).mono (by
      rintro _ ⟨c, bytes, P, -, -, rfl⟩
      rfl)
    exact hpoint.bind (fun v hv => hpoint.bind (fun w hw => .pure ⟨hv, hw⟩) fun _ => .pure _)
      fun v => ((sound_readPoint L).bind fun _ => .pure _).stable
  | vector t ih =>
    have hvector : Ensures (readVector (readArg order t)) (WholeArg (fun _ => True) (.vector t)) :=
      (ensures_readVector ih (sound_readArg order t)).mono fun v hv => ⟨by omega, hv.2⟩
    cases t with
    | one t ht =>
      cases t with
      | bool =>
        refine ensures_readBoolVector.mono fun v hv => ⟨lt_of_le_of_lt hv (by decide), ?_⟩
        exact List.forall_iff_forall_mem.mpr fun _ _ => trivial
      | uint | int | string | buf | bits | fixed | bn | mod | curve | point | ac | array | vector
      | boolVector | map | pair
        | fields => exact hvector
    | elgCom => exact hvector
    | vector t => exact hvector

theorem wholeArgs_of_received {ts : List ArgTy} {v : Args L ts} (h : ReceivedArgs order ts v) :
    WholeArgs (fun _ => True) ts v := by
  induction ts with
  | nil => trivial
  | cons t ts ih =>
    obtain ⟨⟨r, r', hr, he⟩, hlast⟩ := h
    exact ⟨ensures_readArg order t r v.1 r' hr he, ih hlast⟩

end Readers

section Alike

variable {L : CurveTable} {S : L.Curve → Prop} {garbage garbage' : ℕ → Octet}

theorem encodeOne_of_alike {t : Ty} {v w : t.Val L} (hv : WholeOne S t v)
    (h : AlikeOne t v w) {s : List Octet} (hs : encodeOne garbage t v = .ok s) :
    encodeOne garbage' t w = .ok s := by
  have hconvert : ∀ {t : Ty} {v : t.Val L} {s}, Whole t v → ser garbage (write t v) = .ok s →
      ser garbage' (write t v) = .ok s :=
    fun hv hs => ser_independent hv hs
  cases t with
  | bn | mod =>
    have hnat : Int.natAbs v = Int.natAbs w := h
    have hsize : getBinSize v = getBinSize w := congrArg (fun n : ℕ => bitsToBytes n.size) hnat
    simp only [encodeOne, binSizeOne, updateOne, hnat, hsize] at hs ⊢
    exact hs
  | point =>
    have hbytes : pointBytes v = pointBytes w := h
    simp only [encodeOne, binSizeOne, updateOne, hbytes] at hs ⊢
    exact hs
  | bool | uint | int | string | buf | bits | fixed =>
    cases h
    exact hs
  | array n t =>
    cases h
    obtain ⟨x, hx, hs⟩ := bind_ok_iff.mp hs
    exact bind_ok_iff.mpr ⟨x, hconvert hv hx, hs⟩
  | curve | ac | vector | boolVector | map | pair | fields =>
    cases h
    obtain ⟨n, hn, hs⟩ := bind_ok_iff.mp hs
    obtain ⟨x, hx, hs⟩ := bind_ok_iff.mp hs
    exact bind_ok_iff.mpr ⟨n, hn, bind_ok_iff.mpr ⟨x, hconvert hv hx, hs⟩⟩

theorem forall₂_of_alike {α β : Type} {E : α → α → Prop} {P : α → Prop} {f g : α → β → Prop}
    {l l' : List α} {bs : List β} (h : ∀ a a' b, P a → P a' → E a a' → f a b → g a' b)
    (hl : l.Forall P) (hl' : l'.Forall P) (hE : List.Forall₂ E l l') (hf : List.Forall₂ f l bs) :
    List.Forall₂ g l' bs := by
  induction hE generalizing bs with
  | nil =>
    cases hf
    exact .nil
  | cons hab hE ih =>
    cases hf with
    | cons hb hf =>
      obtain ⟨ha, hl⟩ := List.forall_cons .. |>.mp hl
      obtain ⟨ha', hl'⟩ := List.forall_cons .. |>.mp hl'
      exact .cons (h _ _ _ ha ha' hab hb) (ih hl hl' hf)

/-- The size of a commitment is that of its points and their codes. -/
theorem binSize_elgCom_eq {v : ArgTy.elgCom.Val L} (hv : WholeArg S .elgCom v) {s : List Octet}
    (hs : comBytes v = .ok s) (hlen : 4 + s.length ≤ intMax) :
    binSize .elgCom v = .ok (BitVec.ofNat _ (4 + s.length)) := by
  have hwrites :=
    (writesWhen_write (L := L) (t := .fields .point .point) (v := v) ⟨hv.1, hv.2⟩).writes
      ⟨trivial, trivial⟩
  have hword := length_word_elgCom hv hs
  have hcount : ArgTy.write .elgCom v ⟨none, 0, none⟩ =
      put (word (.fields .point .point) v) ⟨none, 0, none⟩ :=
    hwrites ⟨none, 0, none⟩ rfl (Nat.zero_le _)
  rw [binSize, convertSize, hcount, put_apply, if_pos (by simpa [hword] using hlen), ok_bind, hword,
    Nat.zero_add]

/-- Arguments that are alike are encoded to the same bytes. -/
theorem encodeAndUpdate_of_alike {t : ArgTy} {v w : t.Val L} (hv : WholeArg S t v)
    (hw : WholeArg S t w) (h : Alike t v w) {s : List Octet}
    (hs : encodeAndUpdate garbage t v = .ok s) : encodeAndUpdate garbage' t w = .ok s := by
  induction t generalizing s with
  | one t ht => exact encodeOne_of_alike hv h hs
  | elgCom =>
    obtain ⟨n, hn, hs⟩ := bind_ok_iff.mp hs
    obtain ⟨x, hx, hs⟩ := bind_ok_iff.mp hs
    obtain ⟨rfl, hlen⟩ := binSize_elgCom hv hn hx
    have hw' : comBytes w = .ok x := h.symm.trans hx
    exact bind_ok_iff.mpr ⟨_, binSize_elgCom_eq hw hw' hlen, bind_ok_iff.mpr ⟨x, hw', hs⟩⟩
  | vector t ih =>
    obtain ⟨hlen, hs⟩ := cbAssert_bind_ok_iff.mp hs
    obtain ⟨parts, hparts, hs⟩ := bind_ok_iff.mp hs
    have hcount : List.length v = List.length w := List.Forall₂.length_eq h
    rw [hcount] at hlen hs
    refine cbAssert_bind_ok_iff.mpr ⟨hlen, bind_ok_iff.mpr ⟨parts, mapM_ok_iff.mpr ?_, hs⟩⟩
    exact forall₂_of_alike (fun a a' b ha ha' hab hb => ih ha ha' hab hb) hv.2 hw.2
      h (mapM_ok_iff.mp hparts)

theorem encodeAll_of_alike {ts : List ArgTy} {v w : Args L ts}
    (hv : WholeArgs S ts v) (hw : WholeArgs S ts w) (h : AlikeArgs ts v w) {s : List Octet}
    (hs : encodeAll garbage ts v = .ok s) : encodeAll garbage' ts w = .ok s := by
  induction ts generalizing s with
  | nil => exact hs
  | cons t ts ih =>
    obtain ⟨x, hx, hs⟩ := bind_ok_iff.mp hs
    obtain ⟨y, hy, hs⟩ := bind_ok_iff.mp hs
    exact bind_ok_iff.mpr ⟨x, encodeAndUpdate_of_alike hv.1 hw.1 h.1 hx,
      bind_ok_iff.mpr ⟨y, ih hv.2 hw.2 h.2 hy, hs⟩⟩

end Alike

section Opening

variable {L : CurveTable} {D R : Type} [DecidableEq D]
  (hmac : R → List Octet → D) (garbage : ℕ → Octet)

/-- What the constructors and `id` set. An external session is absent when it is empty. -/
structure ComId where
  sid : List Octet
  pid : ℤ
  receiverPid : ℤ

/-- `update` of an identity that was given. -/
def pidBytes (pid : ℤ) : List Octet := if 0 < pid then binPad (getBinSize pid) pid.natAbs else []

/-- What follows the arguments. -/
def ComId.suffix (id : ComId) (localSid : List Octet) : List Octet :=
  (if id.sid.isEmpty then localSid else id.sid) ++ pidBytes id.pid ++ pidBytes id.receiverPid

/-- `final`, whose digest is followed by a local session. -/
def comFinal (id : ComId) (rand : R) (fed localSid : List Octet) : Outcome (ComBuf D) := do
  if id.sid.isEmpty then
    cbAssert (!localSid.isEmpty)
    cbAssert (decide (0 < id.pid))
    .ok (.hashSid (hmac rand (fed ++ id.suffix localSid)) localSid)
  else
    .ok (.hash (hmac rand (fed ++ id.suffix localSid)))

/-- `gen_with_set_rand`, where the local session was drawn before. -/
def commit (id : ComId) (rand : R) (localSid : List Octet) (ts : List ArgTy) (args : Args L ts) :
    Outcome (ComBuf D) := do
  let fed ← encodeAll garbage ts args
  comFinal hmac id rand fed localSid

/-- The local session that `open` takes from a message of the right size. -/
def sessionOf (id : ComId) (msg : ComBuf D) : Outcome (List Octet) :=
  match id.sid.isEmpty, msg with
  | true, .hashSid _ localSid => .ok localSid
  | false, .hash _ => .ok []
  | _, _ => fail .format

/-- `open`. -/
def openCom (id : ComId) (rand : R) (msg : ComBuf D) (ts : List ArgTy)
    (args : Args L ts) : Outcome Unit := do
  let fed ← encodeAll garbage ts args
  let localSid ← sessionOf id msg
  let m ← comFinal hmac id rand fed localSid
  require (decide (m = msg)) .crypto

variable {hmac garbage}

theorem openCom_ok_iff {id : ComId} {rand : R} {msg : ComBuf D}
    {ts : List ArgTy} {args : Args L ts} :
    openCom hmac garbage id rand msg ts args = .ok () ↔ ∃ fed localSid,
      encodeAll garbage ts args = .ok fed ∧
      sessionOf id msg = .ok localSid ∧ comFinal hmac id rand fed localSid = .ok msg := by
  constructor
  · intro h
    obtain ⟨fed, hfed, h⟩ := bind_ok_iff.mp h
    obtain ⟨localSid, hsession, h⟩ := bind_ok_iff.mp h
    obtain ⟨m, hm, h⟩ := bind_ok_iff.mp h
    obtain rfl : m = msg := of_decide_eq_true ((require_ok_iff _ _).mp h)
    exact ⟨fed, localSid, hfed, hsession, hm⟩
  · rintro ⟨fed, localSid, hfed, hsession, hm⟩
    refine bind_ok_iff.mpr ⟨fed, hfed,
      bind_ok_iff.mpr ⟨localSid, hsession, bind_ok_iff.mpr ⟨msg, hm, ?_⟩⟩⟩
    exact (require_ok_iff _ _).mpr (decide_eq_true rfl)

omit [DecidableEq D] in
theorem comFinal_eq_hash {id : ComId} {rand : R} {fed localSid : List Octet} {msg : ComBuf D}
    (h : comFinal hmac id rand fed localSid = .ok msg) :
    msg = (if id.sid.isEmpty then .hashSid (hmac rand (fed ++ id.suffix localSid)) localSid
      else .hash (hmac rand (fed ++ id.suffix localSid))) := by
  unfold comFinal at h
  split_ifs at h ⊢ with hsid
  · obtain ⟨-, h⟩ := cbAssert_bind_ok_iff.mp h
    obtain ⟨-, h⟩ := cbAssert_bind_ok_iff.mp h
    exact (Except.ok.inj h).symm
  · exact (Except.ok.inj h).symm

/-- What was committed to opens the commitment. -/
theorem openCom_commit {id : ComId} {rand : R} {localSid : List Octet} {ts : List ArgTy}
    {args : Args L ts} {msg : ComBuf D}
    (h : commit hmac garbage id rand localSid ts args = .ok msg) :
    openCom hmac garbage id rand msg ts args = .ok () := by
  obtain ⟨fed, hfed, h⟩ := bind_ok_iff.mp h
  have hmsg := comFinal_eq_hash h
  rw [openCom_ok_iff]
  cases hsid : id.sid.isEmpty with
  | true =>
    rw [hsid, if_pos rfl] at hmsg
    subst hmsg
    have hsession : sessionOf id (.hashSid (hmac rand (fed ++ id.suffix localSid)) localSid) =
        .ok localSid := by
      simp only [sessionOf, hsid]
    exact ⟨fed, localSid, hfed, hsession, h⟩
  | false =>
    rw [hsid, if_neg Bool.false_ne_true] at hmsg
    subst hmsg
    have hsession : sessionOf id (.hash (hmac rand (fed ++ id.suffix localSid))) = .ok [] := by
      simp only [sessionOf, hsid]
    refine ⟨fed, [], hfed, hsession, ?_⟩
    simp only [comFinal, hsid, ComId.suffix, Bool.false_eq_true, if_false]

omit [DecidableEq D] in
/-- One message under one key and identity is the digest of one feed. -/
theorem comFinal_injective (hhmac : ∀ r r' a b, hmac r a = hmac r' b → r = r' ∧ a = b)
    {id : ComId} {rand : R} {fed fed' localSid : List Octet} {msg : ComBuf D}
    (h : comFinal hmac id rand fed localSid = .ok msg)
    (h' : comFinal hmac id rand fed' localSid = .ok msg) : fed = fed' := by
  have heq := (comFinal_eq_hash h).symm.trans (comFinal_eq_hash h')
  have hdigest : hmac rand (fed ++ id.suffix localSid) =
      hmac rand (fed' ++ id.suffix localSid) := by
    split_ifs at heq
    · exact (ComBuf.hashSid.inj heq).1
    · exact ComBuf.hash.inj heq
  exact List.append_cancel_right (hhmac rand rand _ _ hdigest).2

/-- A message that opens to arguments that a peer can send opens to others, under the same key and
identity, exactly when they differ in the signs of numbers or the curves of points that are hashed
directly. -/
theorem commitment_open_binding (hL : ∀ c, Function.Injective (L.toBin c))
    (hsize : ∀ c, L.pointSize c ≤ intMax)
    (hhmac : ∀ r r' a b, hmac r a = hmac r' b → r = r' ∧ a = b) (order : KeyOrder L)
    (garbage garbage' : ℕ → Octet) (id : ComId) (rand : R) (msg : ComBuf D) (ts : List ArgTy)
    (args args' : Args L ts) (hargs : ReceivedArgs order ts args)
    (hargs' : ReceivedArgs order ts args')
    (hopen : openCom hmac garbage id rand msg ts args = .ok ()) :
    (openCom hmac garbage' id rand msg ts args' = .ok () ↔ AlikeArgs ts args args') ∧
      ((openCom hmac garbage' id rand msg ts args' = .ok () → args = args') ↔
        (AlikeArgs ts args args' → args = args')) := by
  have hS : SizesDiffer (L := L) fun _ => True := fun c d _ _ h =>
    size_inj (lt_of_le_intMax (hsize c)) (lt_of_le_intMax (hsize d)) h
  have hw := wholeArgs_of_received order hargs
  have hw' := wholeArgs_of_received order hargs'
  have hiff : openCom hmac garbage' id rand msg ts args' = .ok () ↔ AlikeArgs ts args args' := by
    obtain ⟨fed, localSid, hfed, hsession, hm⟩ := openCom_ok_iff.mp hopen
    constructor
    · intro h
      obtain ⟨fed', localSid', hfed', hsession', hm'⟩ := openCom_ok_iff.mp h
      obtain rfl : localSid = localSid' := Except.ok.inj (hsession.symm.trans hsession')
      obtain rfl : fed = fed' := comFinal_injective hhmac hm hm'
      exact (alikeArgs_of_encodeAll hL hS hw hw' hfed hfed' (rfl : fed ++ [] = fed ++ [])).1
    · intro h
      exact openCom_ok_iff.mpr ⟨fed, localSid, encodeAll_of_alike hw hw' h hfed, hsession, hm⟩
  exact ⟨hiff, by rw [hiff]⟩

end Opening

section Examples

/-- The number that the first party of a refresh commits to. -/
def rho : List ArgTy := [.one .bn (by simp)]

def rhoArgs (v : ℤ) : Args sampleCurves rho := (v, ())

/-- A keyed hash that keeps its inputs. -/
def transcript (rand : ℕ) (bytes : List Octet) : ℕ × List Octet := (rand, bytes)

def firstParty : ComId := ⟨[], 11, 0⟩

def localSession : List Octet := List.replicate 16 200

def rhoMessage : ComBuf (ℕ × List Octet) :=
  .hashSid (9, [0, 0, 0, 1, 5] ++ localSession ++ [11]) localSession

theorem received_rho {v : ℤ} (h : getBinSize v ≤ maxSerializedBignumBytes)
    (hlen : (encBn v).length ≤ intMax) :
    ReceivedArgs sampleOrder rho (rhoArgs v) := by
  have hread := decodes_readBn h (encBn v) 0 [] hlen (Nat.zero_le _)
    (by rw [List.drop_zero, List.append_nil])
  exact ⟨⟨_, _, hread, rfl⟩, trivial⟩

/-- A commitment to 5 opens to -5. -/
theorem commitment_opens_twice :
    commit transcript (fun _ => 0) firstParty 9 localSession rho (rhoArgs 5) = .ok rhoMessage ∧
      openCom transcript (fun _ => 0) firstParty 9 rhoMessage rho (rhoArgs 5) = .ok () ∧
      openCom transcript (fun _ => 0) firstParty 9 rhoMessage rho (rhoArgs (-5)) = .ok () ∧
      ReceivedArgs sampleOrder rho (rhoArgs 5) ∧ ReceivedArgs sampleOrder rho (rhoArgs (-5)) ∧
      rhoArgs 5 ≠ rhoArgs (-5) := by
  have hcom : commit transcript (fun _ => 0) firstParty 9 localSession rho (rhoArgs 5) =
    .ok rhoMessage := rfl
  refine ⟨hcom, openCom_commit hcom, rfl, received_rho (by decide) (by decide),
    received_rho (by decide) (by decide), fun h => ?_⟩
  have hnum : (5 : ℤ) = -5 := congrArg Prod.fst h
  exact absurd hnum (by decide)

theorem commitment_open_binding_sample :
    (openCom transcript (fun _ => 0) firstParty 9 rhoMessage rho (rhoArgs 6) = .ok () ↔
      AlikeArgs rho (rhoArgs 5) (rhoArgs 6)) ∧
      ((openCom transcript (fun _ => 0) firstParty 9 rhoMessage rho (rhoArgs 6) = .ok () →
        rhoArgs 5 = rhoArgs 6) ↔
        (AlikeArgs rho (rhoArgs 5) (rhoArgs 6) → rhoArgs 5 = rhoArgs 6)) :=
  commitment_open_binding (fun _ _ _ _ => rfl) (fun _ => (by decide : 33 ≤ intMax))
    (fun _ _ _ _ h => Prod.mk.inj h) sampleOrder (fun _ => 0)
    (fun _ => 0) firstParty 9 rhoMessage rho (rhoArgs 5) (rhoArgs 6)
      (received_rho (by decide) (by decide))
    (received_rho (by decide) (by decide)) rfl

end Examples

end CbMpc
