import CbMpc.GroupMessage
import CbMpc.OtMultiply

/-!
# Bundled group messages

The overload of `group_message` for several messages, each with its own sets, frames the packed
parts for one pair of parties as one message. The signing protocol uses it for a broadcast next
to messages between the two roles of oblivious transfer, where each party computes the senders
as the complement of its receivers.
-/
namespace CbMpc

open Exchange (Net)
open ReadM WriteM

/-- The messages of one call. -/
inductive BundleKind where
  | one (k : MsgKind)
  | more (k : MsgKind) (rest : BundleKind)

/-- A message with its receivers and senders. -/
structure MsgCtx (L : CurveTable) (n : ℕ) (k : MsgKind) where
  toSet : PartySet
  fromSet : PartySet
  msg : k.Msg L n

namespace BundleKind

def Ctx (L : CurveTable) (n : ℕ) : BundleKind → Type
  | one k => MsgCtx L n k
  | more k rest => MsgCtx L n k × rest.Ctx L n

/-- The messages after a call. -/
def Msgs (L : CurveTable) (n : ℕ) : BundleKind → Type
  | one k => k.Msg L n
  | more k rest => k.Msg L n × rest.Msgs L n

/-- A tuple of vectors of packed messages. -/
def Packed (n : ℕ) : BundleKind → Type
  | one _ => Fin n → List Octet
  | more _ rest => (Fin n → List Octet) × rest.Packed n

/-- The packed messages for one party. -/
def ty : BundleKind → Ty
  | one _ => .buf
  | more _ rest => .pair .buf rest.ty

end BundleKind

section Bundles

variable {L : CurveTable} {n : ℕ}

def packBundle (garbage : ℕ → Octet) : (b : BundleKind) → b.Ctx L n → Outcome (b.Packed n)
  | .one k, c => packMsgs garbage (MsgCtx.toSet c) k (MsgCtx.msg c)
  | .more k rest, c => do
    let bufs ← packMsgs garbage (MsgCtx.toSet c.1) k (MsgCtx.msg c.1)
    let packed ← packBundle garbage rest c.2
    .ok (bufs, packed)

def atIndex : (b : BundleKind) → b.Packed n → Fin n → b.ty.Val L
  | .one _, packed, i => packed i
  | .more _ rest, packed, i => (packed.1 i, atIndex rest packed.2 i)

def setIndex : (b : BundleKind) → b.Packed n → Fin n → b.ty.Val L → b.Packed n
  | .one _, packed, i, v => Function.update packed i v
  | .more _ rest, packed, i, v => (Function.update packed.1 i v.1, setIndex rest packed.2 i v.2)

/-- `combine_packed_msgs`. -/
def combinePackedMsgs (L : CurveTable) (garbage : ℕ → Octet)
    (b : BundleKind) (packed : b.Packed n) :
    Outcome (Fin n → List Octet) :=
  (List.finRange n).foldlM (fun result i => do
    let buf ← ser garbage (@write L b.ty (atIndex b packed i))
    .ok (Function.update result i buf)) fun _ => []

/-- `split_packed_msgs`. -/
def splitPackedMsgs (order : KeyOrder L) (b : BundleKind)
    (bufs : Fin n → List Octet) (packed : b.Packed n) :
    Outcome (b.Packed n) :=
  (List.finRange n).foldlM (fun packed i => do
    let v ← deser (read order b.ty) (bufs i)
    .ok (setIndex b packed i v)) packed

def unpackBundle (order : KeyOrder L) (self : Fin n) :
    (b : BundleKind) → b.Ctx L n → b.Packed n → Outcome (b.Msgs L n)
  | .one k, c, packed => unpackMsgs order self (MsgCtx.fromSet c) packed k (MsgCtx.msg c)
  | .more k rest, c, packed => do
    let m ← unpackMsgs order self (MsgCtx.fromSet c.1) packed.1 k (MsgCtx.msg c.1)
    let ms ← unpackBundle order self rest c.2 packed.2
    .ok (m, ms)

/-- `group_message` with several messages. -/
def groupMessages (order : KeyOrder L) (garbage : ℕ → Octet) (self : Fin n)
    (b : BundleKind) (c : b.Ctx L n) :
    Outcome (Pending n (b.Msgs L n)) := do
  let packed ← packBundle garbage b c
  let bufs ← combinePackedMsgs L garbage b packed
  .ok {
    sends := sendToParties self .all bufs
    awaits := peerRoles self .all
    finish := fun outs => do
      let packed ← splitPackedMsgs order b (storeReceived self .all outs bufs) packed
      unpackBundle order self b c packed }

/-- The sets of the parties fit together, message by message. -/
def BundleMatches : (b : BundleKind) → (Fin n → b.Ctx L n) → Prop
  | .one _, c => SetsMatch (fun i => MsgCtx.toSet (c i)) fun i => MsgCtx.fromSet (c i)
  | .more _ rest, c => SetsMatch (fun i => MsgCtx.toSet (c i).1) (fun i => MsgCtx.fromSet (c i).1) ∧
      BundleMatches rest fun i => (c i).2

/-- The contents can be delivered, and no packed message is too long for the frame around it. -/
structure PartDeliverable (order : KeyOrder L) (garbage : ℕ → Octet) (i : Fin n) {k : MsgKind}
    (c : MsgCtx L n k) : Prop where
  contents : Deliverable order garbage i c.toSet k c.msg
  frame : ∀ (j : Fin n) buf, c.toSet.has j = true → ser garbage (pack k c.msg j) = .ok buf →
    buf.length ≤ maxConvertLen

def PartsDeliverable (order : KeyOrder L) (garbage : ℕ → Octet) (i : Fin n) :
    (b : BundleKind) → b.Ctx L n → Prop
  | .one _, c => PartDeliverable order garbage i c
  | .more _ rest, c =>
    PartDeliverable order garbage i c.1 ∧ PartsDeliverable order garbage i rest c.2

/-- The same, and the framed messages are not too long. -/
structure BundleDeliverable (order : KeyOrder L) (garbage : ℕ → Octet) (i : Fin n) (b : BundleKind)
    (c : b.Ctx L n) : Prop where
  parts : PartsDeliverable order garbage i b c
  total : ∀ packed, packBundle garbage b c = .ok packed → ∀ j,
    (enc b.ty (@atIndex L n b packed j)).length ≤ intMax

/-- What the call leaves at a party, message by message. -/
def BundleDelivered (i : Fin n) : (b : BundleKind) → (Fin n → b.Ctx L n) → b.Msgs L n → Prop
  | .one k, before, after =>
    GroupDelivered i (MsgCtx.fromSet (before i)) k (fun j => MsgCtx.msg (before j)) after
  | .more k rest, before, after =>
    GroupDelivered i (MsgCtx.fromSet (before i).1) k (fun j => MsgCtx.msg (before j).1) after.1 ∧
      BundleDelivered i rest (fun j => (before j).2) after.2

/-- What packing leaves for the others, and that it fits into a frame. -/
structure PartPacked (order : KeyOrder L) (i : Fin n) {k : MsgKind} (c : MsgCtx L n k)
    (bufs : Fin n → List Octet) : Prop where
  other : ∀ j : Fin n, j ≠ i → c.toSet.has j = true → bufs j = enc k.ty (content k c.msg j) ∧
    Fits order k.ty (content k c.msg j) ∧ (enc k.ty (content k c.msg j)).length ≤ intMax
  frame : ∀ j, (bufs j).length ≤ maxConvertLen

def PackedFor (order : KeyOrder L) (i : Fin n) : (b : BundleKind) → b.Ctx L n → b.Packed n → Prop
  | .one _, c, packed => PartPacked order i c packed
  | .more _ rest, c, packed => PartPacked order i c.1 packed.1 ∧ PackedFor order i rest c.2 packed.2

variable {order : KeyOrder L} {garbage : ℕ → Octet}

theorem packMsgs_packed {i : Fin n} {k : MsgKind} {c : MsgCtx L n k}
    (h : PartDeliverable order garbage i c) :
    ∃ bufs, packMsgs garbage c.toSet k c.msg = .ok bufs ∧ PartPacked order i c bufs := by
  obtain ⟨bufs, hbufs, hother, hall, hnone⟩ := packMsgs_ok h.contents
  refine ⟨bufs, hbufs, fun j hj hset => ⟨hother j hj hset, h.contents.other j hj hset⟩, fun j => ?_⟩
  cases hset : c.toSet.has j with
  | true => exact h.frame j _ hset (hall j hset)
  | false =>
    rw [hnone j hset]
    exact Nat.zero_le _

theorem packBundle_ok {i : Fin n} {b : BundleKind} {c : b.Ctx L n}
    (h : PartsDeliverable order garbage i b c) :
    ∃ packed, packBundle garbage b c = .ok packed ∧ PackedFor order i b c packed := by
  induction b with
  | one k => exact packMsgs_packed h
  | more k rest ih =>
    obtain ⟨bufs, hbufs, hfirst⟩ := packMsgs_packed h.1
    obtain ⟨packed, hpacked, hrest⟩ := ih h.2
    refine ⟨(bufs, packed), ?_, hfirst, hrest⟩
    rw [packBundle, hbufs, ok_bind, hpacked]
    rfl

theorem fits_atIndex {i : Fin n} {b : BundleKind} {c : b.Ctx L n} {packed : b.Packed n}
    (h : PackedFor order i b c packed) (j : Fin n) :
    Fits order b.ty (atIndex b packed j) := by
  induction b with
  | one k => exact PartPacked.frame h j
  | more k rest ih => exact ⟨h.1.frame j, ih h.2⟩

theorem combinePackedMsgs_ok {b : BundleKind} {packed : b.Packed n}
    (hfits : ∀ i, Fits order b.ty (atIndex b packed i))
    (hlen : ∀ i, (enc b.ty (@atIndex L n b packed i)).length ≤ intMax) :
    combinePackedMsgs L garbage b packed = .ok fun i => enc b.ty (@atIndex L n b packed i) := by
  have hser : ∀ i, ser garbage (@write L b.ty (atIndex b packed i)) =
      .ok (enc b.ty (@atIndex L n b packed i)) := fun i => by
    rw [ser_eq (writes_write (hfits i)), if_pos (hlen i)]
  have htable := foldlM_table (c := fun _ => true) (fun i _ => hser i) (List.finRange n) fun _ => []
  simp only [if_true, List.mem_finRange, and_self] at htable
  exact htable

theorem atIndex_setIndex {b : BundleKind} (packed : b.Packed n) (i j : Fin n) (v : b.ty.Val L) :
    atIndex b (setIndex b packed i v) j = if j = i then v else atIndex b packed j := by
  induction b with
  | one k => exact Function.update_apply packed i v j
  | more k rest ih =>
    have hfirst := Function.update_apply packed.1 i v.1 j
    have hrest := ih packed.2 v.2
    by_cases hj : j = i
    · exact (Prod.ext (hfirst.trans (if_pos hj)) (hrest.trans (if_pos hj))).trans (if_pos hj).symm
    · exact (Prod.ext (hfirst.trans (if_neg hj)) (hrest.trans (if_neg hj))).trans (if_neg hj).symm

/-- The vectors are split again into what was framed for each party. -/
theorem splitPackedMsgs_ok {b : BundleKind} {bufs : Fin n → List Octet} {v : Fin n → b.ty.Val L}
    (h : ∀ i, bufs i = enc b.ty (v i) ∧ Fits order b.ty (v i) ∧ (enc b.ty (v i)).length ≤ intMax)
    (packed : b.Packed n) :
    ∃ packed', splitPackedMsgs order b bufs packed = .ok packed' ∧ ∀ i,
      atIndex b packed' i = v i := by
  have hloop : ∀ (l : List (Fin n)) (packed : b.Packed n), ∃ packed', l.foldlM (fun packed i => do
      let v ← deser (read order b.ty) (bufs i)
      (.ok (setIndex b packed i v) : Outcome (b.Packed n))) packed = .ok packed' ∧
        ∀ i, atIndex b packed' i = if i ∈ l then v i else atIndex b packed i := by
    intro l
    induction l with
    | nil => exact fun packed => ⟨packed, rfl, fun i => (if_neg (by simp)).symm⟩
    | cons j l ih =>
      intro packed
      obtain ⟨hbuf, hfits, hlen⟩ := h j
      obtain ⟨packed', hpacked, hat⟩ := ih (setIndex b packed j (v j))
      refine ⟨packed', ?_, fun i => ?_⟩
      · rw [List.foldlM_cons, hbuf, deser_eq (decodes_read hfits) hlen]
        exact hpacked
      · rw [hat, atIndex_setIndex]
        by_cases hi : i = j
        · subst hi
          simp
        · simp [hi]
  obtain ⟨packed', hpacked, hat⟩ := hloop (List.finRange n) packed
  exact ⟨packed', hpacked, fun i => (hat i).trans (if_pos (List.mem_finRange i))⟩

theorem unpackPart_ok {i : Fin n} {k : MsgKind} {c : Fin n → MsgCtx L n k}
    {bufs : Fin n → Fin n → List Octet} {received : Fin n → List Octet}
    (hmatch : SetsMatch (fun i => (c i).toSet) fun i => (c i).fromSet)
    (hpacked : ∀ j, PartPacked order j (c j) (bufs j)) (hat : ∀ j, received j = bufs j i) :
    ∃ after, unpackMsgs order i (c i).fromSet received k (c i).msg = .ok after ∧
      GroupDelivered i (c i).fromSet k (fun j => (c j).msg) after := by
  refine ⟨_, unpackMsgs_ok (v := fun j => content k (c j).msg i) (fun j hne hj => ?_) (c i).msg,
    groupDelivered_fill i _ k fun j => (c j).msg⟩
  rw [hat j]
  exact (hpacked j).other i hne.symm ((hmatch j i hne).mpr hj)

theorem unpackBundle_ok {i : Fin n} {b : BundleKind} {c : Fin n → b.Ctx L n}
    {packed : Fin n → b.Packed n} {packed' : b.Packed n} (hmatch : BundleMatches b c)
    (hpacked : ∀ j, PackedFor order j b (c j) (packed j))
    (hat : ∀ j, (atIndex b packed' j : b.ty.Val L) = atIndex b (packed j) i) :
    ∃ after, unpackBundle order i b (c i) packed' = .ok after ∧ BundleDelivered i b c after := by
  induction b with
  | one k => exact unpackPart_ok hmatch hpacked hat
  | more k rest ih =>
    obtain ⟨m, hm, hfirst⟩ := unpackPart_ok hmatch.1 (fun j => (hpacked j).1) fun j =>
      congrArg Prod.fst (hat j)
    obtain ⟨ms, hms, hrest⟩ := ih hmatch.2 (fun j => (hpacked j).2) fun j =>
      congrArg Prod.snd (hat j)
    exact ⟨(m, ms), bind_ok_iff.mpr ⟨m, hm, bind_ok_iff.mpr ⟨ms, hms, rfl⟩⟩, hfirst, hrest⟩

theorem groupMessages_completes (hn : n ≤ 64) (b : BundleKind) (c : Fin n → b.Ctx L n)
    (hmatch : BundleMatches b c) (h : ∀ i, BundleDeliverable order garbage i b (c i)) :
    Completes (fun i => groupMessages order garbage i b (c i)) fun i => BundleDelivered i b c := by
  choose packed hpack hpacked using fun i => packBundle_ok (h i).parts
  have hfits := fun i j => fits_atIndex (hpacked i) j
  have hlen := fun i j => (h i).total (packed i) (hpack i) j
  have hall : ∀ i j : Fin n, j ≠ i → j ∈ peerRoles i .all := fun i j hj =>
    (mem_peerRoles hn).mpr ⟨hj, PartySet.has_all (by omega)⟩
  have hstarted : Started (fun i =>
      Pending.mk (sendToParties i .all fun j => enc b.ty (@atIndex L n b (packed i) j))
      (peerRoles i .all) fun outs => do
        let packed ← splitPackedMsgs order b (storeReceived i .all outs fun j =>
          enc b.ty (@atIndex L n b (packed i) j)) (packed i)
        unpackBundle order i b (c i) packed) (fun _ => .all) (fun _ => .all)
      fun i j => enc b.ty (@atIndex L n b (packed i) j) := ⟨fun _ => rfl, fun _ => rfl⟩
  refine hstarted.completes hn (fun i => ?_) (fun i j _ => ?_) fun i => ?_
  · rw [groupMessages, hpack, ok_bind, combinePackedMsgs_ok (hfits i) (hlen i), ok_bind]
  · rw [PartySet.has_all (by omega), PartySet.has_all (by omega)]
  · have hstored : ∀ j, storeReceived i .all ((peerRoles i .all).map fun k =>
        enc b.ty (@atIndex L n b (packed k) i))
        (fun j => enc b.ty (@atIndex L n b (packed i) j)) j =
          enc b.ty (@atIndex L n b (packed j) i) := fun j => by
      rw [storeReceived_eq]
      by_cases hj : j = i
      · subst hj
        exact if_neg fun hmem => ((mem_peerRoles hn).mp hmem).1 rfl
      · exact if_pos (hall i j hj)
    obtain ⟨packed', hsplit, hat⟩ :=
      splitPackedMsgs_ok (fun j => ⟨hstored j, hfits j i, hlen j i⟩) (packed i)
    obtain ⟨after, hafter, hdelivered⟩ := unpackBundle_ok hmatch hpacked hat
    exact ⟨after, bind_ok_iff.mpr ⟨packed', hsplit, hafter⟩, hdelivered⟩

end Bundles

section Pairwise

variable {n : ℕ}

/-- `get_senders_from_receivers`. -/
def getSendersFromReceivers (self : Fin n) (receivers : PartySet) : PartySet :=
  (List.finRange n).foldl (fun senders (i : Fin n) =>
    if i = self then senders else if receivers.has i then senders else senders.add i) .empty

/-- `ot_senders_for`. -/
def otSendersFor (roles : List (List ℤ)) (i : Fin n) : PartySet :=
  (List.finRange n).foldl (fun s (j : Fin n) =>
    if roleAt roles i j = otReceiver then s.add j else s) .empty

/-- `ot_receivers_for`. -/
def otReceiversFor (roles : List (List ℤ)) (i : Fin n) : PartySet :=
  (List.finRange n).foldl (fun s (j : Fin n) =>
    if roleAt roles i j = otSender then s.add j else s) .empty

/-- Of two parties one is the sender and the other one the receiver. -/
def Antisymmetric (n : ℕ) (roles : List (List ℤ)) : Prop :=
  ∀ i j : Fin n, i ≠ j → (roleAt roles i j = otSender ∧ roleAt roles j i = otReceiver) ∨
    (roleAt roles i j = otReceiver ∧ roleAt roles j i = otSender)

theorem has_foldl_add (hn : n ≤ 64) (c : Fin n → Prop) [DecidablePred c] (l : List (Fin n))
    (s : PartySet) (j : Fin n) :
    (l.foldl (fun s (i : Fin n) => if c i then s.add i else s) s).has j =
      (s.has j || decide (j ∈ l ∧ c j)) := by
  induction l generalizing s with
  | nil => simp
  | cons i l ih =>
    rw [List.foldl_cons, ih]
    by_cases hi : c i
    · rw [if_pos hi, s.has_add (by omega)]
      by_cases hj : j = i
      · subst hj
        simp [hi]
      · have hval : ¬ i.val = j.val := fun h => hj (Fin.ext h.symm)
        simp [hj, hval]
    · rw [if_neg hi]
      by_cases hj : j = i
      · subst hj
        simp [hi]
      · simp [hj]

theorem has_getSendersFromReceivers (hn : n ≤ 64) (self : Fin n)
    (receivers : PartySet) (j : Fin n) :
    (getSendersFromReceivers self receivers).has j = true ↔ j ≠ self ∧ receivers.has j = false := by
  have hstep : getSendersFromReceivers self receivers =
      (List.finRange n).foldl (fun senders (i : Fin n) =>
      if i ≠ self ∧ receivers.has i = false then senders.add i else senders) .empty := by
    unfold getSendersFromReceivers
    congr 1
    funext senders i
    by_cases hi : i = self
    · simp [hi]
    · cases receivers.has i <;> simp [hi]
  rw [hstep, has_foldl_add hn]
  simp [PartySet.has_empty]

theorem has_otSendersFor (hn : n ≤ 64) (roles : List (List ℤ)) (i j : Fin n) :
    (otSendersFor roles i).has j = true ↔ roleAt roles i j = otReceiver := by
  rw [otSendersFor, has_foldl_add hn fun j : Fin n => roleAt roles i j = otReceiver]
  simp [PartySet.has_empty]

theorem has_otReceiversFor (hn : n ≤ 64) (roles : List (List ℤ)) (i j : Fin n) :
    (otReceiversFor roles i).has j = true ↔ roleAt roles i j = otSender := by
  rw [otReceiversFor, has_foldl_add hn fun j : Fin n => roleAt roles i j = otSender]
  simp [PartySet.has_empty]

/-- The complement of a party's receivers are those to whom it is a receiver. -/
theorem setsMatch_complement {receivers : Fin n → PartySet} (hn : n ≤ 64)
    (h : ∀ i j : Fin n, i ≠ j → ((receivers i).has j = true ↔ (receivers j).has i = false)) :
    SetsMatch receivers fun i => getSendersFromReceivers i (receivers i) := by
  intro i j hne
  rw [has_getSendersFromReceivers hn, h i j hne]
  simp [hne]

theorem setsMatch_otReceivers (hn : n ≤ 64) {roles : List (List ℤ)} (h : Antisymmetric n roles) :
    SetsMatch (fun i : Fin n => otReceiversFor roles i) fun i =>
      getSendersFromReceivers i (otReceiversFor roles i) := by
  refine setsMatch_complement hn fun i j hne => ?_
  rw [← Bool.not_eq_true, has_otReceiversFor hn, has_otReceiversFor hn]
  rcases h i j hne with ⟨hij, hji⟩ | ⟨hij, hji⟩ <;> simp [hij, hji, otSender, otReceiver]

theorem setsMatch_otSenders (hn : n ≤ 64) {roles : List (List ℤ)} (h : Antisymmetric n roles) :
    SetsMatch (fun i : Fin n => otSendersFor roles i) fun i =>
      getSendersFromReceivers i (otSendersFor roles i) := by
  refine setsMatch_complement hn fun i j hne => ?_
  rw [← Bool.not_eq_true, has_otSendersFor hn, has_otSendersFor hn]
  rcases h i j hne with ⟨hij, hji⟩ | ⟨hij, hji⟩ <;> simp [hij, hji, otSender, otReceiver]

variable {L : CurveTable}

/-- `plain_broadcast_and_pairwise_message` without a message to all. -/
def pairwiseMessage (order : KeyOrder L) (garbage : ℕ → Octet) (self : Fin n)
    (receivers : PartySet) (k : MsgKind) (pairwise : k.Msg L n) : Outcome (Pending n (k.Msg L n)) :=
  groupMessage order garbage self receivers (getSendersFromReceivers self receivers) k pairwise

/-- The two messages of `plain_broadcast_and_pairwise_message`, with the tie of those to all. -/
def pairwiseBundle (self : Fin n) (receivers : PartySet) {k ka : MsgKind}
    (pairwise : k.Msg L n) (toAll : ka.Msg L n) :
    (BundleKind.more k (.one ka)).Ctx L n :=
  (⟨receivers, getSendersFromReceivers self receivers, pairwise⟩,
    (⟨.all, .all, toAll⟩ : MsgCtx L n ka))

/-- `plain_broadcast_and_pairwise_message`. -/
def plainBroadcastAndPairwiseMessage (order : KeyOrder L) (garbage : ℕ → Octet)
    (self : Fin n) (receivers : PartySet) {k ka : MsgKind}
    (pairwise : k.Msg L n) (toAll : ka.Msg L n) :
    Outcome (Pending n ((BundleKind.more k (.one ka)).Msgs L n)) :=
  groupMessages order garbage self (.more k (.one ka))
    (pairwiseBundle self receivers pairwise toAll)

end Pairwise

/-- Whatever the order of sends and receives, a call of all parties completes and leaves the
senders' contents at each party and everything else unchanged: for one message, for a bundle of
messages, and for messages by the two roles of oblivious transfer, when the contents can be written
and read back. -/
theorem group_message_delivers {L : CurveTable} {n : ℕ} (order : KeyOrder L)
    (garbage : ℕ → Octet) (hn : n ≤ 64) :
    (∀ (toSet fromSet : Fin n → PartySet) (k : MsgKind) (m : Fin n → k.Msg L n),
      SetsMatch toSet fromSet →
      (∀ i, Deliverable order garbage i (toSet i) k (m i)) →
      Completes (fun i => groupMessage order garbage i (toSet i) (fromSet i) k (m i)) fun i =>
        GroupDelivered i (fromSet i) k m) ∧
    (∀ (b : BundleKind) (c : Fin n → b.Ctx L n), BundleMatches b c →
      (∀ i, BundleDeliverable order garbage i b (c i)) →
      Completes (fun i => groupMessages order garbage i b (c i)) fun i => BundleDelivered i b c) ∧
    ∀ (roles : List (List ℤ)) (receivers : Fin n → PartySet), Antisymmetric n roles →
      receivers = otReceiversFor roles ∨ receivers = otSendersFor roles →
      (∀ (k : MsgKind) (m : Fin n → k.Msg L n),
        (∀ i, Deliverable order garbage i (receivers i) k (m i)) →
        Completes (fun i => pairwiseMessage order garbage i (receivers i) k (m i)) fun i =>
          GroupDelivered i (getSendersFromReceivers i (receivers i)) k m) ∧
      ∀ (k ka : MsgKind) (m : Fin n → k.Msg L n) (toAll : Fin n → ka.Msg L n),
        (∀ i, BundleDeliverable order garbage i (.more k (.one ka))
          (pairwiseBundle i (receivers i) (m i) (toAll i))) →
        Completes (fun i => plainBroadcastAndPairwiseMessage order garbage i (receivers i)
          (m i) (toAll i)) fun i =>
          BundleDelivered i (.more k (.one ka)) fun j =>
              pairwiseBundle j (receivers j) (m j) (toAll j) := by
  refine ⟨fun toSet fromSet k m hmatch h => groupMessage_completes hn toSet fromSet hmatch k m h,
    fun b c hmatch h => groupMessages_completes hn b c hmatch h,
    fun roles receivers hroles hreceivers => ?_⟩
  have hmatch : SetsMatch receivers fun i => getSendersFromReceivers i (receivers i) := by
    rcases hreceivers with rfl | rfl
    · exact setsMatch_otReceivers hn hroles
    · exact setsMatch_otSenders hn hroles
  refine ⟨fun k m h => groupMessage_completes hn receivers _ hmatch k m h, fun k ka m toAll h =>
    groupMessages_completes hn (.more k (.one ka)) _ ⟨hmatch, fun i j _ => ?_⟩ h⟩
  exact iff_of_true (PartySet.has_all (by omega)) (PartySet.has_all (by omega))

section Examples

/-- Messages of two parties, with a number for each party. -/
def sampleMsgs (i : Fin 2) : (MsgKind.nonuniform .bn).Msg sampleCurves 2 :=
  (⟨fun j => 10 * i.val + j.val, fun _ => 7⟩ : NonuniformMsg 2 ℤ)

theorem sampleMsgs_deliverable (i : Fin 2) (set : PartySet) :
    Deliverable sampleOrder (fun _ => 0) i set (.nonuniform .bn) (sampleMsgs i) where
  other j _ _ := by
    have hsize : ∀ i j : Fin 2,
      getBinSize (10 * i.val + j.val) ≤ maxSerializedBignumBytes := by decide
    have hlen : ∀ i j : Fin 2, (encBn (10 * i.val + j.val)).length ≤ intMax := by decide
    exact ⟨hsize i j, hlen i j⟩
  own _ := by fin_cases i <;> exact ⟨_, rfl⟩

/-- The first of two parties sends. -/
def sampleRoles : List (List ℤ) := [[otNoRole, otSender], [otReceiver, otNoRole]]

theorem sampleMsgs_frame (i j : Fin 2) {buf : List Octet}
    (h : ser (fun _ => 0) (pack (.nonuniform .bn) (sampleMsgs i) j) = .ok buf) :
    buf.length ≤ maxConvertLen := by
  fin_cases i <;> fin_cases j <;> cases h <;> decide

theorem sampleRoles_antisymmetric : Antisymmetric 2 sampleRoles := by
  intro i j hij
  fin_cases i <;> fin_cases j
  · exact absurd rfl hij
  · exact .inl ⟨rfl, rfl⟩
  · exact .inr ⟨rfl, rfl⟩
  · exact absurd rfl hij

/-- A pairwise message along the roles together with a broadcast. -/
def sampleBundle (i : Fin 2) :
    (BundleKind.more (.nonuniform .bn) (.one (.nonuniform .bn))).Ctx sampleCurves 2 :=
  pairwiseBundle i (otReceiversFor sampleRoles i) (sampleMsgs i) (sampleMsgs i)

theorem sampleBundle_deliverable (i : Fin 2) :
    BundleDeliverable sampleOrder (fun _ => 0) i
      (.more (.nonuniform .bn) (.one (.nonuniform .bn))) (sampleBundle i) where
  parts := ⟨⟨sampleMsgs_deliverable i _, fun j _ _ => sampleMsgs_frame i j⟩,
    sampleMsgs_deliverable i _, fun j _ _ => sampleMsgs_frame i j⟩
  total packed h j := by
    fin_cases i <;> cases h <;> fin_cases j <;> decide

theorem group_message_delivers_sample :
    Completes (fun i : Fin 2 =>
      groupMessage sampleOrder (fun _ => 0) i .all .all (.nonuniform .bn) (sampleMsgs i)) (fun i =>
      GroupDelivered i .all (.nonuniform .bn) sampleMsgs) ∧
    Completes (fun i : Fin 2 =>
      groupMessages sampleOrder (fun _ => 0) i _ (sampleBundle i)) (fun i =>
      BundleDelivered i _ sampleBundle) ∧
    Completes (fun i : Fin 2 =>
      pairwiseMessage sampleOrder (fun _ => 0) i (otReceiversFor sampleRoles i)
      (.nonuniform .bn) (sampleMsgs i))
      (fun i => GroupDelivered i (getSendersFromReceivers i (otReceiversFor sampleRoles i))
        (.nonuniform .bn) sampleMsgs) ∧
    Completes (fun i : Fin 2 =>
      plainBroadcastAndPairwiseMessage sampleOrder (fun _ => 0) i (otReceiversFor sampleRoles i)
      (sampleMsgs i) (sampleMsgs i)) fun i => BundleDelivered i _ sampleBundle := by
  obtain ⟨hgroup, hbundle, hpairwise⟩ :=
    @group_message_delivers sampleCurves 2 sampleOrder (fun _ => 0) (by decide)
  obtain ⟨hpair, hboth⟩ := hpairwise sampleRoles (otReceiversFor sampleRoles)
    sampleRoles_antisymmetric (.inl rfl)
  have hall : SetsMatch (fun _ : Fin 2 => .all) fun _ => .all := fun _ _ _ =>
    iff_of_true (by decide +revert) (by decide +revert)
  refine ⟨hgroup _ _ _ _ hall fun i => sampleMsgs_deliverable i _,
    hbundle _ _ ⟨?_, hall⟩ sampleBundle_deliverable, hpair _ _ fun i => sampleMsgs_deliverable i _,
    hboth _ _ _ _ sampleBundle_deliverable⟩
  intro i j hij
  fin_cases i <;> fin_cases j <;> decide

/-- A uniform message with a point that has no curve. -/
def noPoint : (MsgKind.uniform .point).Msg sampleCurves 2 :=
  (⟨none, fun _ => none⟩ : UniformMsg 2 (Option (Unit × Unit)))

def noPointPending (i : Fin 2) : Pending 2 ((MsgKind.uniform .point).Msg sampleCurves 2) where
  sends := sendToParties i .all fun _ => [0, 0]
  awaits := peerRoles i .all
  finish outs := unpackMsgs sampleOrder i .all (storeReceived i .all outs fun _ =>
    []) (.uniform .point) noPoint

theorem noPoint_sent (i : Fin 2) :
    groupMessage sampleOrder (fun _ => 0) i .all .all (.uniform .point) noPoint =
      .ok (noPointPending i) := by
  refine groupMessage_ok .all (by decide) ?_
  have hser : ∀ j : Fin 2, ser (fun _ => 0) (pack (.uniform .point) noPoint j) = .ok [0, 0] :=
    fun j => rfl
  have htable := foldlM_table (c := fun j : Fin 2 => PartySet.all.has j) (fun j _ => hser j)
    (List.finRange 2) fun _ => []
  refine htable.trans (congrArg Except.ok (funext fun j => ?_))
  exact if_pos ⟨List.mem_finRange j, PartySet.has_all (by omega)⟩

/-- Such a message is written and sent, and its receivers refuse it. -/
theorem noPoint_not_delivered :
    SetsMatch (fun _ : Fin 2 => .all) (fun _ => .all) ∧
      ¬ Completes (fun i : Fin 2 =>
        groupMessage sampleOrder (fun _ => 0) i .all .all (.uniform .point) noPoint) fun _ _ =>
        True := by
  have hmatch : SetsMatch (fun _ : Fin 2 => .all) fun _ => .all := fun i j _ =>
    iff_of_true (PartySet.has_all (by omega)) (PartySet.has_all (by omega))
  refine ⟨hmatch, fun ⟨p, hcall, hruns⟩ => ?_⟩
  obtain rfl : p = noPointPending := funext fun i =>
    Except.ok.inj ((hcall i).symm.trans (noPoint_sent i))
  have hstarted : Started noPointPending (fun _ => .all) (fun _ => .all) fun _ _ => [0, 0] :=
    ⟨fun _ => rfl, fun _ => rfl⟩
  obtain ⟨s, hrun, hend⟩ := (hstarted.consistent (by decide) hmatch).run_to_end
  obtain ⟨m, hm, -⟩ := (hruns s hrun).1 0 (hend 0)
  rw [hstarted.outs_eq (by decide) hmatch hrun (hend 0)] at hm
  have hfail : (noPointPending 0).finish ((peerRoles (0 : Fin 2) .all).map fun _ =>
      ([0, 0] : List Octet)) = fail .format :=
    eq_fail_of_isFormatError (by decide +kernel)
  cases hfail.symm.trans hm

end Examples

end CbMpc
