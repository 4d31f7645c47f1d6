import CbMpc.Exchange
import CbMpc.Serialization
import CbMpc.Messages

/-!
# Group messages

`group_message` packs for the parties of one set, sends, receives from the parties of another
set, and unpacks into the inboxes of its message objects, or into the sent slots themselves.
-/
namespace CbMpc

open Exchange (Net)
open ReadM WriteM

/-- `party_set_t`. -/
structure PartySet where
  peers : BitVec 64
  deriving DecidableEq

namespace PartySet

def mask (i : ℕ) : BitVec 64 := 1 <<< i

def has (s : PartySet) (i : ℕ) : Bool := s.peers &&& mask i != 0

def isEmpty (s : PartySet) : Bool := s.peers == 0

def add (s : PartySet) (i : ℕ) : PartySet := ⟨s.peers ||| mask i⟩

def remove (s : PartySet) (i : ℕ) : PartySet := ⟨s.peers &&& ~~~mask i⟩

def all : PartySet := ⟨0xffffffffffffffff⟩

def empty : PartySet := ⟨0⟩

theorem has_eq (s : PartySet) (i : ℕ) : s.has i = s.peers.getLsbD i := by
  have hmask : s.has i = (s.peers &&& BitVec.twoPow 64 i != 0) := rfl
  rw [hmask, BitVec.and_twoPow]
  cases h : s.peers.getLsbD i with
  | false => rfl
  | true =>
    have hlt : i < 64 := BitVec.lt_of_getLsbD h
    have hne : BitVec.twoPow 64 i ≠ 0 := fun h0 => by
      have hbit := congrArg (BitVec.getLsbD · i) h0
      simp [hlt] at hbit
    rw [if_pos rfl]
    exact bne_iff_ne.mpr hne

theorem has_all {i : ℕ} (h : i < 64) : all.has i = true := by
  have hones : all.peers = BitVec.allOnes 64 := by decide
  rw [has_eq, hones, BitVec.getLsbD_allOnes]
  exact decide_eq_true h

theorem has_empty (i : ℕ) : empty.has i = false := by
  rw [has_eq]
  exact BitVec.getLsbD_zero

theorem has_of_isEmpty {s : PartySet} (h : s.isEmpty = true) (i : ℕ) : s.has i = false := by
  have hzero : s = empty := congrArg mk (beq_iff_eq.mp h)
  rw [hzero, has_empty]

theorem getLsbD_mask (i j : ℕ) : (mask i).getLsbD j = (decide (i < 64) && decide (i = j)) :=
  BitVec.getLsbD_twoPow i j

theorem has_add (s : PartySet) {i : ℕ} (hi : i < 64) (j : ℕ) :
    (s.add i).has j = (s.has j || decide (i = j)) := by
  rw [has_eq, has_eq, add, BitVec.getLsbD_or, getLsbD_mask, decide_eq_true hi, Bool.true_and]

theorem has_remove (s : PartySet) (i : ℕ) {j : ℕ} (hj : j < 64) :
    (s.remove i).has j = (s.has j && !decide (i = j)) := by
  rw [has_eq, has_eq, remove, BitVec.getLsbD_and, BitVec.getLsbD_not, getLsbD_mask,
    decide_eq_true hj, Bool.true_and]
  by_cases h : i = j
  · rw [decide_eq_true h, decide_eq_true (h ▸ hj)]
    rfl
  · rw [decide_eq_false h, Bool.and_false]

end PartySet

/-- The kinds of messages. A tuple is the pair of its first message and the tuple of the others. -/
inductive MsgKind where
  | uniform (t : Ty)
  | nonuniform (t : Ty)
  | inplace (t : Ty)
  | tied (first rest : MsgKind)

/-- `uniform_msg_t`. -/
structure UniformMsg (n : ℕ) (α : Type) where
  msg : α
  inbox : Fin n → α

/-- `nonuniform_msg_t` with an inbox. -/
structure NonuniformMsg (n : ℕ) (α : Type) where
  msgs : Fin n → α
  inbox : Fin n → α

/-- The type of a party's contents for one other party. -/
def MsgKind.ty : MsgKind → Ty
  | uniform t => t
  | nonuniform t => t
  | inplace t => t
  | tied first rest => .pair first.ty rest.ty

/-- The message objects. In place there are no slots beside the sent ones. -/
def MsgKind.Msg (L : CurveTable) (n : ℕ) : MsgKind → Type
  | uniform t => UniformMsg n (t.Val L)
  | nonuniform t => NonuniformMsg n (t.Val L)
  | inplace t => Fin n → t.Val L
  | tied first rest => first.Msg L n × rest.Msg L n

/-- What a party has ready beside its slots for what it receives. -/
def MsgKind.Outgoing (L : CurveTable) (n : ℕ) : MsgKind → Type
  | uniform t => t.Val L
  | nonuniform t => Fin n → t.Val L
  | inplace _ => Unit
  | tied first rest => first.Outgoing L n × rest.Outgoing L n

section Messages

variable {L : CurveTable} {n : ℕ}

/-- `pack`. -/
def pack : (k : MsgKind) → k.Msg L n → Fin n → WriteM Unit
  | .uniform t, m, _ => write t (UniformMsg.msg m)
  | .nonuniform t, m, index => write t (NonuniformMsg.msgs m index)
  | .inplace t, m, index => write t (m index)
  | .tied first rest, m, index => do
    pack first m.1 index
    pack rest m.2 index

/-- `unpack`, at the party `self`. -/
def unpack (order : KeyOrder L) (self : Fin n) :
    (k : MsgKind) → k.Msg L n → Fin n → ReadM (k.Msg L n)
  | .uniform t, m, index => do
    let v ← read order t
    return if index = self then UniformMsg.mk v (UniformMsg.inbox m)
      else UniformMsg.mk (UniformMsg.msg m) (Function.update (UniformMsg.inbox m) index v)
  | .nonuniform t, m, index => do
    let v ← read order t
    return if index = self then
      NonuniformMsg.mk (Function.update (NonuniformMsg.msgs m) index v) (NonuniformMsg.inbox m)
      else NonuniformMsg.mk (NonuniformMsg.msgs m) (Function.update (NonuniformMsg.inbox m) index v)
  | .inplace t, m, index => do
    let v ← read order t
    return Function.update m index v
  | .tied first rest, m, index => do
    let a ← unpack order self first m.1 index
    let b ← readRest m.2 (unpack order self rest m.2 index)
    return (a, b)

/-- `received`. -/
def receivedMsg (self : Fin n) : (k : MsgKind) → k.Msg L n → Fin n → k.ty.Val L
  | .uniform _, m, index => if index = self then UniformMsg.msg m else UniformMsg.inbox m index
  | .nonuniform _, m, index =>
    if index = self then NonuniformMsg.msgs m index else NonuniformMsg.inbox m index
  | .inplace _, m, index => m index
  | .tied first rest, m, index =>
    (receivedMsg self first m.1 index, receivedMsg self rest m.2 index)

/-- What a party has for a party. -/
def content : (k : MsgKind) → k.Msg L n → Fin n → k.ty.Val L
  | .uniform _, m, _ => UniformMsg.msg m
  | .nonuniform _, m, index => NonuniformMsg.msgs m index
  | .inplace _, m, index => m index
  | .tied first rest, m, index => (content first m.1 index, content rest m.2 index)

def outgoing : (k : MsgKind) → k.Msg L n → k.Outgoing L n
  | .uniform _, m => UniformMsg.msg m
  | .nonuniform _, m => NonuniformMsg.msgs m
  | .inplace _, _ => ()
  | .tied first rest, m => (outgoing first m.1, outgoing rest m.2)

/-- The slot for what is received from a party. -/
def slot : (k : MsgKind) → k.Msg L n → Fin n → k.ty.Val L
  | .uniform _, m, index => UniformMsg.inbox m index
  | .nonuniform _, m, index => NonuniformMsg.inbox m index
  | .inplace _, m, index => m index
  | .tied first rest, m, index => (slot first m.1 index, slot rest m.2 index)

/-- The messages after the slots of some parties have been filled. -/
def fill : (k : MsgKind) → k.Msg L n → List (Fin n) → (Fin n → k.ty.Val L) → k.Msg L n
  | .uniform _, m, l, v =>
    UniformMsg.mk (UniformMsg.msg m) fun i => if i ∈ l then v i else UniformMsg.inbox m i
  | .nonuniform _, m, l, v =>
    NonuniformMsg.mk (NonuniformMsg.msgs m) fun i => if i ∈ l then v i else NonuniformMsg.inbox m i
  | .inplace _, m, l, v => fun i => if i ∈ l then v i else m i
  | .tied first rest, m, l, v =>
    (fill first m.1 l fun i => (v i).1, fill rest m.2 l fun i => (v i).2)

theorem writes_pack {order : KeyOrder L} {k : MsgKind} {m : k.Msg L n} {index : Fin n}
    (h : Fits order k.ty (content k m index)) :
    Writes (pack k m index) (enc k.ty (content k m index)) := by
  induction k with
  | uniform t => exact writes_write h
  | nonuniform t => exact writes_write h
  | inplace t => exact writes_write h
  | tied first rest ihf ihr => exact (@ihf m.1 h.1).bind (@ihr m.2 h.2)

theorem decodes_return {α β : Type} {x : ReadM α} {bytes : List Octet} {a : α} {f : α → β} {b : β}
    (hx : Decodes x bytes a) (h : f a = b) : Decodes (x >>= fun v => return f v) bytes b := by
  subst h
  exact hx.bind_end (.pure _)

/-- What is read for a party other than the reader goes into that party's slot. -/
theorem decodes_unpack {order : KeyOrder L} {self index : Fin n} (hne : index ≠ self)
    {k : MsgKind} {v : k.ty.Val L} (h : Fits order k.ty v) (m : k.Msg L n) :
    Decodes (unpack order self k m index) (enc k.ty v) (fill k m [index] fun _ => v) := by
  have hslot : ∀ {α : Type} (f : Fin n → α) (a : α), Function.update f index a = fun i =>
      if i ∈ [index] then a else f i := by
    intro α f a
    funext i
    by_cases hi : i = index <;> simp [hi]
  induction k with
  | uniform t =>
    exact decodes_return (decodes_read h)
      ((if_neg hne).trans (congrArg (UniformMsg.mk _) (hslot _ _)))
  | nonuniform t =>
    exact decodes_return (decodes_read h)
      ((if_neg hne).trans (congrArg (NonuniformMsg.mk _) (hslot _ _)))
  | inplace t => exact decodes_return (decodes_read h) (hslot m v)
  | tied first rest ihf ihr =>
    exact (@ihf v.1 h.1 m.1).bind ((decodes_readRest (@ihr v.2 h.2 m.2)).bind_end (.pure _))

theorem fill_nil {k : MsgKind} (m : k.Msg L n) (v : Fin n → k.ty.Val L) : fill k m [] v = m := by
  induction k with
  | uniform t => rfl
  | nonuniform t => rfl
  | inplace t => rfl
  | tied first rest ihf ihr => exact Prod.ext (ihf m.1 _) (ihr m.2 _)

/-- The slots can be filled one after another. -/
theorem fill_cons {k : MsgKind} (m : k.Msg L n) (v : Fin n → k.ty.Val L)
    (i : Fin n) (l : List (Fin n)) :
    fill k (fill k m [i] fun _ => v i) l v = fill k m (i :: l) v := by
  have hslot : ∀ {α : Type} (a f : Fin n → α),
      (fun j => if j ∈ l then a j else if j ∈ [i] then a i else f j) =
      fun j => if j ∈ i :: l then a j else f j := by
    intro α a f
    funext j
    by_cases hl : j ∈ l
    · simp [hl]
    · by_cases hi : j = i
      · simp [hi]
      · simp [hl, hi]
  induction k with
  | uniform t => exact congrArg (UniformMsg.mk _) (hslot v _)
  | nonuniform t => exact congrArg (NonuniformMsg.mk _) (hslot v _)
  | inplace t => exact hslot v m
  | tied first rest ihf ihr => exact Prod.ext (ihf m.1 fun i => (v i).1) (ihr m.2 fun i => (v i).2)

theorem slot_fill {k : MsgKind} (m : k.Msg L n) (v : Fin n → k.ty.Val L) {l : List (Fin n)}
    {i : Fin n} (h : i ∉ l) :
    slot k (fill k m l v) i = slot k m i := by
  induction k with
  | uniform t => exact if_neg h
  | nonuniform t => exact if_neg h
  | inplace t => exact if_neg h
  | tied first rest ihf ihr => exact Prod.ext (ihf m.1 _) (ihr m.2 _)

theorem outgoing_fill {k : MsgKind} (m : k.Msg L n) (v : Fin n → k.ty.Val L) (l : List (Fin n)) :
    outgoing k (fill k m l v) = outgoing k m := by
  induction k with
  | uniform t => rfl
  | nonuniform t => rfl
  | inplace t => rfl
  | tied first rest ihf ihr => exact Prod.ext (ihf m.1 _) (ihr m.2 _)

theorem receivedMsg_fill {self : Fin n} {k : MsgKind} (m : k.Msg L n) (v : Fin n → k.ty.Val L)
    {l : List (Fin n)} {i : Fin n} (hne : i ≠ self) (h : i ∈ l) :
    receivedMsg self k (fill k m l v) i = v i := by
  induction k with
  | uniform t => exact (if_neg hne).trans (if_pos h)
  | nonuniform t => exact (if_neg hne).trans (if_pos h)
  | inplace t => exact if_pos h
  | tied first rest ihf ihr => exact Prod.ext (ihf m.1 fun i => (v i).1) (ihr m.2 fun i => (v i).2)

theorem receivedMsg_fill_self {self : Fin n} {k : MsgKind} (m : k.Msg L n)
    (v : Fin n → k.ty.Val L) {l : List (Fin n)} (h : self ∉ l) :
    receivedMsg self k (fill k m l v) self = content k m self := by
  induction k with
  | uniform t => exact if_pos rfl
  | nonuniform t => exact if_pos rfl
  | inplace t => exact if_neg h
  | tied first rest ihf ihr => exact Prod.ext (ihf m.1 _) (ihr m.2 _)

/-- `unpack_msgs_for_party`. -/
def unpackMsgsForParty (order : KeyOrder L) (self : Fin n) (k : MsgKind) (m : k.Msg L n)
    (index : Fin n) (mem : List Octet) :
    Outcome (k.Msg L n) := do
  let out ← unpack order self k m index ⟨mem, 0, none⟩
  match out.2.error with
  | some rv => fail rv
  | none => do
    require (decide (out.2.offset = mem.length)) .format
    .ok out.1

/-- `pack_msgs`. -/
def packMsgs (garbage : ℕ → Octet) (set : PartySet) (k : MsgKind) (m : k.Msg L n) :
    Outcome (Fin n → List Octet) :=
  (List.finRange n).foldlM (fun out (i : Fin n) => if set.has i then do
      let buf ← ser garbage (pack k m i)
      .ok (Function.update out i buf)
    else .ok out) fun _ => []

/-- `unpack_msgs`. -/
def unpackMsgs (order : KeyOrder L) (self : Fin n) (set : PartySet)
    (received : Fin n → List Octet) (k : MsgKind) (m : k.Msg L n) : Outcome (k.Msg L n) :=
  (List.finRange n).foldlM (fun m (i : Fin n) => if !set.has i || decide (i = self) then .ok m
    else unpackMsgsForParty order self k m i (received i)) m

theorem unpackMsgsForParty_ok {order : KeyOrder L} {self index : Fin n} (hne : index ≠ self)
    {k : MsgKind} {v : k.ty.Val L} (h : Fits order k.ty v)
    (hlen : (enc k.ty v).length ≤ intMax) (m : k.Msg L n) :
    unpackMsgsForParty order self k m index (enc k.ty v) = .ok (fill k m [index] fun _ => v) := by
  rw [unpackMsgsForParty, decodes_unpack hne h m (enc k.ty v) 0 [] hlen (Nat.zero_le _) (by simp)]
  simp

/-- Code words from all senders of a set are unpacked into their slots. -/
theorem unpackMsgs_ok {order : KeyOrder L} {self : Fin n} {set : PartySet}
    {received : Fin n → List Octet} {k : MsgKind} {v : Fin n → k.ty.Val L}
    (h : ∀ i, i ≠ self → set.has i = true →
      received i = enc k.ty (v i) ∧ Fits order k.ty (v i) ∧ (enc k.ty (v i)).length ≤ intMax)
      (m : k.Msg L n) :
    unpackMsgs order self set received k m =
      .ok (fill k m ((List.finRange n).filter fun i : Fin n =>
        set.has i && decide (i ≠ self)) v) := by
  unfold unpackMsgs
  induction List.finRange n generalizing m with
  | nil => exact congrArg Except.ok (fill_nil m v).symm
  | cons i l ih =>
    rw [List.foldlM_cons]
    by_cases hi : i ≠ self ∧ set.has i = true
    · obtain ⟨hbuf, hfits, hlen⟩ := h i hi.1 hi.2
      rw [if_neg (by simp [hi.1, hi.2]), hbuf, unpackMsgsForParty_ok hi.1 hfits hlen, ok_bind, ih,
        List.filter_cons_of_pos (by simp [hi.1, hi.2]), fill_cons]
    · have hskip : (!set.has i || decide (i = self)) = true := by
        by_cases hself : i = self
        · simp [hself]
        · simpa [hself] using hi
      rw [if_pos hskip, ok_bind, ih, List.filter_cons_of_neg (by simpa [and_comm] using hi)]

/-- A loop that fills a table. -/
theorem foldlM_table {β : Type} {c : Fin n → Bool} {f : Fin n → Outcome β} {v : Fin n → β}
    (h : ∀ i, c i = true → f i = .ok (v i)) (l : List (Fin n)) (out : Fin n → β) :
    l.foldlM (fun out i => if c i then do
      let b ← f i
      .ok (Function.update out i b) else .ok out) out = .ok fun i => if i ∈ l ∧
          c i = true then v i else out i := by
  induction l generalizing out with
  | nil => exact congrArg Except.ok (funext fun i => (if_neg (by simp)).symm)
  | cons j l ih =>
    rw [List.foldlM_cons]
    by_cases hj : c j = true
    · rw [if_pos hj, h j hj, ok_bind, ok_bind, ih]
      refine congrArg Except.ok (funext fun i => ?_)
      by_cases hi : i = j
      · subst hi
        simp [hj]
      · simp [hi]
    · rw [if_neg hj, ok_bind, ih]
      refine congrArg Except.ok (funext fun i => ?_)
      by_cases hi : i = j
      · subst hi
        simp [hj]
      · simp [hi]

/-- The contents that a party has for the parties of a set can be written, and those for other
parties can be read again. -/
structure Deliverable (order : KeyOrder L) (garbage : ℕ → Octet) (i : Fin n) (set : PartySet)
    (k : MsgKind) (m : k.Msg L n) :
    Prop where
  other : ∀ j : Fin n, j ≠ i → set.has j = true → Fits order k.ty (content k m j) ∧
    (enc k.ty (content k m j)).length ≤ intMax
  own : set.has i = true → ∃ buf, ser garbage (pack k m i) = .ok buf

/-- Every other party of the set gets the code word of its content. -/
theorem packMsgs_ok {order : KeyOrder L} {garbage : ℕ → Octet} {self : Fin n} {set : PartySet}
    {k : MsgKind} {m : k.Msg L n} (h : Deliverable order garbage self set k m) :
    ∃ bufs : Fin n → List Octet, packMsgs garbage set k m = .ok bufs ∧
      (∀ j : Fin n, j ≠ self → set.has j = true → bufs j = enc k.ty (content k m j)) ∧
      (∀ j : Fin n, set.has j = true → ser garbage (pack k m j) = .ok (bufs j)) ∧ ∀ j : Fin n,
        set.has j = false → bufs j = [] := by
  have hser : ∀ j : Fin n, ∃ buf, set.has j = true →
      ser garbage (pack k m j) = .ok buf ∧
      (j ≠ self → buf = enc k.ty (content k m j)) := fun j => by
    by_cases hj : j = self
    · subst hj
      by_cases hset : set.has j = true
      · obtain ⟨buf, hbuf⟩ := h.own hset
        exact ⟨buf, fun _ => ⟨hbuf, fun hne => absurd rfl hne⟩⟩
      · exact ⟨[], fun hset' => absurd hset' hset⟩
    · refine ⟨enc k.ty (content k m j), fun hset => ⟨?_, fun _ => rfl⟩⟩
      obtain ⟨hfits, hlen⟩ := h.other j hj hset
      rw [ser_eq (writes_pack hfits), if_pos hlen]
  choose bufs hbufs using hser
  refine ⟨_, foldlM_table (fun j hj => (hbufs j hj).1) _ _, fun j hne hj => ?_, fun j hj => ?_,
    fun j hj => ?_⟩
  · rw [if_pos ⟨List.mem_finRange j, hj⟩, (hbufs j hj).2 hne]
  · rw [if_pos ⟨List.mem_finRange j, hj⟩, (hbufs j hj).1]
  · exact if_neg fun hand => by simp [hj] at hand

end Messages

section Transport

variable {n : ℕ}

/-- `send_to_parties`, as the list of its calls of `send_impl`. -/
def sendToParties (self : Fin n) (set : PartySet) (bufs : Fin n → List Octet) :
    List (Fin n × List Octet) :=
  ((List.finRange n).filter fun i : Fin n => (set.remove self).has i).map fun i => (i, bufs i)

/-- The parties that `receive_from_parties` asks for. -/
def peerRoles (self : Fin n) (set : PartySet) : List (Fin n) :=
  (List.finRange n).filter fun i : Fin n => (set.remove self).has i

/-- The loop that stores what has been received, with its counter. -/
def storeReceived (self : Fin n) (set : PartySet) (outs : List (List Octet))
    (v : Fin n → List Octet) : Fin n → List Octet :=
  ((List.finRange n).foldl (fun (p : (Fin n → List Octet) × ℕ) (i : Fin n) =>
    if (set.remove self).has i then
      (Function.update p.1 i (outs.getD p.2 []), p.2 + 1) else p) (v, 0)).1

/-- A party in the middle of a call: what it sends, whom it waits for, and what it does with the
messages of those, in their order. -/
structure Pending (n : ℕ) (S : Type) where
  sends : List (Fin n × List Octet)
  awaits : List (Fin n)
  finish : List (List Octet) → Outcome S

/-- The messages that a party has received, in the order in which it asked for them. -/
def outsOf {S : Type} (p : Pending n S) (s : Net (Fin n) (List Octet))
    (i : Fin n) : List (List Octet) :=
  p.awaits.map fun k => (s.got i k).getD []

/-- All parties make a call: in every order of the steps a party that is done has a result with the
property, some step is possible as long as a party is not done, and every step makes the rest
shorter. -/
def Completes {S : Type} (call : Fin n → Outcome (Pending n S)) (post : Fin n → S → Prop) : Prop :=
  ∃ p : Fin n → Pending n S, (∀ i, call i = .ok (p i)) ∧
    ∀ s, Relation.ReflTransGen Net.Step (Net.start (fun i => (p i).sends) fun i => (p i).awaits) s →
      (∀ i, s.Finished i → ∃ m, (p i).finish (outsOf (p i) s i) = .ok m ∧ post i m) ∧
      (∀ i, ¬ s.Finished i → ∃ s', Net.Step s s') ∧
      ∀ s', Net.Step s s' → s'.todo + 1 = s.todo

theorem mem_peerRoles (hn : n ≤ 64) {self : Fin n} {set : PartySet} {i : Fin n} :
    i ∈ peerRoles self set ↔ i ≠ self ∧ set.has i = true := by
  rw [peerRoles, List.mem_filter, set.has_remove self (by omega), Bool.and_eq_true,
    Bool.not_eq_true', decide_eq_false_iff_not]
  constructor
  · exact fun h => ⟨fun hi => h.2.2 (congrArg Fin.val hi.symm), h.2.1⟩
  · exact fun h => ⟨List.mem_finRange i, h.2, fun hi => h.1 (Fin.ext hi.symm)⟩

/-- One message for every other party of the set. -/
theorem toward_sendToParties (hn : n ≤ 64) (self : Fin n) (set : PartySet)
    (bufs : Fin n → List Octet) (j : Fin n) :
    Net.toward (sendToParties self set bufs) j = if j ≠ self ∧
    set.has j = true then [bufs j] else [] := by
  have hmem := @mem_peerRoles n hn self set j
  have hnodup : (peerRoles self set).Nodup := (List.nodup_finRange n).filter _
  have hsends : sendToParties self set bufs = (peerRoles self set).map fun i => (i, bufs i) := rfl
  rw [hsends]
  simp only [← hmem]
  generalize peerRoles self set = l at hnodup
  induction l with
  | nil => rfl
  | cons i l ih =>
    obtain ⟨hi, hl⟩ := List.nodup_cons.mp hnodup
    rw [List.map_cons]
    by_cases hj : j = i
    · subst hj
      rw [Net.toward_cons_self, ih hl, if_neg hi, if_pos (by simp)]
    · rw [Net.toward_cons_other hj, ih hl]
      simp [hj]

/-- The counter of the storing loop runs through the senders in their order. -/
theorem foldl_store {β : Type} (c : Fin n → Bool) (d : β) (g : Fin n → β) (outs : List β)
    (l : List (Fin n)) (v : Fin n → β) (done : List β) (h : outs = done ++ (l.filter c).map g) :
    (l.foldl (fun (p : (Fin n → β) × ℕ) i => if c i then
      (Function.update p.1 i (outs.getD p.2 d), p.2 + 1) else p)
      (v, done.length)).1 = fun i => if i ∈ l.filter c then g i else v i := by
  induction l generalizing v done with
  | nil =>
    funext i
    simp
  | cons j l ih =>
    rw [List.foldl_cons]
    by_cases hj : c j = true
    · rw [List.filter_cons_of_pos hj, List.map_cons] at h
      have hget : outs.getD done.length d = g j := by
        rw [h]
        simp
      have hnext := ih (Function.update v j (g j)) (done ++ [g j]) (by simpa using h)
      simp only [List.length_append, List.length_singleton] at hnext
      rw [if_pos hj, hget, hnext, List.filter_cons_of_pos hj]
      funext i
      by_cases hi : i = j
      · subst hi
        simp
      · simp [hi]
    · rw [List.filter_cons_of_neg hj] at h
      rw [if_neg hj, ih v done h, List.filter_cons_of_neg hj]

theorem storeReceived_eq (self : Fin n) (set : PartySet) (g v : Fin n → List Octet) (i : Fin n) :
    storeReceived self set ((peerRoles self set).map g) v i = if i ∈
      peerRoles self set then g i else v i :=
  congrFun (foldl_store _ [] g _ (List.finRange n) v [] rfl) i

/-- Everyone waits for those that send to it. -/
def SetsMatch (toSet fromSet : Fin n → PartySet) : Prop :=
  ∀ i j : Fin n, i ≠ j → ((toSet i).has j = true ↔ (fromSet j).has i = true)

/-- The parties send buffers by one family of sets and wait by another one. -/
structure Started {S : Type} (p : Fin n → Pending n S) (toSet fromSet : Fin n → PartySet)
    (bufs : Fin n → Fin n → List Octet) :
    Prop where
  sends : ∀ i, (p i).sends = sendToParties i (toSet i) (bufs i)
  awaits : ∀ i, (p i).awaits = peerRoles i (fromSet i)

section Runs

variable {S : Type} {p : Fin n → Pending n S} {toSet fromSet : Fin n → PartySet}
  {bufs : Fin n → Fin n → List Octet}

theorem Started.consistent (hp : Started p toSet fromSet bufs) (hn : n ≤ 64)
    (hmatch : SetsMatch toSet fromSet) :
    Net.Consistent (fun k i => if i ≠ k ∧ (toSet k).has i = true then some (bufs k i) else none)
      (Net.start (fun i => (p i).sends) fun i => (p i).awaits) := by
  refine Net.consistent_start (fun i => ?_) (fun k i => ?_) fun i k => ?_
  · rw [hp.awaits]
    exact (List.nodup_finRange n).filter _
  · rw [hp.sends, toward_sendToParties hn]
    split <;> rfl
  · rw [hp.awaits, mem_peerRoles hn]
    by_cases hne : k = i
    · simp [hne]
    · simp [hne, Ne.symm hne, hmatch k i hne]

/-- A party that is done holds the buffers of its senders, in the order in which it asked for
them. -/
theorem Started.outs_eq (hp : Started p toSet fromSet bufs) (hn : n ≤ 64)
    (hmatch : SetsMatch toSet fromSet) {s : Net (Fin n) (List Octet)}
    (hrun : Relation.ReflTransGen Net.Step (Net.start (fun i => (p i).sends) fun i =>
      (p i).awaits) s) {i : Fin n} (hi : s.Finished i) :
    outsOf (p i) s i = (peerRoles i (fromSet i)).map fun k => bufs k i := by
  have hs := (hp.consistent hn hmatch).run hrun
  rw [outsOf, hp.awaits]
  refine List.map_congr_left fun k hk => ?_
  obtain ⟨hne, hfrom⟩ := (mem_peerRoles hn).mp hk
  rw [hs.got_eq hi, if_pos ⟨Ne.symm hne, (hmatch k i hne).mpr hfrom⟩]
  rfl

/-- A call completes when everyone waits for those that send to it. -/
theorem Started.completes (hp : Started p toSet fromSet bufs) {call : Fin n → Outcome (Pending n S)}
    {post : Fin n → S → Prop} (hn : n ≤ 64) (hcall : ∀ i, call i = .ok (p i))
    (hmatch : SetsMatch toSet fromSet)
    (hfinish : ∀ i, ∃ m, (p i).finish ((peerRoles i (fromSet i)).map fun k => bufs k i) = .ok m ∧
      post i m) :
    Completes call post := by
  refine ⟨p, hcall, fun s hrun =>
    ⟨fun i hi => ?_, fun i hi => ?_, fun s' hstep => Net.todo_step hstep⟩⟩
  · rw [hp.outs_eq hn hmatch hrun hi]
    exact hfinish i
  · exact ((hp.consistent hn hmatch).run hrun).progress hi

end Runs

end Transport

section Calls

variable {L : CurveTable} {n : ℕ}

/-- The first half of `group_message`. -/
def groupSends (garbage : ℕ → Octet) (self : Fin n) (toSet : PartySet)
    (k : MsgKind) (m : k.Msg L n) :
    Outcome (List (Fin n × List Octet)) :=
  if toSet.isEmpty then .ok []
  else do
    let send ← packMsgs garbage toSet k m
    .ok (sendToParties self toSet send)

/-- `group_message` with a set of receivers and a set of senders. -/
def groupMessage (order : KeyOrder L) (garbage : ℕ → Octet) (self : Fin n)
    (toSet fromSet : PartySet) (k : MsgKind) (m : k.Msg L n) : Outcome (Pending n (k.Msg L n)) := do
  let sends ← groupSends garbage self toSet k m
  .ok {
    sends := sends
    awaits := if fromSet.isEmpty then [] else peerRoles self fromSet
    finish := fun outs => if fromSet.isEmpty then .ok m
      else unpackMsgs order self fromSet (storeReceived self fromSet outs fun _ => []) k m }

/-- What `group_message` leaves at a party: the contents of all senders, and everything else as
before. -/
structure GroupDelivered (i : Fin n) (fromSet : PartySet) (k : MsgKind) (before : Fin n → k.Msg L n)
    (after : k.Msg L n) : Prop where
  received : ∀ j : Fin n, fromSet.has j = true → receivedMsg i k after j = content k (before j) i
  slots : ∀ j : Fin n, j = i ∨ fromSet.has j = false → slot k after j = slot k (before i) j
  outgoing_eq : outgoing k after = outgoing k (before i)

theorem groupDelivered_fill (i : Fin n) (fromSet : PartySet) (k : MsgKind) (m : Fin n → k.Msg L n) :
    GroupDelivered i fromSet k m
      (fill k (m i) ((List.finRange n).filter fun j : Fin n => fromSet.has j && decide (j ≠ i))
      fun j => content k (m j) i) where
  received j hj := by
    by_cases hne : j = i
    · subst hne
      exact receivedMsg_fill_self (m j) _ (by simp)
    · exact receivedMsg_fill (m i) (fun j => content k (m j) i) hne (by simp [hj, hne])
  slots j hj := slot_fill (m i) _ (by rcases hj with rfl | hj <;> simp [*])
  outgoing_eq := outgoing_fill (m i) _ _

/-- The tests for empty sets only skip loops that do nothing. -/
theorem groupMessage_ok {order : KeyOrder L} {garbage : ℕ → Octet} {self : Fin n}
    {toSet : PartySet} (fromSet : PartySet) {k : MsgKind} {m : k.Msg L n} (hn : n ≤ 64)
    {bufs : Fin n → List Octet} (h : packMsgs garbage toSet k m = .ok bufs) :
    groupMessage order garbage self toSet fromSet k m = .ok {
      sends := sendToParties self toSet bufs
      awaits := peerRoles self fromSet
      finish := fun outs => unpackMsgs order self fromSet
        (storeReceived self fromSet outs fun _ => []) k m } := by
  have hnone : ∀ set : PartySet, set.isEmpty = true → peerRoles self set = [] := fun set hset => by
    refine List.eq_nil_iff_forall_not_mem.mpr fun i hi => ?_
    have hhas := ((mem_peerRoles hn).mp hi).2
    rw [PartySet.has_of_isEmpty hset] at hhas
    cases hhas
  have hsends : groupSends garbage self toSet k m = .ok (sendToParties self toSet bufs) := by
    rw [groupSends]
    by_cases hto : toSet.isEmpty = true
    · rw [if_pos hto]
      exact congrArg Except.ok (congrArg (List.map _) (hnone toSet hto)).symm
    · rw [if_neg hto, h]
      rfl
  rw [groupMessage, hsends, ok_bind]
  by_cases hfrom : fromSet.isEmpty = true
  · have hfinish : (fun _ : List (List Octet) => (.ok m : Outcome (k.Msg L n))) =
        fun outs => unpackMsgs order self fromSet
          (storeReceived self fromSet outs fun _ => []) k m := by
      funext outs
      have hskip : ∀ (i : Fin n) x, (if !fromSet.has i || decide (i = self) then .ok x
          else unpackMsgsForParty order self k x i
            (storeReceived self fromSet outs (fun _ => []) i)) = .ok x :=
        fun i x => if_pos (by rw [PartySet.has_of_isEmpty hfrom]; rfl)
      unfold unpackMsgs
      simp only [hskip]
      induction List.finRange n with
      | nil => rfl
      | cons i l ih => exact ih
    simp only [hfrom, if_true, hnone fromSet hfrom, hfinish]
  · simp only [hfrom, if_false, Bool.false_eq_true]

/-- All parties that make the same call get the contents of their senders. -/
theorem groupMessage_completes {order : KeyOrder L} {garbage : ℕ → Octet} (hn : n ≤ 64)
    (toSet fromSet : Fin n → PartySet) (hmatch : SetsMatch toSet fromSet)
    (k : MsgKind) (m : Fin n → k.Msg L n) (h : ∀ i, Deliverable order garbage i (toSet i) k (m i)) :
    Completes (fun i => groupMessage order garbage i (toSet i) (fromSet i) k (m i)) fun i =>
      GroupDelivered i (fromSet i) k m := by
  choose bufs hpack hbufs _ _ using fun i => packMsgs_ok (h i)
  refine Started.completes (⟨fun _ => rfl, fun _ => rfl⟩ : Started _ toSet fromSet bufs) hn
    (fun i => groupMessage_ok (fromSet i) hn (hpack i)) hmatch
    fun i => ⟨_, unpackMsgs_ok (v := fun j => content k (m j) i) (fun j hne hj => ?_) (m i),
    groupDelivered_fill i _ k m⟩
  have hto := (hmatch j i hne).mpr hj
  rw [storeReceived_eq, if_pos ((mem_peerRoles hn).mpr ⟨hne, hj⟩), hbufs j i hne.symm hto]
  exact ⟨rfl, (h j).other i hne.symm hto⟩

end Calls

end CbMpc
