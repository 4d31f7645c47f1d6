import CbMpc.AcHonest
import CbMpc.OtExtension

/-!
# Committed broadcast and agreement on random strings

The first round carries commitments. The second one carries the openings and a hash of all
commitments that were received, so two parties that accept have seen the same commitments. The
contributions to a random string are added by an assignment that asserts equal sizes.
-/
namespace CbMpc

open BitString

/-- A value, and the coins of its commitment. -/
structure BroadcastParty (V R : Type) where
  value : V
  comRand : R
  localSid : Bytes

/-- The second message of `committed_group_broadcast`. -/
structure BroadcastMsg (V D R : Type) where
  v : D
  comRand : R
  value : V

section Broadcast

variable {n : ℕ} {E D R P V : Type} [DecidableEq D] (o : Oracles E D R P)
  (items : V → List (Item E D P)) (job : Job n)

def broadcastCom (i : Fin n) (me : BroadcastParty V R) : ComBuf D :=
  comGen o [] (o.pid (job.names i)) me.comRand me.localSid (items me.value)

/-- The hash of all commitments that a party holds. -/
def echo (cs : Fin n → ComBuf D) : D := o.sha256 [.bufs ((List.finRange n).map cs)]

def broadcastMsg (me : BroadcastParty V R) (cs : Fin n → ComBuf D) : BroadcastMsg V D R :=
  ⟨echo o cs, me.comRand, me.value⟩

/-- What a party has ready for the second round. -/
def broadcastSecond (i : Fin n) (me : BroadcastParty V R) (in1 : Inbox n (ComBuf D)) :
    Outcome (BroadcastMsg V D R) := do
  let cs ← received i (broadcastCom o items job i me) in1
  .ok (broadcastMsg o me cs)

/-- The tests of the loop. -/
def openReceived (i : Fin n) (cs : Fin n → ComBuf D) (ms : Fin n → BroadcastMsg V D R)
    (j : Fin n) : Outcome Unit := do
  require (decide ((ms i).v = (ms j).v)) .crypto
  comOpen o [] (o.pid (job.names j)) (ms j).comRand (cs j) (items (ms j).value)

/-- `committed_group_broadcast`, with the values that `received` then gives. -/
def committedGroupBroadcast (i : Fin n) (me : BroadcastParty V R) (in1 : Inbox n (ComBuf D))
    (in2 : Inbox n (BroadcastMsg V D R)) : Outcome (Fin n → V) := do
  let cs ← received i (broadcastCom o items job i me) in1
  let ms ← received i (broadcastMsg o me cs) in2
  forEach (openReceived o items job i cs ms) (List.finRange n)
  .ok fun j => (ms j).value

/-- Honest parties send what they have ready; all else is up to the others. -/
structure BroadcastRun (me : Fin n → BroadcastParty V R) (honest : Finset (Fin n))
    (in1 : Fin n → Inbox n (ComBuf D)) (in2 : Fin n → Inbox n (BroadcastMsg V D R)) : Prop where
  round1 : Delivered honest (fun k _ => .ok (broadcastCom o items job k (me k))) in1
  round2 : Delivered honest (fun k _ => broadcastSecond o items job k (me k) (in1 k)) in2

variable {o items job}

theorem broadcast_ok {i : Fin n} {me : BroadcastParty V R} {in1 : Inbox n (ComBuf D)}
    {in2 : Inbox n (BroadcastMsg V D R)} {vs : Fin n → V}
    (h : committedGroupBroadcast o items job i me in1 in2 = .ok vs) :
    ∃ cs ms, received i (broadcastCom o items job i me) in1 = .ok cs ∧
    received i (broadcastMsg o me cs) in2 = .ok ms ∧
      (∀ j, openReceived o items job i cs ms j = .ok ()) ∧ vs = fun j => (ms j).value := by
  obtain ⟨cs, hcs, h⟩ := bind_ok_iff.mp h
  obtain ⟨ms, hms, h⟩ := bind_ok_iff.mp h
  obtain ⟨u, hall, h⟩ := bind_ok_iff.mp h
  cases h
  exact ⟨cs, ms, hcs, hms, fun j => forEach_ok_iff.mp hall j (List.mem_finRange j), rfl⟩

theorem openReceived_ok {i j : Fin n} {cs : Fin n → ComBuf D} {ms : Fin n → BroadcastMsg V D R}
    (h : openReceived o items job i cs ms j = .ok ()) : (ms i).v = (ms j).v ∧
      comOpen o [] (o.pid (job.names j)) (ms j).comRand (cs j) (items (ms j).value) = .ok () := by
  obtain ⟨hv, hopen⟩ := require_bind_ok_iff.mp h
  exact ⟨of_decide_eq_true hv, hopen⟩

omit [DecidableEq D] in
theorem echo_injective (ho : o.Injective) {cs cs' : Fin n → ComBuf D}
    (h : echo o cs = echo o cs') : cs = cs' := by
  have hlist := ho.sha256_inj _ _ h
  simp only [List.cons.injEq, Item.bufs.injEq, and_true] at hlist
  funext j
  exact List.map_inj_left.mp hlist j (List.mem_finRange j)

/-- Every message that a successful party tests carries the hash of the commitments that it
holds. -/
theorem hash_eq_echo {i : Fin n} {me : BroadcastParty V R} {cs : Fin n → ComBuf D}
    {in2 : Inbox n (BroadcastMsg V D R)} {ms : Fin n → BroadcastMsg V D R}
    (hms : received i (broadcastMsg o me cs) in2 = .ok ms)
    (hall : ∀ j, openReceived o items job i cs ms j = .ok ()) (j : Fin n) :
    (ms j).v = echo o cs := by
  rw [← (openReceived_ok (hall j)).1, (received_ok hms).1]
  rfl

section Run

variable {me : Fin n → BroadcastParty V R} {honest : Finset (Fin n)}
  {in1 : Fin n → Inbox n (ComBuf D)} {in2 : Fin n → Inbox n (BroadcastMsg V D R)}

/-- Two successful parties have received the same commitments, since the hash of one reaches the
other. -/
theorem commitments_eq (ho : o.Injective) (hrun : BroadcastRun o items job me honest in1 in2)
    {p r : Fin n} (hp : p ∈ honest) (hr : r ∈ honest) {cs cs' : Fin n → ComBuf D}
    {ms : Fin n → BroadcastMsg V D R}
    (hcs : received p (broadcastCom o items job p (me p)) (in1 p) = .ok cs)
    (hms : received p (broadcastMsg o (me p) cs) (in2 p) = .ok ms)
    (hall : ∀ j, openReceived o items job p cs ms j = .ok ())
    (hcs' : received r (broadcastCom o items job r (me r)) (in1 r) = .ok cs') : cs = cs' := by
  by_cases hrp : r = p
  · subst hrp
    exact Except.ok.inj (hcs.symm.trans hcs')
  · obtain ⟨-, msgs, hin, hms'⟩ := received_ok hms
    obtain ⟨c, hc, hsent⟩ := bind_ok_iff.mp (hrun.round2 p hp msgs hin r hr hrp)
    obtain rfl : cs' = c := Except.ok.inj (hcs'.symm.trans hc)
    have hmsg : ms r = broadcastMsg o (me r) cs' := (hms' r hrp).trans (Except.ok.inj hsent).symm
    have hecho := hash_eq_echo hms hall r
    rw [hmsg] at hecho
    exact (echo_injective ho hecho).symm

/-- Two honest parties that succeed hold the same values. -/
theorem broadcast_agree (ho : o.Injective) (hitems : Function.Injective items)
    (hrun : BroadcastRun o items job me honest in1 in2) {p r : Fin n} (hp : p ∈ honest)
    (hr : r ∈ honest) {vs vs' : Fin n → V}
    (h : committedGroupBroadcast o items job p (me p) (in1 p) (in2 p) = .ok vs)
    (h' : committedGroupBroadcast o items job r (me r) (in1 r) (in2 r) = .ok vs') : vs = vs' := by
  obtain ⟨cs, ms, hcs, hms, hall, rfl⟩ := broadcast_ok h
  obtain ⟨cs', ms', hcs', hms', hall', rfl⟩ := broadcast_ok h'
  obtain rfl := commitments_eq ho hrun hp hr hcs hms hall hcs'
  funext j
  exact hitems (comOpen_binding ho (openReceived_ok (hall j)).2 (openReceived_ok (hall' j)).2).2

end Run

/-- A broadcast among honest parties delivers what they sent. -/
theorem broadcast_honest (me : Fin n → BroadcastParty V R) (i : Fin n) :
    committedGroupBroadcast o items job i (me i) (.ok fun k => broadcastCom o items job k (me k))
      (.ok fun k => broadcastMsg o (me k) fun k => broadcastCom o items job k (me k)) =
        .ok fun k => (me k).value := by
  have hown : ∀ {α : Type} (msgs : Fin n → α),
      received i (msgs i) (.ok msgs) = .ok msgs := fun msgs => by
    rw [received, Function.update_eq_self]
  have hall : forEach (openReceived o items job i (fun k => broadcastCom o items job k (me k))
      fun k => broadcastMsg o (me k) fun k => broadcastCom o items job k (me k)) (List.finRange n) =
        .ok () := by
    refine forEach_ok_iff.mpr fun j _ => require_bind_ok_iff.mpr ⟨decide_eq_true rfl, ?_⟩
    exact comOpen_comGen o [] _ _ _ _
  rw [committedGroupBroadcast, hown fun k => broadcastCom o items job k (me k), ok_bind,
    hown fun k => broadcastMsg o (me k) fun k => broadcastCom o items job k (me k), ok_bind, hall]
  rfl

variable (o items job)

/-- What a commitment of a party can be opened to, if anything. -/
noncomputable def committedValue (j : Fin n) (com : ComBuf D) : Option V :=
  open Classical in
  if h : ∃ v rand, comOpen o [] (o.pid (job.names j)) rand com (items v) =
    .ok () then some h.choose else none

variable {o items job}

theorem committedValue_eq (ho : o.Injective) (hitems : Function.Injective items) {j : Fin n}
    {com : ComBuf D} {rand : R} {v : V}
    (h : comOpen o [] (o.pid (job.names j)) rand com (items v) = .ok ()) :
    committedValue o items job j com = some v := by
  have hex : ∃ v rand, comOpen o [] (o.pid (job.names j)) rand com (items v) = .ok () :=
    ⟨v, rand, h⟩
  obtain ⟨rand', hchoose⟩ := hex.choose_spec
  rw [committedValue, dif_pos hex, hitems (comOpen_binding ho hchoose h).2]

/-- The first message of a party fixes the value that can be accepted from it. -/
theorem broadcast_determined (ho : o.Injective) (hitems : Function.Injective items) {i : Fin n}
    {me : BroadcastParty V R} {in1 : Inbox n (ComBuf D)}
    {in2 : Inbox n (BroadcastMsg V D R)} {vs : Fin n → V}
    (h : committedGroupBroadcast o items job i me in1 in2 = .ok vs) {j : Fin n} (hj : j ≠ i) :
    ∃ msgs, in1 = .ok msgs ∧ committedValue o items job j (msgs j) = some (vs j) := by
  obtain ⟨cs, ms, hcs, -, hall, rfl⟩ := broadcast_ok h
  obtain ⟨-, msgs, hin, heq⟩ := received_ok hcs
  refine ⟨msgs, hin, ?_⟩
  rw [← heq j hj]
  exact committedValue_eq ho hitems (openReceived_ok (hall j)).2

theorem returns_broadcast (i : Fin n) (me : BroadcastParty V R) (in1 : Inbox n (ComBuf D))
    (in2 : Inbox n (BroadcastMsg V D R)) :
    Returns (committedGroupBroadcast o items job i me in1 in2) := by
  have hreceived : ∀ {α : Type} (own : α) (inbox : Inbox n α),
      Returns (received i own inbox) := fun own inbox => by
    cases inbox with
    | error rv => exact returns_fail rv
    | ok msgs => exact returns_ok _
  refine returns_bind_iff.mpr ⟨hreceived _ _, fun cs _ =>
      returns_bind_iff.mpr ⟨hreceived _ _, fun ms _ =>
    returns_bind_iff.mpr ⟨returns_forEach fun j _ => ?_, fun _ _ => returns_ok _⟩⟩⟩
  exact returns_bind_iff.mpr ⟨returns_require _ _, fun _ _ => returns_comOpen _ _ _ _ _ _⟩

end Broadcast

section AgreeRandom

/-- `gen_random_bitlen`, from a source of random bytes. -/
def genRandomBitlen (coins : ℕ → Byte) (bitlen : ℤ) : Outcome (List Byte) := do
  cbAssert (decide (0 ≤ bitlen))
  .ok ((List.range (bitsToBytes bitlen.toNat)).map coins)

/-- The coins of a party. -/
structure AgreeParty (R : Type) where
  coins : ℕ → Byte
  comRand : R
  localSid : Bytes

variable {n : ℕ} {E D R P : Type} [DecidableEq D] (o : Oracles E D R P) (job : Job n)

/-- A buffer as an argument of a hash. -/
def bufItem (v : List Byte) : List (Item E D P) := [.bytes (v.map BitVec.toFin)]

/-- `multi_agree_random`. -/
def multiAgreeRandom (i : Fin n) (t : ℤ) (me : AgreeParty R) (in1 : Inbox n (ComBuf D))
    (in2 : Inbox n (BroadcastMsg (List Byte) D R)) : Outcome (List Byte) := do
  let r ← genRandomBitlen me.coins t
  let vs ← committedGroupBroadcast o bufItem job i ⟨r, me.comRand, me.localSid⟩ in1 in2
  ((List.finRange n).filter (· ≠ i)).foldlM (fun out j => xorBuf out (vs j)) r

/-- The party of the broadcast inside. -/
def AgreeParty.broadcast (t : ℤ) (me : AgreeParty R) : BroadcastParty (List Byte) R :=
  ⟨(List.range (bitsToBytes t.toNat)).map me.coins, me.comRand, me.localSid⟩

variable {o job}

omit [DecidableEq D] in
theorem bufItem_injective : Function.Injective (bufItem : List Byte → List (Item E D P)) := by
  intro v w h
  simp only [bufItem, List.cons.injEq, Item.bytes.injEq, and_true] at h
  exact List.map_injective_iff.mpr (fun a b hab => BitVec.eq_of_toFin_eq hab) h

theorem xor_right_comm (a b c : List Byte) :
    BitString.xor (BitString.xor a b) c = BitString.xor (BitString.xor a c) b := by
  apply List.ext_getElem
  · simp only [length_xor]
    omega
  · intro k h1 h2
    simp only [BitString.xor, List.getElem_zipWith]
    ac_rfl

/-- The sum of contributions of one size; another size is an assertion. -/
theorem foldlM_xorBuf {ι : Type} (f : ι → List Byte) (l : List ι) (r : List Byte) :
    l.foldlM (fun out j => xorBuf out (f j)) r = if ∀ j ∈ l, (f j).length = r.length then
      .ok (l.foldl (fun out j => BitString.xor out (f j)) r) else throwing .assertionFailed := by
  induction l generalizing r with
  | nil =>
    rw [if_pos (by simp)]
    rfl
  | cons j l ih =>
    rw [List.foldlM_cons]
    by_cases hj : r.length = (f j).length
    · have hlen : (BitString.xor r (f j)).length = r.length := by rw [length_xor, ← hj, min_self]
      rw [xorBuf_eq hj, ok_bind, ih, hlen, List.foldl_cons]
      simp only [List.forall_mem_cons, ← hj, true_and]
    · have hthrow : xorBuf r (f j) = throwing .assertionFailed := by
        rw [xorBuf, decide_eq_false hj]
        rfl
      rw [hthrow, if_neg fun hall => hj (hall j (by simp)).symm]
      rfl

/-- The sum does not depend on which contribution is the own one. -/
theorem foldl_xor_others (vs : Fin n → List Byte) (i : Fin n) {size : ℕ}
    (hlen : (vs i).length = size) :
    ((List.finRange n).filter (· ≠ i)).foldl (fun out j => BitString.xor out (vs j)) (vs i) =
      (List.finRange n).foldl (fun out j => BitString.xor out (vs j)) (List.replicate size 0) := by
  have hperm : (i :: (List.finRange n).filter (· ≠ i)).Perm (List.finRange n) := by
    refine (List.perm_ext_iff_of_nodup ?_ (List.nodup_finRange n)).mpr fun j => ?_
    · exact List.nodup_cons.mpr ⟨by simp, (List.nodup_finRange n).filter _⟩
    · by_cases h : j = i <;> simp [h]
  have hcomm : RightCommutative fun (out : List Byte) j => BitString.xor out (vs j) :=
    ⟨fun a j k => xor_right_comm a (vs j) (vs k)⟩
  have hstart : BitString.xor (List.replicate size 0) (vs i) = vs i := by
    rw [BitString.xor_comm, ← hlen, xor_zeroes]
  rw [← hperm.foldl_eq, List.foldl_cons, hstart]

theorem length_broadcast_value (t : ℤ) (me : AgreeParty R) :
    (me.broadcast t).value.length = bitsToBytes t.toNat := by
  simp [AgreeParty.broadcast]

/-- Behind the broadcast the sizes are asserted. -/
theorem multiAgreeRandom_eq (i : Fin n) {t : ℤ} (ht : 0 ≤ t) (me : AgreeParty R)
    (in1 : Inbox n (ComBuf D)) (in2 : Inbox n (BroadcastMsg (List Byte) D R)) :
    multiAgreeRandom o job i t me in1 in2 =
      (committedGroupBroadcast o bufItem job i (me.broadcast t) in1 in2 >>= fun vs =>
        if ∀ j, j ≠ i → (vs j).length = bitsToBytes t.toNat then
          .ok (((List.finRange n).filter (· ≠ i)).foldl (fun out j =>
            BitString.xor out (vs j)) (me.broadcast t).value)
        else throwing .assertionFailed) := by
  have hgen : genRandomBitlen me.coins t = .ok (me.broadcast t).value := by
    rw [genRandomBitlen, decide_eq_true ht]
    rfl
  have hloop : ∀ vs : Fin n → List Byte,
      ((List.finRange n).filter (· ≠ i)).foldlM (fun out j => xorBuf out (vs j))
      (me.broadcast t).value = if ∀ j, j ≠ i → (vs j).length = bitsToBytes t.toNat then
        .ok (((List.finRange n).filter (· ≠ i)).foldl (fun out j =>
          BitString.xor out (vs j)) (me.broadcast t).value)
      else throwing .assertionFailed := fun vs => by
    rw [foldlM_xorBuf, length_broadcast_value]
    simp
  rw [multiAgreeRandom, hgen, ok_bind]
  exact congrArg (committedGroupBroadcast o bufItem job i (me.broadcast t) in1 in2 >>= ·)
    (funext hloop)

theorem multiAgreeRandom_ok {i : Fin n} {t : ℤ} (ht : 0 ≤ t) {me : AgreeParty R}
    {in1 : Inbox n (ComBuf D)} {in2 : Inbox n (BroadcastMsg (List Byte) D R)} {out : List Byte}
    (h : multiAgreeRandom o job i t me in1 in2 = .ok out) :
    ∃ vs, committedGroupBroadcast o bufItem job i (me.broadcast t) in1 in2 = .ok vs ∧
      out = (List.finRange n).foldl (fun out j => BitString.xor out (vs j))
        (List.replicate (bitsToBytes t.toNat) 0) := by
  rw [multiAgreeRandom_eq i ht] at h
  obtain ⟨vs, hvs, h⟩ := bind_ok_iff.mp h
  refine ⟨vs, hvs, ?_⟩
  have hown : vs i = (me.broadcast t).value := by
    obtain ⟨cs, ms, -, hms, -, rfl⟩ := broadcast_ok hvs
    exact congrArg BroadcastMsg.value (received_ok hms).1
  split_ifs at h with hsizes
  · rw [← foldl_xor_others vs i (by rw [hown, length_broadcast_value]), hown]
    exact (Except.ok.inj h).symm
  · cases h

/-- What a contribution of a wrong size does: the party throws when all openings check, and
otherwise returns an error. -/
theorem wrong_size_iff (i : Fin n) {t : ℤ} (ht : 0 ≤ t) (me : AgreeParty R)
    (in1 : Inbox n (ComBuf D)) (in2 : Inbox n (BroadcastMsg (List Byte) D R)) :
    ((∃ msgs, in2 = .ok msgs ∧ ∃ j, j ≠ i ∧ (msgs j).value.length ≠ bitsToBytes t.toNat) →
        ∃ rv, multiAgreeRandom o job i t me in1 in2 = fail rv) ↔
      ∀ cs ms, received i (broadcastCom o bufItem job i (me.broadcast t)) in1 = .ok cs →
        received i (broadcastMsg o (me.broadcast t) cs) in2 = .ok ms →
        (∀ j, openReceived o bufItem job i cs ms j = .ok ()) →
        ∀ j, j ≠ i → (ms j).value.length = bitsToBytes t.toNat := by
  rw [multiAgreeRandom_eq i ht]
  constructor
  · intro h cs ms hcs hms hall j hj
    by_contra hlen
    obtain ⟨-, msgs, hin, heq⟩ := received_ok hms
    obtain ⟨rv, hrv⟩ := h ⟨msgs, hin, j, hj, by rwa [← heq j hj]⟩
    have hbroadcast : committedGroupBroadcast o bufItem job i (me.broadcast t) in1 in2 =
        .ok fun j => (ms j).value := by
      rw [committedGroupBroadcast, hcs, ok_bind, hms, ok_bind, forEach_ok_iff.mpr fun j _ => hall j]
      rfl
    rw [hbroadcast, ok_bind, if_neg fun hsizes => hlen (hsizes j hj)] at hrv
    cases hrv
  · rintro h ⟨msgs, hin, j, hj, hlen⟩
    cases hb : committedGroupBroadcast o bufItem job i (me.broadcast t) in1 in2 with
    | ok vs =>
      obtain ⟨cs, ms, hcs, hms, hall, rfl⟩ := broadcast_ok hb
      obtain ⟨-, msgs', hin', heq⟩ := received_ok hms
      obtain rfl : msgs = msgs' := Except.ok.inj (hin.symm.trans hin')
      exact absurd (h cs ms hcs hms hall j hj) (by rwa [heq j hj])
    | error e =>
      cases e with
      | code rv => exact ⟨rv, rfl⟩
      | thrown e => exact absurd hb (returns_broadcast i _ in1 in2 e)

end AgreeRandom

/-- Honest parties that succeed hold the same values, of which each was fixed by the first message
of its sender, and agree on the same string. A contribution of a wrong size makes a party return an
error exactly when not all openings that it receives check. -/
theorem committed_broadcast_agreement {n : ℕ} {E D R P : Type} [DecidableEq D]
    {o : Oracles E D R P} (ho : o.Injective) (job : Job n) (honest : Finset (Fin n)) :
    (∀ (V : Type) (items : V → List (Item E D P)), Function.Injective items →
      (∀ me in1 in2, BroadcastRun o items job me honest in1 in2 → ∀ p ∈ honest,
        ∀ r ∈ honest, ∀ vs vs',
        committedGroupBroadcast o items job p (me p) (in1 p) (in2 p) = .ok vs →
        committedGroupBroadcast o items job r (me r) (in1 r) (in2 r) = .ok vs' → vs = vs') ∧
      ∃ opening : Fin n → ComBuf D → Option V, ∀ i me in1 in2 vs,
        committedGroupBroadcast o items job i me in1 in2 = .ok vs → ∀ j, j ≠ i →
          ∃ msgs, in1 = .ok msgs ∧ opening j (msgs j) = some (vs j)) ∧
    ∀ (t : ℤ) (me : Fin n → AgreeParty R) in1 in2, 0 ≤ t →
      (BroadcastRun o bufItem job (fun k => (me k).broadcast t) honest in1 in2 → ∀ p ∈ honest,
        ∀ r ∈ honest, ∀ out out',
        multiAgreeRandom o job p t (me p) (in1 p) (in2 p) = .ok out →
        multiAgreeRandom o job r t (me r) (in1 r) (in2 r) = .ok out' → out = out') ∧
      ∀ p, ((∃ msgs, in2 p = .ok msgs ∧ ∃ j, j ≠ p ∧ (msgs j).value.length ≠ bitsToBytes t.toNat) →
          ∃ rv, multiAgreeRandom o job p t (me p) (in1 p) (in2 p) = fail rv) ↔
        ∀ cs ms, received p (broadcastCom o bufItem job p ((me p).broadcast t)) (in1 p) = .ok cs →
          received p (broadcastMsg o ((me p).broadcast t) cs) (in2 p) = .ok ms →
          (∀ j, openReceived o bufItem job p cs ms j = .ok ()) →
          ∀ j, j ≠ p → (ms j).value.length = bitsToBytes t.toNat := by
  refine ⟨fun V items hitems => ⟨fun me in1 in2 hrun p hp r hr vs vs' h h' => ?_, ?_⟩,
      fun t me in1 in2 ht =>
    ⟨fun hrun p hp r hr out out' h h' => ?_, fun p => wrong_size_iff p ht (me p) (in1 p) (in2 p)⟩⟩
  · exact broadcast_agree ho hitems hrun hp hr h h'
  · exact ⟨committedValue o items job, fun i me in1 in2 vs h j hj =>
      broadcast_determined ho hitems h hj⟩
  · obtain ⟨vs, hvs, rfl⟩ := multiAgreeRandom_ok ht h
    obtain ⟨vs', hvs', rfl⟩ := multiAgreeRandom_ok ht h'
    rw [broadcast_agree ho bufItem_injective hrun hp hr hvs hvs']

section Examples

def pairNames : Fin 2 → PName := ![[97], [98]]

theorem pairNames_injective : Function.Injective pairNames := by decide

theorem pairNames_nonempty : ∀ i, pairNames i ≠ [] := by decide

def pairJob : Job 2 where
  names := pairNames
  names_injective := pairNames_injective
  names_nonempty := pairNames_nonempty
  two_le := Nat.le_refl 2

def agreeParty (i : Fin 2) : AgreeParty ℕ where
  coins _ := if i = 0 then 5 else 6
  comRand := i
  localSid := List.replicate 16 0

/-- A party that contributes two bytes where one is asked for. -/
def longParty : BroadcastParty (List Byte) ℕ := ⟨[1, 2], 1, List.replicate 16 0⟩

def pairComs (me : Fin 2 → BroadcastParty (List Byte) ℕ) : Fin 2 → ComBuf ℕ :=
  fun k => broadcastCom sampleOracles bufItem pairJob k (me k)

/-- The strings of two parties that receive everything. -/
def pairAgree (me : Fin 2 → BroadcastParty (List Byte) ℕ) (i : Fin 2) : Outcome (List Byte) :=
  multiAgreeRandom sampleOracles pairJob i 8 (agreeParty i) (.ok (pairComs me))
    (.ok fun k => broadcastMsg sampleOracles (me k) (pairComs me))

def honestPair : Fin 2 → BroadcastParty (List Byte) ℕ := fun k => (agreeParty k).broadcast 8

def longPair : Fin 2 → BroadcastParty (List Byte) ℕ :=
  fun k => if k = 0 then (agreeParty 0).broadcast 8 else longParty

/-- An honest broadcast of what the parties have leaves the sizes. -/
theorem pairAgree_eq {me : Fin 2 → BroadcastParty (List Byte) ℕ} {i : Fin 2}
    (hme : me i = (agreeParty i).broadcast 8) :
    pairAgree me i = if ∀ j, j ≠ i → (me j).value.length = bitsToBytes 8 then
      .ok (((List.finRange 2).filter (· ≠ i)).foldl (fun out j =>
        BitString.xor out (me j).value) (me i).value)
    else throwing .assertionFailed := by
  have hbroadcast : committedGroupBroadcast sampleOracles bufItem pairJob i (me i)
      (.ok fun k => broadcastCom sampleOracles bufItem pairJob k (me k))
      (.ok fun k => broadcastMsg sampleOracles (me k) fun k =>
        broadcastCom sampleOracles bufItem pairJob k (me k)) =
      .ok fun k => (me k).value := broadcast_honest me i
  rw [hme] at hbroadcast ⊢
  rw [pairAgree, multiAgreeRandom_eq i (by decide)]
  unfold pairComs
  rw [hbroadcast, ok_bind]
  rfl

/-- The second party commits to a string of two bytes and opens it: the first one throws. -/
theorem multi_agree_random_throws :
    (longPair 1).value.length ≠ bitsToBytes 8 ∧
    pairAgree longPair 0 = throwing .assertionFailed := by
  have hlen : (longPair 1).value.length ≠ bitsToBytes 8 := by decide
  refine ⟨hlen, ?_⟩
  rw [pairAgree_eq rfl, if_neg fun hall => hlen (hall 1 (by decide))]

theorem honestPair_run : BroadcastRun sampleOracles bufItem pairJob honestPair Finset.univ (fun _ =>
      .ok (pairComs honestPair))
    (fun _ => .ok fun k => broadcastMsg sampleOracles (honestPair k) (pairComs honestPair)) := by
  constructor
  · intro i _ msgs hmsgs k _ _
    cases hmsgs
    rfl
  · intro i _ msgs hmsgs k _ _
    cases hmsgs
    have hown : received k (broadcastCom sampleOracles bufItem pairJob k (honestPair k))
        (.ok (pairComs honestPair)) =
        .ok (pairComs honestPair) :=
          congrArg Except.ok (Function.update_eq_self k (pairComs honestPair))
    change (received k (broadcastCom sampleOracles bufItem pairJob k (honestPair k)) _ >>= _) = _
    rw [hown]
    rfl

theorem committed_broadcast_agreement_sample :
    ∃ out, pairAgree honestPair 0 = .ok out ∧ pairAgree honestPair 1 = .ok out := by
  have hok : ∀ i, ∃ out, pairAgree honestPair i = .ok out := fun i => by
    refine ⟨_, (pairAgree_eq rfl).trans (if_pos fun j _ => ?_)⟩
    exact length_broadcast_value 8 (agreeParty j)
  obtain ⟨out, h⟩ := hok 0
  obtain ⟨out', h'⟩ := hok 1
  obtain rfl :=
    ((committed_broadcast_agreement sampleOracles_injective pairJob Finset.univ).2 8
      agreeParty _ _ (by decide)).1
    honestPair_run 0 (Finset.mem_univ 0) 1 (Finset.mem_univ 1) out out' h h'
  exact ⟨out, h, h'⟩

end Examples

end CbMpc
