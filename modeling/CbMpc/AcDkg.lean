import CbMpc.Reconstruct
import CbMpc.AncestorCheck
import CbMpc.Messages

/-!
# Key generation and refresh along an access structure

`dkg_or_refresh_ac`, seen from one party, is a function of its own coins and of what
the rounds deliver to it. The parties of the quorum deal; all parties check the
dealings and add them up. A run puts the parties' inboxes together.
-/
namespace CbMpc

open Node

/-- `std::map::at`. -/
def mapAt {V : Type} (m : OrderedMap PName V) (name : PName) : Outcome V :=
  match m.find name with
  | none => throwing .outOfRange
  | some v => .ok v

/-- The lookup without its result. -/
def present {V : Type} (m : OrderedMap PName V) (name : PName) : Outcome Unit :=
  if (m.find name).isSome then .ok () else throwing .outOfRange

theorem mapAt_bind {E α : Type} [Zero E] (m : OrderedMap PName E)
    (name : PName) (f : E → Outcome α) :
    (mapAt m name >>= f) = (present m name >>= fun _ => f (pointAt m name)) := by
  cases h : m.find name <;> simp [mapAt, present, pointAt, h, throwing]

theorem mapAt_eq {V : Type} {m : OrderedMap PName V} {name : PName} {v : V}
    (h : m.find name = some v) :
    mapAt m name = .ok v := by rw [mapAt, h]

theorem mapAt_ok_iff {V : Type} {m : OrderedMap PName V} {name : PName} {v : V} :
    mapAt m name = .ok v ↔ m.find name = some v := by
  cases h : m.find name <;> simp [mapAt, h, throwing]

section Sid

variable {n : ℕ} {E D R P : Type}

/-- `bits_to_bytes(SEC_P_COM)`. -/
def sidBytes : ℕ := 16

/-- `generate_sid_fixed_mp`, from the contributions of all parties. -/
def generateSidFixedMp (o : Oracles E D R P) (i : Fin n) (mine : Bytes) (inbox : Inbox n Bytes) :
    Outcome Bytes := do
  let contributions ← received i mine inbox
  let all := (List.finRange n).map contributions
  require (all.all (fun c => c.length = sidBytes)) .format
  .ok ((o.digestBytes (o.sha256 [.bytesList all])).take sidBytes)

end Sid

/-- The arguments that all parties of a run are called with. -/
structure AcSession (q : ℕ) (E : Type) [AddCommGroup E] (n : ℕ) where
  job : Job n
  curve : Curve q E
  ac : Node
  quorum : Finset (Fin n)
  sid : Bytes
  isRefresh : Bool

/-- The key share a party brings and its coins. -/
structure AcParty (q : ℕ) (E R : Type) [AddCommGroup E] where
  key : KeyShareMp q E
  r : ZMod q
  rand : Rand q
  proofCoins : ℕ
  comRand : R
  localSid : Bytes
  sidPart : Bytes
  sidPart_length : sidPart.length = sidBytes

/-- What a party deals: its public map, the proof for it, the commitment and the
shares for all parties. -/
structure Dealing (n : ℕ) (E D P : Type) where
  acPub : OrderedMap PName E
  pi : P
  c : ComBuf D
  xij : Fin n → ℤ

/-- The message of the last round. -/
structure AcMsg (E D R P : Type) where
  hAll : D
  acPub : OrderedMap PName (WirePoint E)
  pi : P
  rho : R
  xij : ℤ

/-- The codec rejects a map that contains `infinity`. -/
def AcMsg.deserializes {E D R P : Type} [AddCommGroup E] [DecidableEq E]
    (m : AcMsg E D R P) : Bool :=
  m.acPub.values.all (fun R => decide (R ≠ .on 0))

section Session

variable {q n : ℕ} {E : Type} [AddCommGroup E]

def AcSession.quorumList (S : AcSession q E n) : List (Fin n) :=
  (List.finRange n).filter (· ∈ S.quorum)

/-- `quorum_pname_set`. -/
def AcSession.quorumNames (S : AcSession q E n) : Finset PName :=
  (S.quorumList.map S.job.names).toFinset

@[simp] theorem AcSession.mem_quorumList {S : AcSession q E n} {j : Fin n} :
    j ∈ S.quorumList ↔ j ∈ S.quorum := by simp [quorumList]

variable {D R P : Type}

/-- `quorum_pids`. -/
def AcSession.quorumPids (S : AcSession q E n) (o : Oracles E D R P) : List (ℕ × ℕ) :=
  S.quorumList.map (fun j => (j.val, o.pid (S.job.names j)))

def hConsistency (o : Oracles E D R P) (S : AcSession q E n) (sid : Bytes) : D :=
  o.sha256 [.bytes S.curve.name, .pids ((List.finRange n).map (fun j => o.pid (S.job.names j))),
    .pidMap (S.quorumPids o), .bytes sid]

/-- The hash of the dealers' commitments. -/
def hAll (o : Oracles E D R P) (S : AcSession q E n) (sid : Bytes) (cs : Fin n → ComBuf D) : D :=
  o.sha256 [.bufMap (S.quorumList.map (fun j => (j.val, cs j))),
    .pidMap (S.quorumPids o), .bytes sid]

end Session

section Party

variable {q n : ℕ} {E D R P : Type} [AddCommGroup E] [Module (ZMod q) E]
  [DecidableEq E] [DecidableEq D] [Inhabited R] [Inhabited P]

/-- The arguments of the commitment to a dealing: the points in map order, without
their names, and the proof. -/
def comArgs (Rs : List (WirePoint E)) (pi : P) : List (Item E D P) := [.points Rs, .proof pi]

/-- The dealing of a quorum party. On refresh the secret is 0, and the root, which is
the point at infinity, is left out of the map. -/
def deal (o : Oracles E D R P) (S : AcSession q E n) (sid : Bytes)
    (i : Fin n) (me : AcParty q E R) :
    Outcome (Dealing n E D P) := do
  let st ← shareWithInternals o.pid S.curve S.ac (if S.isRefresh then 0 else residue me.r) me.rand
  let acPub := if S.isRefresh then
    st.acInternalPubShares.erase S.ac.name else st.acInternalPubShares
  let rs ← acPub.keys.mapM (mapAt st.acInternalShares)
  let pi := o.proveBatchDl me.proofCoins acPub.values rs sid i
  .ok {
    acPub := acPub
    pi := pi
    c := comGen o [] (o.pid (S.job.names i)) me.comRand me.localSid
      (comArgs (acPub.values.map .on) pi)
    xij := fun j => (st.acShares.find (S.job.names j)).getD 0 }

/-- What a party outside the quorum sends in place of a dealing. -/
def noDealing : Dealing n E D P := ⟨.empty, default, .other [], fun _ => 0⟩

def ownDealing (o : Oracles E D R P) (S : AcSession q E n) (sid : Bytes)
    (i : Fin n) (me : AcParty q E R) :
    Outcome (Dealing n E D P) :=
  if i ∈ S.quorum then deal o S sid i me else .ok noDealing

/-- Argument checks and session id. -/
def acStart (o : Oracles E D R P) (S : AcSession q E n) (i : Fin n) (me : AcParty q E R)
    (in0 : Inbox n Bytes) : Outcome Bytes := do
  S.ac.validateTree
  require (S.ac.enoughForQuorum S.quorumNames) .badArg
  if S.sid.isEmpty then generateSidFixedMp o i me.sidPart in0 else .ok S.sid

/-- A party after the first exchange: the session id and its dealing. -/
def acDealing (o : Oracles E D R P) (S : AcSession q E n) (i : Fin n) (me : AcParty q E R)
    (in0 : Inbox n Bytes) (in1 : Inbox n D) : Outcome (Bytes × Dealing n E D P) := do
  let sid ← acStart o S i me in0
  let hs ← received i (hConsistency o S sid) in1
  forEach (fun j => require (decide (j = i ∨ hs j = hConsistency o S sid)) .crypto)
    (List.finRange n)
  let dealing ← ownDealing o S sid i me
  .ok (sid, dealing)

/-- A party before the last round. -/
structure AcState (n : ℕ) (E D P : Type) where
  sid : Bytes
  dealing : Dealing n E D P
  cs : Fin n → ComBuf D

def acCommitted (o : Oracles E D R P) (S : AcSession q E n) (i : Fin n) (me : AcParty q E R)
    (in0 : Inbox n Bytes) (in1 : Inbox n D) (in2 : Inbox n (ComBuf D)) :
    Outcome (AcState n E D P) := do
  let (sid, dealing) ← acDealing o S i me in0 in1
  let cs ← received i dealing.c in2
  .ok ⟨sid, dealing, cs⟩

/-- The last message of a party to party `j`. -/
def acMessage (o : Oracles E D R P) (S : AcSession q E n) (i : Fin n) (me : AcParty q E R)
    (st : AcState n E D P) (j : Fin n) : AcMsg E D R P where
  hAll := hAll o S st.sid st.cs
  acPub := st.dealing.acPub.mapValues .on
  pi := st.dealing.pi
  rho := if i ∈ S.quorum then me.comRand else default
  xij := st.dealing.xij j

/-- `h_all.received(representative_quorum_pid_index)`: the last dealer's hash. -/
def representativeHash (S : AcSession q E n) (ms : Fin n → AcMsg E D R P) : Option D :=
  S.quorumList.getLast?.map (fun j => (ms j).hAll)

/-- `ac_pub_all._j` as it is used: the party's own map, or a received one with its
points checked and, on refresh, with `infinity` put at the root. -/
def dealerMap (S : AcSession q E n) (i : Fin n) (own : OrderedMap PName E)
    (ms : Fin n → AcMsg E D R P) (j : Fin n) : OrderedMap PName E :=
  if j = i then own
  else if S.isRefresh then ((ms j).acPub.mapValues WirePoint.point).insert S.ac.name 0
  else (ms j).acPub.mapValues WirePoint.point

/-- The commitment, the curve and the proof of a received dealing. -/
def openDealing (o : Oracles E D R P) (S : AcSession q E n) (st : AcState n E D P)
    (ms : Fin n → AcMsg E D R P) (j : Fin n) : Outcome Unit := do
  let Rs := (ms j).acPub.values
  comOpen o [] (o.pid (S.job.names j)) (ms j).rho (st.cs j) (comArgs Rs (ms j).pi)
  forEach (fun R => do
    let _ ← curveCheck false R
    .ok ()) Rs
  match o.verifyBatchDl (Rs.map WirePoint.point) st.sid j (ms j).pi with
  | some rv => fail rv
  | none => .ok ()

/-- The checks of a received dealing. -/
def checkReceived (o : Oracles E D R P) (S : AcSession q E n) (i : Fin n) (st : AcState n E D P)
    (ms : Fin n → AcMsg E D R P) (j : Fin n) : Outcome Unit := do
  openDealing o S st ms j
  let pub := dealerMap S i st.dealing.acPub ms j
  let Qj ← mapAt pub S.ac.name
  verifyShareAgainstAncestorsPubData S.curve o.pid S.ac Qj (ms j).xij pub (S.job.names i)

omit [Inhabited R] [Inhabited P] in
theorem checkReceived_eq (o : Oracles E D R P) (S : AcSession q E n)
    (i : Fin n) (st : AcState n E D P) (ms : Fin n → AcMsg E D R P) (j : Fin n) :
    checkReceived o S i st ms j =
    (openDealing o S st ms j >>= fun _ =>
      mapAt (dealerMap S i st.dealing.acPub ms j) S.ac.name >>= fun Qj =>
      verifyShareAgainstAncestorsPubData S.curve o.pid S.ac Qj (ms j).xij
        (dealerMap S i st.dealing.acPub ms j) (S.job.names i)) := rfl

/-- One turn of the loop over the dealers. -/
def checkDealer (o : Oracles E D R P) (S : AcSession q E n) (i : Fin n) (st : AcState n E D P)
    (ms : Fin n → AcMsg E D R P) (j : Fin n) : Outcome Unit := do
  require (decide (some (ms j).hAll = representativeHash S ms)) .crypto
  if j = i then .ok () else checkReceived o S i st ms j

omit [Inhabited R] [Inhabited P] in
/-- What a dealing that passes has been tested for. -/
theorem checkDealer_ok {o : Oracles E D R P} {S : AcSession q E n}
    {i : Fin n} {st : AcState n E D P} {ms : Fin n → AcMsg E D R P} {j : Fin n}
    (h : checkDealer o S i st ms j = .ok ()) :
    some (ms j).hAll = representativeHash S ms ∧ (j ≠ i → openDealing o S st ms j = .ok () ∧
      ∃ Qj, (dealerMap S i st.dealing.acPub ms j).find S.ac.name = some Qj ∧
        verifyShareAgainstAncestorsPubData S.curve o.pid S.ac Qj (ms j).xij
          (dealerMap S i st.dealing.acPub ms j) (S.job.names i) = .ok ()) := by
  obtain ⟨hhash, hrest⟩ := require_bind_ok_iff.mp h
  refine ⟨by simpa using hhash, fun hji => ?_⟩
  rw [if_neg hji, checkReceived_eq] at hrest
  obtain ⟨u, hopen, hrest⟩ := bind_ok_iff.mp hrest
  obtain ⟨Qj, hroot, hverify⟩ := bind_ok_iff.mp hrest
  exact ⟨hopen, Qj, mapAt_ok_iff.mp hroot, hverify⟩

/-- The loop that adds up `Q` and `x_i`. -/
def addDealings (S : AcSession q E n) (pub : Fin n → OrderedMap PName E)
    (xs : Fin n → ℤ) : Outcome (E × ℤ) :=
  S.quorumList.foldlM (fun acc j => do
    let Q ← if S.isRefresh then .ok acc.1 else do
      let P ← mapAt (pub j) S.ac.name
      .ok (acc.1 + P)
    let x ← modAdd false q acc.2 (xs j)
    .ok (Q, x)) (0, 0)

/-- The loop that adds up `Qis`, which is kept by party index. -/
def addPublic (S : AcSession q E n) (pub : Fin n → OrderedMap PName E) : Outcome (Fin n → E) :=
  S.quorumList.foldlM (fun Qis j =>
    (List.finRange n).foldlM (fun Qis l => do
      let P ← mapAt (pub j) (S.job.names l)
      .ok (Function.update Qis l (Qis l + P))) Qis) (fun _ => 0)

/-- `new_key.Qis[name] += Qis[name]`: a missing entry is a default point, on which the
addition asserts. -/
def addToQis (S : AcSession q E n) (Qis : Fin n → E) (old : OrderedMap PName E) :
    Outcome (OrderedMap PName E) :=
  (List.finRange n).foldlM (fun m l =>
    match m.find (S.job.names l) with
    | none => throwing .assertionFailed
    | some P => .ok (m.insert (S.job.names l) (P + Qis l))) old

/-- The map of the points that a party holds for the other parties. -/
def qisMap (S : AcSession q E n) (start : OrderedMap PName E)
    (Qis : Fin n → E) : OrderedMap PName E :=
  start.insertEach S.job.names Qis (List.finRange n)

/-- The sums, their cross checks and the key that is returned. -/
def acOutput (o : Oracles E D R P) (S : AcSession q E n) (i : Fin n) (me : AcParty q E R)
    (pub : Fin n → OrderedMap PName E) (xs : Fin n → ℤ) : Outcome (KeyShareMp q E) := do
  let (Q, x) ← addDealings S pub xs
  let Qis ← addPublic S pub
  let reconstructedQ ← reconstructExponent q o.pid S.ac (qisMap S .empty Qis)
  require (decide (reconstructedQ = Q)) .crypto
  let X ← S.curve.mulToGenerator x
  require (decide (X = Qis i)) .crypto
  if S.isRefresh then do
    let xShare ← modAdd false q me.key.xShare x
    let newQis ← addToQis S Qis me.key.Qis
    let newQ ← reconstructExponent q o.pid S.ac newQis
    require (decide (newQ = me.key.Q)) .crypto
    .ok { me.key with xShare := xShare, Qis := newQis, partyName := S.job.names i }
  else
    .ok ⟨x, Q, qisMap S me.key.Qis Qis, S.curve, S.job.names i⟩

/-- `key_share_mp_t::dkg_or_refresh_ac` at party `i`. -/
def dkgOrRefreshAc (o : Oracles E D R P) (S : AcSession q E n) (i : Fin n) (me : AcParty q E R)
    (in0 : Inbox n Bytes) (in1 : Inbox n D) (in2 : Inbox n (ComBuf D))
    (in3 : Inbox n (AcMsg E D R P)) :
    Outcome (KeyShareMp q E) := do
  let st ← acCommitted o S i me in0 in1 in2
  let ms ← received i (acMessage o S i me st i) in3
  forEach (checkDealer o S i st ms) S.quorumList
  require (decide (i ∈ S.quorum ∨ representativeHash S ms = some (hAll o S st.sid st.cs))) .crypto
  acOutput o S i me (dealerMap S i st.dealing.acPub ms) (fun j => (ms j).xij)

/-- What the four rounds deliver to each party. -/
structure AcInboxes (n : ℕ) (E D R P : Type) where
  in0 : Fin n → Inbox n Bytes
  in1 : Fin n → Inbox n D
  in2 : Fin n → Inbox n (ComBuf D)
  in3 : Fin n → Inbox n (AcMsg E D R P)

variable (o : Oracles E D R P) (S : AcSession q E n) (me : Fin n → AcParty q E R)

/-- What party `i` sends to party `j` in each round, when it gets there. -/
def acSend0 (i _j : Fin n) : Outcome Bytes := do
  S.ac.validateTree
  require (S.ac.enoughForQuorum S.quorumNames) .badArg
  .ok (me i).sidPart

def acSend1 (in0 : Fin n → Inbox n Bytes) (i _j : Fin n) : Outcome D := do
  let sid ← acStart o S i (me i) (in0 i)
  .ok (hConsistency o S sid)

def acSend2 (in0 : Fin n → Inbox n Bytes) (in1 : Fin n → Inbox n D) (i _j : Fin n) :
    Outcome (ComBuf D) := do
  let st ← acDealing o S i (me i) (in0 i) (in1 i)
  .ok st.2.c

def acSend3 (in0 : Fin n → Inbox n Bytes) (in1 : Fin n → Inbox n D)
    (in2 : Fin n → Inbox n (ComBuf D)) (i j : Fin n) : Outcome (AcMsg E D R P) := do
  let st ← acCommitted o S i (me i) (in0 i) (in1 i) (in2 i)
  .ok (acMessage o S i (me i) st j)

/-- A run with honest parties `honest`; the other parties send whatever they like. -/
structure AcRun (honest : Finset (Fin n)) (run : AcInboxes n E D R P) : Prop where
  round0 : Delivered honest (acSend0 S me) run.in0
  round1 : Delivered honest (acSend1 o S me run.in0) run.in1
  round2 : Delivered honest (acSend2 o S me run.in0 run.in1) run.in2
  round3 : Delivered honest (acSend3 o S me run.in0 run.in1 run.in2) run.in3

/-- What party `i` returns in a run. -/
def acResult (run : AcInboxes n E D R P) (i : Fin n) : Outcome (KeyShareMp q E) :=
  dkgOrRefreshAc o S i (me i) (run.in0 i) (run.in1 i) (run.in2 i) (run.in3 i)

/-- The run in which all parties are honest; `rv` is the code of a failed round. -/
def honestIn0 (rv : ErrorCode) (i : Fin n) : Inbox n Bytes :=
  honestInbox (acSend0 S me) (fun _ => true) rv i (me i).sidPart

def honestIn1 (rv : ErrorCode) (i : Fin n) : Inbox n D :=
  honestInbox (acSend1 o S me (honestIn0 S me rv)) (fun _ => true) rv i (hConsistency o S [])

def honestIn2 (rv : ErrorCode) (i : Fin n) : Inbox n (ComBuf D) :=
  honestInbox (acSend2 o S me (honestIn0 S me rv) (honestIn1 o S me rv))
    (fun _ => true) rv i (.other [])

def honestIn3 (rv : ErrorCode) (i : Fin n) : Inbox n (AcMsg E D R P) :=
  honestInbox (acSend3 o S me (honestIn0 S me rv) (honestIn1 o S me rv) (honestIn2 o S me rv))
    AcMsg.deserializes rv i ⟨hConsistency o S [], .empty, default, default, 0⟩

def honestRun (rv : ErrorCode) : AcInboxes n E D R P :=
  ⟨honestIn0 S me rv, honestIn1 o S me rv, honestIn2 o S me rv, honestIn3 o S me rv⟩

variable [hq : Fact q.Prime] {S}

/-- What must hold of a dealing for the sums to be defined. -/
def addable (S : AcSession q E n) (pub : Fin n → OrderedMap PName E) (xs : Fin n → ℤ) (j : Fin n) :
    Outcome Unit := do
  if S.isRefresh then .ok () else present (pub j) S.ac.name
  cbAssert (isInRange q (xs j))

omit [Module (ZMod q) E] [DecidableEq E] in
theorem addDealings_eq (pub : Fin n → OrderedMap PName E) (xs : Fin n → ℤ) :
    addDealings S pub xs = (forEach (addable S pub xs) S.quorumList >>= fun _ => .ok
      (if S.isRefresh then 0 else (S.quorumList.map (fun j => pointAt (pub j) S.ac.name)).sum,
        residue (S.quorumList.map (fun j => (xs j : ZMod q))).sum)) := by
  have hstep := foldlM_guarded (I := fun acc : E × ℤ => isInRange q acc.2 = true)
    (f := fun acc j => do
      let Q ← if S.isRefresh then .ok acc.1 else do
        let P ← mapAt (pub j) S.ac.name
        .ok (acc.1 + P)
      let x ← modAdd false q acc.2 (xs j)
      .ok (Q, x))
    (t := addable S pub xs)
    (g := fun acc j => (if S.isRefresh then acc.1 else acc.1 + pointAt (pub j) S.ac.name,
      residue ((acc.2 : ZMod q) + (xs j : ZMod q))))
    (fun acc j hacc => by
      refine ⟨?_, isInRange_residue _⟩
      have hadd : modAdd false q acc.2 (xs j) = (cbAssert (isInRange q (xs j)) >>= fun _ =>
          .ok (residue ((acc.2 : ZMod q) + (xs j : ZMod q)))) := by
        simp [modAdd, modOp, check, hacc, emod_eq_residue]
      cases hr : S.isRefresh with
      | true => simp [addable, hr, hadd]
      | false =>
        simp only [addable, hr, hadd, mapAt_bind, Bool.false_eq_true, if_false,
          bind_assoc, ok_bind])
    S.quorumList (b := (0, 0)) (by simp [isInRange, hq.out.pos])
  refine hstep.trans ?_
  congr 1
  funext _
  have hfold : ∀ (l : List (Fin n)) (Q : E) (x : ZMod q),
      l.foldl (fun (acc : E × ℤ) j =>
        (if S.isRefresh then acc.1 else acc.1 + pointAt (pub j) S.ac.name,
        residue ((acc.2 : ZMod q) + (xs j : ZMod q)))) (Q, residue x) =
      (if S.isRefresh then Q else Q + (l.map (fun j => pointAt (pub j) S.ac.name)).sum,
        residue (x + (l.map (fun j => (xs j : ZMod q))).sum)) := by
    intro l
    induction l with
    | nil => intro Q x; cases S.isRefresh <;> simp
    | cons j l ih =>
      intro Q x
      rw [List.foldl_cons, cast_residue, ih]
      cases S.isRefresh <;> simp [add_assoc]
  have h := hfold S.quorumList 0 0
  rw [residue_zero] at h
  rw [h]
  cases S.isRefresh <;> simp

omit [Module (ZMod q) E] [DecidableEq E] [DecidableEq D] [Inhabited R] [Inhabited P] hq in
theorem representativeHash_eq {ms : Fin n → AcMsg E D R P} {h : D} (hne : S.quorumList ≠ [])
    (hms : ∀ j ∈ S.quorum, (ms j).hAll = h) : representativeHash S ms = some h := by
  rw [representativeHash, List.getLast?_eq_some_getLast hne, Option.map_some,
    hms _ (AcSession.mem_quorumList.mp (List.getLast_mem hne))]

omit [Module (ZMod q) E] [DecidableEq E] hq in
theorem addPublic_eq (pub : Fin n → OrderedMap PName E) :
    addPublic S pub =
      (forEach (fun j => forEach (fun l => present (pub j) (S.job.names l)) (List.finRange n))
      S.quorumList >>= fun _ =>
        .ok (fun l => (S.quorumList.map (fun j => pointAt (pub j) (S.job.names l))).sum)) := by
  -- one row: the points of one dealer are added to all parties' entries
  have hrow : ∀ j (Qis : Fin n → E), (List.finRange n).foldlM (fun Qis l => do
      let P ← mapAt (pub j) (S.job.names l)
      .ok (Function.update Qis l (Qis l + P))) Qis =
      (forEach (fun l => present (pub j) (S.job.names l)) (List.finRange n) >>= fun _ =>
        .ok (fun l => Qis l + pointAt (pub j) (S.job.names l))) := by
    intro j Qis
    rw [foldlM_guarded (I := fun _ => True) (t := fun l => present (pub j) (S.job.names l))
      (g := fun Qis l => Function.update Qis l (Qis l + pointAt (pub j) (S.job.names l)))
      (fun acc l _ => ⟨mapAt_bind _ _ _, trivial⟩) _ trivial]
    congr 1
    funext _
    have hfold : ∀ (ls : List (Fin n)) (Qis : Fin n → E), ls.Nodup →
        ls.foldl (fun Qis l => Function.update Qis l (Qis l + pointAt (pub j) (S.job.names l)))
          Qis =
        fun l => if l ∈ ls then Qis l + pointAt (pub j) (S.job.names l) else Qis l := by
      intro ls
      induction ls with
      | nil => intro Qis _; simp
      | cons k ls ih =>
        intro Qis hnd
        obtain ⟨hk, hnd⟩ := List.nodup_cons.mp hnd
        rw [List.foldl_cons, ih _ hnd]
        funext l
        by_cases hl : l = k
        · simp [hl, hk]
        · simp [hl]
    rw [hfold _ _ (List.nodup_finRange n)]
    simp
  rw [addPublic, foldlM_guarded (I := fun _ => True)
    (t := fun j => forEach (fun l => present (pub j) (S.job.names l)) (List.finRange n))
    (g := fun Qis j l => Qis l + pointAt (pub j) (S.job.names l)) (fun acc j _ =>
      ⟨hrow j acc, trivial⟩) _ trivial]
  congr 1
  funext _
  have hfold : ∀ (js : List (Fin n)) (Qis : Fin n → E),
      js.foldl (fun Qis j l => Qis l + pointAt (pub j) (S.job.names l)) Qis =
      fun l => Qis l + (js.map (fun j => pointAt (pub j) (S.job.names l))).sum := by
    intro js
    induction js with
    | nil => intro Qis; simp
    | cons j js ih =>
      intro Qis
      rw [List.foldl_cons, ih]
      funext l
      simp [add_assoc]
  rw [hfold]
  simp

omit [Module (ZMod q) E] [DecidableEq E] hq in
theorem addToQis_eq (Qis : Fin n → E) (old : OrderedMap PName E) :
    addToQis S Qis old = (forEach (fun l =>
        if (old.find (S.job.names l)).isSome then .ok () else
          throwing .assertionFailed) (List.finRange n) >>=
      fun _ => .ok (qisMap S old (fun l => pointAt old (S.job.names l) + Qis l))) := by
  rw [addToQis, foldlM_guarded
    (I := fun m => ∀ l, (m.find (S.job.names l)).isSome = (old.find (S.job.names l)).isSome)
    (t := fun l => if (old.find (S.job.names l)).isSome then .ok () else throwing .assertionFailed)
    (g := fun m l => if (old.find (S.job.names l)).isSome then
      m.insert (S.job.names l) (pointAt m (S.job.names l) + Qis l) else m) ?_ _ (fun _ => rfl)]
  · cases hall : forEach (fun l => if (old.find (S.job.names l)).isSome then .ok () else
      throwing .assertionFailed)
      (List.finRange n) with
    | error e => rfl
    | ok u =>
      have hsome := forEach_ok_iff.mp hall
      have hfold : ∀ (ls : List (Fin n)) (m : OrderedMap PName E), ls.Nodup →
          (∀ l ∈ ls, m.find (S.job.names l) = old.find (S.job.names l)) →
          ls.foldl (fun m l => if (old.find (S.job.names l)).isSome then
            m.insert (S.job.names l) (pointAt m (S.job.names l) + Qis l) else m) m =
          m.insertEach S.job.names (fun l => pointAt old (S.job.names l) + Qis l) ls := by
        intro ls
        induction ls with
        | nil => intro m _ _; rfl
        | cons l ls ih =>
          intro m hnd hm
          obtain ⟨hl, hnd⟩ := List.nodup_cons.mp hnd
          have hpoint : pointAt m (S.job.names l) = pointAt old (S.job.names l) := by
            rw [pointAt, hm l (by simp), pointAt]
          have hpresent : (old.find (S.job.names l)).isSome = true := by
            have h := hsome l (List.mem_finRange l)
            by_contra hc
            simp [hc, throwing] at h
          rw [List.foldl_cons, if_pos hpresent, hpoint]
          refine ih _ hnd fun k hk => ?_
          have hne : S.job.names k ≠ S.job.names l := fun he =>
            hl (S.job.names_injective he ▸ hk)
          rw [OrderedMap.find_insert, if_neg hne, hm k (by simp [hk])]
      simp only [ok_bind]
      rw [hfold _ _ (List.nodup_finRange n) (fun _ _ => rfl)]
      rfl
  · intro m l hm
    have hl := hm l
    cases hfind : m.find (S.job.names l) with
    | none =>
      rw [hfind] at hl
      have hnone : (old.find (S.job.names l)).isSome = false := by simpa using hl.symm
      exact ⟨by simp [hnone, throwing], by simpa [hnone] using hm⟩
    | some P =>
      rw [hfind] at hl
      have hsome : (old.find (S.job.names l)).isSome = true := by simpa using hl.symm
      refine ⟨by simp [hsome, pointAt, hfind], fun k => ?_⟩
      by_cases hk : S.job.names k = S.job.names l
      · simp [hsome, hk]
      · simp [hsome, hk, hm k]

end Party

end CbMpc
