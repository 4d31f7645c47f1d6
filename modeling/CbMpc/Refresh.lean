import CbMpc.Dkg
import CbMpc.OtMultiply

/-!
# Refresh by n parties

`key_share_mp_t::refresh` at one party. Every pair of parties exchanges two masks,
which the party with the larger index adds and the other one subtracts; all points
`Qis` are updated from the committed points of the masks.
-/
namespace CbMpc

section Mask

variable {n : ℕ} {M N : Type} [AddCommGroup M] [AddCommGroup N]

/-- What the pair `(j, l)` contributes at `j`. -/
def maskTerm (a : Fin n → Fin n → M) (j l : Fin n) : M :=
  if l = j then 0 else if l < j then a j l + a l j else -(a j l + a l j)

/-- What all pairs contribute at `j`. -/
def mask (a : Fin n → Fin n → M) (j : Fin n) : M := ((List.finRange n).map (maskTerm a j)).sum

theorem maskTerm_antisymm (a : Fin n → Fin n → M) (j l : Fin n) :
    maskTerm a j l = -maskTerm a l j := by
  unfold maskTerm
  rcases lt_trichotomy l j with h | h | h
  · rw [if_neg h.ne, if_pos h, if_neg h.ne', if_neg h.not_gt, neg_neg, add_comm]
  · simp [h]
  · rw [if_neg h.ne', if_neg h.not_gt, if_neg h.ne, if_pos h, add_comm]

/-- The masks of all parties cancel. -/
theorem sum_mask (a : Fin n → Fin n → M) : ∑ j, mask a j = 0 := by
  simp only [mask, ← Fin.sum_univ_def]
  exact PairSums.sum_eq_zero_of_antisymm (fun j => by simp [maskTerm]) (maskTerm_antisymm a)

theorem map_mask (f : M →+ N) (a : Fin n → Fin n → M) (j : Fin n) :
    f (mask a j) = mask (fun j l => f (a j l)) j := by
  rw [mask, mask, map_list_sum, List.map_map]
  refine congrArg List.sum (List.map_congr_left fun l _ => ?_)
  simp only [Function.comp_apply, maskTerm]
  split
  · simp
  · split <;> simp

end Mask

/-- The arguments that all parties of a refresh are called with, apart from the keys. -/
structure RefreshSession (n : ℕ) where
  job : Job n
  sid : Bytes

/-- The coins of a party. -/
structure RefreshCoins (q : ℕ) (R : Type) (n : ℕ) where
  r : Fin n → ZMod q
  proofCoins : Fin n → ℕ
  comRand : R
  sidPart : Bytes
  sidPart_length : sidPart.length = sidBytes

structure RefreshMsg1 (D : Type) where
  c : D
  hConsistency : D

structure RefreshMsg2 (E D R P : Type) where
  r : ℤ
  h : D
  Rs : List (WirePoint E)
  pis : List P
  rho : R

variable {q n : ℕ} {E D R P : Type} [AddCommGroup E] [Module (ZMod q) E] [DecidableEq E]
  [DecidableEq D] [Inhabited P]

section Party

variable (o : Oracles E D R P) (S : RefreshSession n)

/-- The session id, which is generated when the caller gives none. -/
def refreshSid (i : Fin n) (me : RefreshCoins q R n) (in0 : Inbox n Bytes) : Outcome Bytes :=
  if S.sid.isEmpty then generateSidFixedMp o i me.sidPart in0 else .ok S.sid

/-- Session id and checks of the key that the party brings. -/
def refreshStart (i : Fin n) (key : KeyShareMp q E)
    (me : RefreshCoins q R n) (in0 : Inbox n Bytes) :
    Outcome Bytes := do
  let sid ← refreshSid o S i me in0
  require (decide (key.partyName = S.job.names i)) .badArg
  require (decide (key.Qis.size = n)) .badArg
  let X ← key.curve.mulToGenerator key.xShare
  let Qi ← mapAt key.Qis (S.job.names i)
  require (decide (X = Qi)) .badArg
  require (decide (key.Qis.values.sum = key.Q)) .badArg
  .ok sid

def refreshConsistency (key : KeyShareMp q E) (sid : Bytes) : D :=
  o.sha256 [.bytes sid, .point (.on key.Q), .pointMap key.Qis.entries]

/-- `R_i` and `pi_r_i`. -/
def maskPoints (key : KeyShareMp q E) (me : RefreshCoins q R n) : List E :=
  (List.finRange n).map (fun j => me.r j • key.curve.generator)

def maskProofs (i : Fin n) (key : KeyShareMp q E) (me : RefreshCoins q R n)
    (sid : Bytes) : List P :=
  (List.finRange n).map (fun j : Fin n =>
    o.proveDl (me.proofCoins j) (me.r j • key.curve.generator) (residue (me.r j)) sid (i * n + j))

/-- The arguments of the commitment `com_R`. -/
def maskArgs (Rs : List (WirePoint E)) (pis : List P) : List (Item E D P) :=
  [.points Rs, .proofs pis]

/-- The first message. The session id is not empty, so that `com_R.msg` is a hash alone. -/
def refreshFirst (i : Fin n) (key : KeyShareMp q E) (me : RefreshCoins q R n)
    (sid : Bytes) : RefreshMsg1 D where
  c := o.hmac me.comRand (maskArgs ((maskPoints key me).map .on) (maskProofs o i key me sid) ++
    [.bytes sid, .pid (o.pid (S.job.names i))])
  hConsistency := refreshConsistency o key sid

/-- A party after the first round. -/
def refreshExchanged (i : Fin n) (key : KeyShareMp q E)
    (me : RefreshCoins q R n) (in0 : Inbox n Bytes) (in1 : Inbox n (RefreshMsg1 D)) :
    Outcome (Bytes × (Fin n → RefreshMsg1 D)) := do
  let sid ← refreshStart o S i key me in0
  let first ← received i (refreshFirst o S i key me sid) in1
  forEach (fun j =>
    require (decide (j = i ∨ (first j).hConsistency = refreshConsistency o key sid)) .crypto)
    (List.finRange n)
  .ok (sid, first)

/-- `h`, the hash of all commitments. -/
def refreshHash (first : Fin n → RefreshMsg1 D) : D :=
  o.sha256 [.bufs ((List.finRange n).map (fun j => .hash (first j).c))]

/-- The second message of party `i` to party `j`. -/
def refreshSecond (i : Fin n) (key : KeyShareMp q E) (me : RefreshCoins q R n) (sid : Bytes)
    (first : Fin n → RefreshMsg1 D) (j : Fin n) : RefreshMsg2 E D R P where
  r := residue (me.r j)
  h := refreshHash o first
  Rs := (maskPoints key me).map .on
  pis := maskProofs o i key me sid
  rho := me.comRand

/-- `R_j[l]`. -/
def RefreshMsg2.wire (m : RefreshMsg2 E D R P) (l : Fin n) : WirePoint E := m.Rs.getD l (.on 0)

/-- One turn of the loop over the second messages. -/
def refreshCheck (i : Fin n) (key : KeyShareMp q E) (sid : Bytes) (first : Fin n → RefreshMsg1 D)
    (second : Fin n → RefreshMsg2 E D R P) (j : Fin n) : Outcome Unit :=
  if j = i then .ok () else do
    require (decide ((second j).h = refreshHash o first)) .crypto
    require (decide ((second j).Rs.length = n)) .crypto
    require (decide ((second j).pis.length = n)) .crypto
    comOpen o sid (o.pid (S.job.names j)) (second j).rho (.hash (first j).c)
      (maskArgs (second j).Rs (second j).pis)
    forEach (fun l : Fin n => do
      let Rl ← curveCheck false ((second j).wire l)
      if l = j then .ok () else
        match o.verifyDl Rl sid (j * n + l) ((second j).pis.getD l default) with
        | some rv => fail rv
        | none => .ok ()) (List.finRange n)
    let X ← key.curve.mulToGenerator (second j).r
    require (decide (X = ((second j).wire i).point)) .crypto

/-- The loop that updates `x_share`; `rs` are the masks received. -/
def updateShare (i : Fin n) (x : ℤ) (mine : Fin n → ZMod q) (rs : Fin n → ℤ) : Outcome ℤ :=
  (List.finRange n).foldlM (fun x j =>
    if j = i then .ok x else do
      let delta ← modAdd false q (residue (mine j)) (rs j)
      if j < i then modAdd false q x delta else modSub false q x delta) x

/-- `Qis[name] += P`. An entry that is missing is a default point, on which the
addition asserts. -/
def addAt (m : OrderedMap PName E) (name : PName) (P : E) : Outcome (OrderedMap PName E) :=
  match m.find name with
  | none => throwing .assertionFailed
  | some Q => .ok (m.insert name (Q + P))

/-- The loops that update `Qis`; `pts j l` is `R_j[l]`. -/
def updateQis (job : Job n) (pts : Fin n → Fin n → E) (Qis : OrderedMap PName E) :
    Outcome (OrderedMap PName E) :=
  (List.finRange n).foldlM (fun Qis j =>
    (List.finRange n).foldlM (fun Qis l =>
      if l = j then .ok Qis
      else if l < j then addAt Qis (job.names j) (pts j l + pts l j)
      else addAt Qis (job.names j) (-(pts j l + pts l j))) Qis) Qis

/-- The updates and their cross checks. -/
def refreshOutput (i : Fin n) (key : KeyShareMp q E) (me : RefreshCoins q R n)
    (second : Fin n → RefreshMsg2 E D R P) : Outcome (KeyShareMp q E) := do
  let x ← updateShare i key.xShare me.r (fun j => (second j).r)
  let Qis ← updateQis S.job (fun j l => ((second j).wire l).point) key.Qis
  let Qi ← mapAt Qis (S.job.names i)
  let X ← key.curve.mulToGenerator x
  require (decide (Qi = X)) .crypto
  require (decide (Qis.values.sum = key.Q)) .crypto
  .ok { key with xShare := x, Qis := Qis }

/-- `key_share_mp_t::refresh` at party `i`. -/
def refresh (i : Fin n) (key : KeyShareMp q E) (me : RefreshCoins q R n) (in0 : Inbox n Bytes)
    (in1 : Inbox n (RefreshMsg1 D)) (in2 : Inbox n (RefreshMsg2 E D R P)) :
    Outcome (KeyShareMp q E) := do
  let (sid, first) ← refreshExchanged o S i key me in0 in1
  let second ← received i (refreshSecond o i key me sid first i) in2
  forEach (refreshCheck o S i key sid first second) (List.finRange n)
  refreshOutput S i key me second

end Party

/-- What the rounds deliver to each party. -/
structure RefreshInboxes (n : ℕ) (E D R P : Type) where
  in0 : Fin n → Inbox n Bytes
  in1 : Fin n → Inbox n (RefreshMsg1 D)
  in2 : Fin n → Inbox n (RefreshMsg2 E D R P)

section Run

variable (o : Oracles E D R P) (S : RefreshSession n) (key : Fin n → KeyShareMp q E)
  (me : Fin n → RefreshCoins q R n)

def refreshSend0 (i _j : Fin n) : Outcome Bytes := .ok (me i).sidPart

def refreshSend1 (in0 : Fin n → Inbox n Bytes) (i _j : Fin n) : Outcome (RefreshMsg1 D) := do
  let sid ← refreshStart o S i (key i) (me i) (in0 i)
  .ok (refreshFirst o S i (key i) (me i) sid)

def refreshSend2 (in0 : Fin n → Inbox n Bytes)
    (in1 : Fin n → Inbox n (RefreshMsg1 D)) (i j : Fin n) :
    Outcome (RefreshMsg2 E D R P) := do
  let st ← refreshExchanged o S i (key i) (me i) (in0 i) (in1 i)
  .ok (refreshSecond o i (key i) (me i) st.1 st.2 j)

/-- A run with honest parties `honest`; the other parties send whatever they like. -/
structure RefreshRun (honest : Finset (Fin n)) (run : RefreshInboxes n E D R P) : Prop where
  round0 : Delivered honest (refreshSend0 me) run.in0
  round1 : Delivered honest (refreshSend1 o S key me run.in0) run.in1
  round2 : Delivered honest (refreshSend2 o S key me run.in0 run.in1) run.in2

/-- What party `i` returns in a run. -/
def refreshResult (run : RefreshInboxes n E D R P) (i : Fin n) : Outcome (KeyShareMp q E) :=
  refresh o S i (key i) (me i) (run.in0 i) (run.in1 i) (run.in2 i)

end Run

section Agreement

variable {o : Oracles E D R P} {S : RefreshSession n} {key : Fin n → KeyShareMp q E}
  {me : Fin n → RefreshCoins q R n} {honest : Finset (Fin n)} {run : RefreshInboxes n E D R P}

/-- What party `i` has seen and tested when it succeeds. -/
structure RefreshAccepted (o : Oracles E D R P) (S : RefreshSession n)
    (key : Fin n → KeyShareMp q E) (me : Fin n → RefreshCoins q R n)
    (run : RefreshInboxes n E D R P) (i : Fin n) (sid : Bytes) (first : Fin n → RefreshMsg1 D)
    (second : Fin n → RefreshMsg2 E D R P) (newKey : KeyShareMp q E) : Prop where
  exchanged : refreshExchanged o S i (key i) (me i) (run.in0 i) (run.in1 i) = .ok (sid, first)
  received : received i (refreshSecond o i (key i) (me i) sid first i) (run.in2 i) = .ok second
  consistency : ∀ j, (first j).hConsistency = refreshConsistency o (key i) sid
  hash_eq : ∀ j, (second j).h = refreshHash o first
  opened : ∀ j, j ≠ i → comOpen o sid (o.pid (S.job.names j)) (second j).rho (.hash (first j).c)
    (maskArgs (second j).Rs (second j).pis) = .ok ()
  output : refreshOutput S i (key i) (me i) second = .ok newKey

omit [Inhabited P] in
theorem refreshExchanged_ok {i : Fin n} {key : KeyShareMp q E}
    {me : RefreshCoins q R n} {in0 : Inbox n Bytes} {in1 : Inbox n (RefreshMsg1 D)} {sid : Bytes}
    {first : Fin n → RefreshMsg1 D} (h : refreshExchanged o S i key me in0 in1 = .ok (sid, first)) :
    received i (refreshFirst o S i key me sid) in1 = .ok first ∧
      ∀ j, (first j).hConsistency = refreshConsistency o key sid := by
  obtain ⟨sid', -, h⟩ := bind_ok_iff.mp h
  obtain ⟨first', hrecv, h⟩ := bind_ok_iff.mp h
  obtain ⟨u, hall, h⟩ := bind_ok_iff.mp h
  cases h
  refine ⟨hrecv, fun j => ?_⟩
  rcases of_decide_eq_true ((require_ok_iff _ _).mp
    (forEach_ok_iff.mp hall j (List.mem_finRange j))) with hj | hj
  · rw [hj, (received_ok hrecv).1]
    rfl
  · exact hj

theorem exists_refreshAccepted {i : Fin n} {newKey : KeyShareMp q E}
    (h : refreshResult o S key me run i = .ok newKey) :
    ∃ sid first second, RefreshAccepted o S key me run i sid first second newKey := by
  obtain ⟨⟨sid, first⟩, hfirst, h⟩ := bind_ok_iff.mp h
  obtain ⟨second, hsecond, h⟩ := bind_ok_iff.mp h
  obtain ⟨u, hall, h⟩ := bind_ok_iff.mp h
  have htested : ∀ j, j ≠ i → (second j).h = refreshHash o first ∧
      comOpen o sid (o.pid (S.job.names j)) (second j).rho (.hash (first j).c)
        (maskArgs (second j).Rs (second j).pis) = .ok () := by
    intro j hj
    have hcheck := forEach_ok_iff.mp hall j (List.mem_finRange j)
    rw [refreshCheck, if_neg hj] at hcheck
    obtain ⟨hhash, hcheck⟩ := require_bind_ok_iff.mp hcheck
    obtain ⟨-, hcheck⟩ := require_bind_ok_iff.mp hcheck
    obtain ⟨-, hcheck⟩ := require_bind_ok_iff.mp hcheck
    obtain ⟨u, hopen, -⟩ := bind_ok_iff.mp hcheck
    exact ⟨of_decide_eq_true hhash, hopen⟩
  refine ⟨sid, first, second, hfirst, hsecond, (refreshExchanged_ok hfirst).2, fun j => ?_,
    fun j hj => (htested j hj).2, h⟩
  by_cases hj : j = i
  · rw [hj, (received_ok hsecond).1]
    rfl
  · exact (htested j hj).1

variable {p r : Fin n} {sid sid' : Bytes} {first first' : Fin n → RefreshMsg1 D}
  {second second' : Fin n → RefreshMsg2 E D R P} {newKey newKey' : KeyShareMp q E}

section

omit [Inhabited P]

/-- The messages of an honest party are the ones it has computed. -/
theorem RefreshAccepted.message_eq (h : RefreshAccepted o S key me run p sid first second newKey)
    (h' : RefreshAccepted o S key me run r sid' first' second' newKey')
    (hrun : RefreshRun o S key me honest run) (hp : p ∈ honest) (hr : r ∈ honest) :
    second r = refreshSecond o r (key r) (me r) sid' first' p := by
  by_cases hrp : r = p
  · subst hrp
    have hsame : (sid, first) = (sid', first') :=
      Except.ok.inj (h.exchanged.symm.trans h'.exchanged)
    obtain ⟨rfl, rfl⟩ := Prod.mk.inj hsame
    exact (received_ok h.received).1
  · obtain ⟨-, msgs, hin, hms⟩ := received_ok h.received
    have hmsg := hrun.round2 p hp msgs hin r hr hrp
    rw [refreshSend2, h'.exchanged, ok_bind] at hmsg
    rw [hms r hrp]
    exact (Except.ok.inj hmsg).symm

/-- The first message of an honest party is the one it has computed. -/
theorem RefreshAccepted.first_eq (h : RefreshAccepted o S key me run p sid first second newKey)
    (h' : RefreshAccepted o S key me run r sid' first' second' newKey')
    (hrun : RefreshRun o S key me honest run) (hp : p ∈ honest) (hr : r ∈ honest) :
    first r = refreshFirst o S r (key r) (me r) sid' := by
  by_cases hrp : r = p
  · subst hrp
    have hsame : (sid, first) = (sid', first') :=
      Except.ok.inj (h.exchanged.symm.trans h'.exchanged)
    obtain ⟨rfl, rfl⟩ := Prod.mk.inj hsame
    exact (received_ok (refreshExchanged_ok h.exchanged).1).1
  · obtain ⟨-, msgs, hin, hms⟩ := received_ok (refreshExchanged_ok h.exchanged).1
    obtain ⟨sidR, hsidR, hmsg⟩ := bind_ok_iff.mp (hrun.round1 p hp msgs hin r hr hrp)
    obtain ⟨sidR', hsidR', hrest⟩ := bind_ok_iff.mp h'.exchanged
    obtain ⟨ms, -, hrest⟩ := bind_ok_iff.mp hrest
    obtain ⟨u, -, hrest⟩ := bind_ok_iff.mp hrest
    have hsid : sidR = sid' :=
      (Except.ok.inj (hsidR.symm.trans hsidR')).trans (Prod.mk.inj (Except.ok.inj hrest)).1
    rw [hms r hrp, ← hsid]
    exact (Except.ok.inj hmsg).symm

/-- Honest parties that succeed have brought the same points. -/
theorem RefreshAccepted.old_eq (h : RefreshAccepted o S key me run p sid first second newKey)
    (h' : RefreshAccepted o S key me run r sid' first' second' newKey') (ho : o.Injective)
    (hrun : RefreshRun o S key me honest run) (hp : p ∈ honest) (hr : r ∈ honest) :
    sid = sid' ∧ (key p).Q = (key r).Q ∧ (key p).Qis = (key r).Qis := by
  have hcons := h.consistency r
  rw [h.first_eq h' hrun hp hr] at hcons
  have hlist := ho.sha256_inj _ _ hcons
  simp only [List.cons.injEq, Item.bytes.injEq, Item.point.injEq, WirePoint.on.injEq,
    Item.pointMap.injEq] at hlist
  obtain ⟨hsid, hQ, hQis, -⟩ := hlist
  exact ⟨hsid.symm, hQ.symm,
    OrderedMap.ext_find fun k => by rw [OrderedMap.find, OrderedMap.find, hQis]⟩

/-- Honest parties that succeed have opened the same points. -/
theorem RefreshAccepted.points_eq (h : RefreshAccepted o S key me run p sid first second newKey)
    (h' : RefreshAccepted o S key me run r sid' first' second' newKey') (ho : o.Injective)
    (hrun : RefreshRun o S key me honest run) (hp : p ∈ honest) (hr : r ∈ honest) (j : Fin n) :
    (second j).Rs = (second' j).Rs := by
  by_cases hjr : j = r
  · rw [hjr, h.message_eq h' hrun hp hr, h'.message_eq h' hrun hr hr]
    rfl
  by_cases hjp : j = p
  · rw [hjp, h.message_eq h hrun hp hp, h'.message_eq h hrun hr hp]
    rfl
  have hhash : refreshHash o first = refreshHash o first' := by
    rw [← h.hash_eq r, h.message_eq h' hrun hp hr]
    rfl
  have hlist := ho.sha256_inj _ _ hhash
  simp only [List.cons.injEq, Item.bufs.injEq] at hlist
  have hc := List.map_inj_left.mp hlist.1 j (List.mem_finRange j)
  have hopen := h.opened j hjp
  rw [hc] at hopen
  obtain ⟨-, hargs⟩ := comOpen_binding ho hopen (h'.opened j hjr)
  simp only [maskArgs, List.cons.injEq, Item.points.injEq] at hargs
  exact hargs.1

end

omit [DecidableEq D] [Inhabited P] in
theorem refreshOutput_ok {i : Fin n} {key : KeyShareMp q E} {me : RefreshCoins q R n}
    {second : Fin n → RefreshMsg2 E D R P} {newKey : KeyShareMp q E}
    (h : refreshOutput S i key me second = .ok newKey) :
    newKey.Q = key.Q ∧ updateQis S.job (fun j l => ((second j).wire l).point) key.Qis =
      .ok newKey.Qis := by
  obtain ⟨x, -, h⟩ := bind_ok_iff.mp h
  obtain ⟨Qis, hQis, h⟩ := bind_ok_iff.mp h
  obtain ⟨Qi, -, h⟩ := bind_ok_iff.mp h
  obtain ⟨X, -, h⟩ := bind_ok_iff.mp h
  obtain ⟨-, h⟩ := require_bind_ok_iff.mp h
  obtain ⟨-, h⟩ := require_bind_ok_iff.mp h
  cases h
  exact ⟨rfl, hQis⟩

/-- Honest parties that succeed hold the same points, whatever the others send. -/
theorem refreshed_agree (ho : o.Injective)
    (hrun : RefreshRun o S key me honest run) (hp : p ∈ honest) (hr : r ∈ honest)
    (hok : refreshResult o S key me run p = .ok newKey)
    (hok' : refreshResult o S key me run r = .ok newKey') :
    newKey.Q = newKey'.Q ∧ newKey.Qis = newKey'.Qis := by
  obtain ⟨sid, first, second, h⟩ := exists_refreshAccepted hok
  obtain ⟨sid', first', second', h'⟩ := exists_refreshAccepted hok'
  obtain ⟨-, hQ, hQis⟩ := h.old_eq h' ho hrun hp hr
  obtain ⟨hnewQ, hnew⟩ := refreshOutput_ok h.output
  obtain ⟨hnewQ', hnew'⟩ := refreshOutput_ok h'.output
  refine ⟨by rw [hnewQ, hnewQ', hQ], ?_⟩
  have hpts : (fun j (l : Fin n) => ((second j).wire l).point) = fun j l =>
      ((second' j).wire l).point := by
    funext j l
    rw [RefreshMsg2.wire, RefreshMsg2.wire, h.points_eq h' ho hrun hp hr j]
  rw [hpts, hQis] at hnew
  exact Except.ok.inj (hnew.symm.trans hnew')

end Agreement

section Updates

variable [hq : Fact q.Prime]

theorem updateShare_eq (i : Fin n) (x : ZMod q) (a : Fin n → Fin n → ZMod q) :
    updateShare i (residue x) (a i) (fun j => residue (a j i)) = .ok (residue (x + mask a i)) := by
  have hloop : ∀ (l : List (Fin n)) (x : ZMod q), l.foldlM (fun x j =>
      if j = i then .ok x else do
        let delta ← modAdd false q (residue (a i j)) (residue (a j i))
        if j < i then modAdd false q x delta else modSub false q x delta) (residue x) =
      Except.ok (ε := Failure) (residue (x + (l.map (maskTerm a i)).sum)) := by
    intro l
    induction l with
    | nil =>
      intro x
      rw [List.map_nil, List.sum_nil, add_zero]
      rfl
    | cons j l ih =>
      intro x
      rw [List.foldlM_cons, List.map_cons, List.sum_cons, ← add_assoc, ← ih]
      simp only [modAdd_residue, modSub_residue, ok_bind, maskTerm]
      split
      · simp
      · split
        · simp
        · simp [sub_eq_add_neg]
  exact hloop _ x

omit [DecidableEq E] in
/-- The inner loop changes one entry. -/
theorem updateQis_row (job : Job n) (pts : Fin n → Fin n → E) (j : Fin n)
    {m : OrderedMap PName E} {P : E} (hm : m.find (job.names j) = some P) (ls : List (Fin n)) :
    ls.foldlM (fun Qis l =>
      if l = j then .ok Qis
      else if l < j then addAt Qis (job.names j) (pts j l + pts l j)
      else addAt Qis (job.names j) (-(pts j l + pts l j))) m =
    Except.ok (ε := Failure) (m.insert (job.names j) (P + (ls.map (maskTerm pts j)).sum)) := by
  induction ls generalizing m P with
  | nil =>
    rw [List.map_nil, List.sum_nil, add_zero, OrderedMap.insert_of_find hm]
    rfl
  | cons l ls ih =>
    have hstep : (if l = j then .ok m
        else if l < j then addAt m (job.names j) (pts j l + pts l j)
        else addAt m (job.names j) (-(pts j l + pts l j))) =
        Except.ok (ε := Failure) (m.insert (job.names j) (P + maskTerm pts j l)) := by
      unfold maskTerm
      split
      · rw [add_zero, OrderedMap.insert_of_find hm]
      · split
        · rw [addAt, hm]
        · rw [addAt, hm]
    have hfind : (m.insert (job.names j) (P + maskTerm pts j l)).find (job.names j) =
        some (P + maskTerm pts j l) := by
      simp
    rw [List.foldlM_cons, hstep, ok_bind, ih hfind, OrderedMap.insert_insert, List.map_cons,
      List.sum_cons, add_assoc]

omit [DecidableEq E] in
theorem updateQis_eq (job : Job n) (pts : Fin n → Fin n → E)
    {old : OrderedMap PName E} {P : Fin n → E} (hold : ∀ j, old.find (job.names j) = some (P j)) :
    updateQis job pts old = .ok
      (old.insertEach job.names (fun j => P j + mask pts j) (List.finRange n)) := by
  have hloop : ∀ (js : List (Fin n)) (m : OrderedMap PName E), js.Nodup →
      (∀ j ∈ js, m.find (job.names j) = some (P j)) →
      js.foldlM (fun Qis j =>
        (List.finRange n).foldlM (fun Qis l =>
          if l = j then .ok Qis
          else if l < j then addAt Qis (job.names j) (pts j l + pts l j)
          else addAt Qis (job.names j) (-(pts j l + pts l j))) Qis) m =
      Except.ok (ε := Failure) (m.insertEach job.names (fun j => P j + mask pts j) js) := by
    intro js
    induction js with
    | nil => intro m _ _; rfl
    | cons j js ih =>
      intro m hnd hm
      obtain ⟨hj, hnd⟩ := List.nodup_cons.mp hnd
      rw [List.foldlM_cons, updateQis_row job pts j (hm j (by simp)), ok_bind]
      refine ih _ hnd fun k hk => ?_
      have hne : job.names k ≠ job.names j := fun he => hj (job.names_injective he ▸ hk)
      rw [OrderedMap.find_insert, if_neg hne, hm k (by simp [hk])]
  exact hloop _ old (List.nodup_finRange n) fun j _ => hold j

end Updates

section Consistent

variable [hq : Fact q.Prime] {job : Job n} {curve : Curve q E}

/-- A set of key shares of one key: every party's share matches its point, all hold
the same points, and these sum to the key. -/
structure ConsistentKeys (job : Job n) (curve : Curve q E)
    (key : Fin n → KeyShareMp q E) : Prop where
  curve_eq : ∀ i, (key i).curve = curve
  name_eq : ∀ i, (key i).partyName = job.names i
  range : ∀ i, isInRange q (key i).xShare = true
  same : ∀ i j, (key i).Qis = (key j).Qis ∧ (key i).Q = (key j).Q
  keys : ∀ i nm, ((key i).Qis.find nm).isSome = true ↔ nm ∈ (List.finRange n).map job.names
  share : ∀ i, ∃ X, curve.mulToGenerator (key i).xShare = .ok X ∧
    (key i).Qis.find (job.names i) = some X
  sum : ∀ i, (key i).Qis.values.sum = (key i).Q

omit [DecidableEq E] in
theorem find_sharedKey (job : Job n) (curve : Curve q E) (x : Fin n → ZMod q) (i l : Fin n) :
    (sharedKey job curve x i).Qis.find (job.names l) = some (x l • curve.generator) :=
  OrderedMap.find_insertEach _ job.names_injective _ (List.mem_finRange l)

omit [DecidableEq E] in
theorem find_sharedKey_isSome (job : Job n) (curve : Curve q E) (x : Fin n → ZMod q)
    (i : Fin n) (nm : PName) :
    ((sharedKey job curve x i).Qis.find nm).isSome = true ↔
    nm ∈ (List.finRange n).map job.names := by
  simp only [sharedKey, OrderedMap.find_insertEach_isSome, OrderedMap.find_empty]
  simp

theorem nodup_names (job : Job n) : ((List.finRange n).map job.names).Nodup :=
  (List.nodup_finRange n).map job.names_injective

omit [DecidableEq E] in
theorem sum_sharedKey (job : Job n) (curve : Curve q E) (x : Fin n → ZMod q) (i : Fin n) :
    (sharedKey job curve x i).Qis.values.sum = (∑ l, x l) • curve.generator := by
  rw [OrderedMap.sum_values_of_find job.names (fun l => x l • curve.generator)
    (List.finRange n) (nodup_names job)
    (fun l _ => find_sharedKey job curve x i l) (fun k hk =>
      (find_sharedKey_isSome job curve x i k).mp hk), Finset.sum_smul,
    Fin.sum_univ_def]

omit [DecidableEq E] in
/-- A consistent set of key shares is determined by the scalars. -/
theorem consistentKeys_iff {key : Fin n → KeyShareMp q E} :
    ConsistentKeys job curve key ↔ ∃ x, ∀ i, key i = sharedKey job curve x i := by
  constructor
  · intro h
    refine ⟨fun i => ((key i).xShare : ZMod q), fun i => ?_⟩
    have hfind : ∀ l, (key i).Qis.find (job.names l) =
        some (((key l).xShare : ZMod q) • curve.generator) := by
      intro l
      obtain ⟨X, hX, hl⟩ := h.share l
      rw [(h.same i l).1, hl, mulToGenerator_ok curve hX]
    have hshare := eq_residue_of_isInRange (h.range i)
    have hQis : (key i).Qis = (sharedKey job curve (fun i => ((key i).xShare : ZMod q)) i).Qis := by
      refine OrderedMap.ext_find fun k => ?_
      by_cases hk : k ∈ (List.finRange n).map job.names
      · obtain ⟨l, -, rfl⟩ := List.mem_map.mp hk
        rw [hfind, find_sharedKey]
      · have hnone := mt (h.keys i k).mp hk
        have hnone' :=
          mt (find_sharedKey_isSome job curve (fun i => ((key i).xShare : ZMod q)) i k).mp hk
        rw [Bool.not_eq_true, Option.isSome_eq_false_iff, Option.isNone_iff_eq_none] at hnone hnone'
        rw [hnone, hnone']
    have hQ : (key i).Q = (∑ l, ((key l).xShare : ZMod q)) • curve.generator := by
      rw [← h.sum i, hQis, sum_sharedKey]
    have hcurve := h.curve_eq i
    have hname := h.name_eq i
    cases hk : key i with
    | mk xShare Q Qis curve' partyName =>
      rw [hk] at hshare hQis hQ hcurve hname
      simp only at hshare hQis hQ hcurve hname
      rw [hQ, hQis, hcurve, hname]
      unfold sharedKey
      congr 1
      simpa [hk] using hshare
  · rintro ⟨x, hx⟩
    refine ⟨fun i => ?_, fun i => ?_, fun i => ?_, fun i j => ?_, fun i nm => ?_, fun i => ?_,
      fun i => ?_⟩
    · rw [hx i]
      rfl
    · rw [hx i]
      rfl
    · rw [hx i]
      exact isInRange_residue _
    · rw [hx i, hx j]
      exact ⟨rfl, rfl⟩
    · rw [hx i, find_sharedKey_isSome]
    · rw [hx i, find_sharedKey]
      exact ⟨_, mulToGenerator_residue _ _, rfl⟩
    · rw [hx i, sum_sharedKey]
      rfl

end Consistent

section Honest

variable [hq : Fact q.Prime] {o : Oracles E D R P} {S : RefreshSession n}
  {curve : Curve q E} {x : Fin n → ZMod q} {me : Fin n → RefreshCoins q R n}

/-- The session id of an honest run. -/
def honestRefreshSid (o : Oracles E D R P) (S : RefreshSession n)
    (me : Fin n → RefreshCoins q R n) : Bytes :=
  if S.sid.isEmpty then
    (o.digestBytes (o.sha256 [.bytesList ((List.finRange n).map (fun j => (me j).sidPart))])).take
      sidBytes
  else S.sid

def honestRefreshFirst (o : Oracles E D R P) (S : RefreshSession n) (key : Fin n → KeyShareMp q E)
    (me : Fin n → RefreshCoins q R n) (j : Fin n) : RefreshMsg1 D :=
  refreshFirst o S j (key j) (me j) (honestRefreshSid o S me)

def honestRefreshSecond (o : Oracles E D R P) (S : RefreshSession n) (key : Fin n → KeyShareMp q E)
    (me : Fin n → RefreshCoins q R n) (i j : Fin n) : RefreshMsg2 E D R P :=
  refreshSecond o j (key j) (me j) (honestRefreshSid o S me) (honestRefreshFirst o S key me) i

/-- The run in which all parties are honest and everything arrives. -/
def honestRefreshRun (o : Oracles E D R P) (S : RefreshSession n) (key : Fin n → KeyShareMp q E)
    (me : Fin n → RefreshCoins q R n) : RefreshInboxes n E D R P where
  in0 _ := .ok (fun j => (me j).sidPart)
  in1 _ := .ok (honestRefreshFirst o S key me)
  in2 i := .ok (honestRefreshSecond o S key me i)

omit [DecidableEq D] [Inhabited P] in
theorem refreshStart_honest (i : Fin n) :
    refreshStart o S i (sharedKey S.job curve x i) (me i) (.ok (fun j => (me j).sidPart)) =
      .ok (honestRefreshSid o S me) := by
  have hrecv : received i (me i).sidPart (.ok (fun j => (me j).sidPart)) =
      .ok (fun j => (me j).sidPart) :=
    congrArg Except.ok (Function.update_eq_self i fun j => (me j).sidPart)
  have hlen : ((List.finRange n).map (fun j => (me j).sidPart)).all (fun c =>
      c.length = sidBytes) = true := by
    simp [(me _).sidPart_length]
  have hsid : refreshSid o S i (me i) (.ok (fun j => (me j).sidPart)) =
      .ok (honestRefreshSid o S me) := by
    unfold refreshSid honestRefreshSid
    split
    · rw [generateSidFixedMp, hrecv, ok_bind]
      simp only [hlen, require_true, ok_bind]
    · rfl
  have hsize : (sharedKey S.job curve x i).Qis.size = n := by
    rw [OrderedMap.size_of_find S.job.names (List.finRange n) (nodup_names S.job)
      (find_sharedKey_isSome S.job curve x i), List.length_finRange]
  have hmul : curve.mulToGenerator (sharedKey S.job curve x i).xShare =
      .ok (x i • curve.generator) :=
    mulToGenerator_residue curve (x i)
  rw [refreshStart, hsid, ok_bind]
  simp only [show (sharedKey S.job curve x i).partyName = S.job.names i from rfl,
    show (sharedKey S.job curve x i).curve = curve from rfl, hsize, hmul,
      mapAt_eq (find_sharedKey S.job curve x i i), sum_sharedKey, decide_true,
      require_true, ok_bind]
  rw [show (sharedKey S.job curve x i).Q = (∑ l, x l) • curve.generator from rfl,
    decide_eq_true rfl, require_true, ok_bind]

omit [Inhabited P] in
theorem refreshExchanged_honest (i : Fin n) :
    refreshExchanged o S i (sharedKey S.job curve x i) (me i) (.ok (fun j => (me j).sidPart))
      (.ok (honestRefreshFirst o S (sharedKey S.job curve x) me)) =
      .ok (honestRefreshSid o S me, honestRefreshFirst o S (sharedKey S.job curve x) me) := by
  have hrecv :
      received i (refreshFirst o S i (sharedKey S.job curve x i) (me i) (honestRefreshSid o S me))
      (.ok (honestRefreshFirst o S (sharedKey S.job curve x) me)) =
      .ok (honestRefreshFirst o S (sharedKey S.job curve x) me) :=
    congrArg Except.ok (Function.update_eq_self i
      (honestRefreshFirst o S (sharedKey S.job curve x) me))
  have hloop : forEach (fun j => require (decide (j = i ∨
      (honestRefreshFirst o S (sharedKey S.job curve x) me j).hConsistency =
        refreshConsistency o (sharedKey S.job curve x i) (honestRefreshSid o S me))) .crypto)
          (List.finRange n) =
      .ok () := by
    refine forEach_ok_iff.mpr fun j _ => ?_
    rw [require_ok_iff]
    exact decide_eq_true (.inr rfl)
  rw [refreshExchanged, refreshStart_honest, ok_bind, hrecv, ok_bind, hloop, ok_bind]

omit [DecidableEq E] [DecidableEq D] [Inhabited P] in
/-- The point and the proof of a mask, as they are read from a message. -/
theorem wire_refreshSecond (sid : Bytes) (first : Fin n → RefreshMsg1 D) (i j l : Fin n) :
    (refreshSecond o j (sharedKey S.job curve x j) (me j) sid first i).wire l =
      .on ((me j).r l • curve.generator) := by
  simp [RefreshMsg2.wire, refreshSecond, maskPoints, List.getD, sharedKey]

omit [DecidableEq E] [DecidableEq D] in
theorem pis_refreshSecond (sid : Bytes) (first : Fin n → RefreshMsg1 D) (i j l : Fin n) :
    (refreshSecond o j (sharedKey S.job curve x j) (me j) sid first i).pis.getD l default =
      o.proveDl ((me j).proofCoins l) ((me j).r l • curve.generator)
        (residue ((me j).r l)) sid (j * n + l) := by
  simp [refreshSecond, maskProofs, List.getD, sharedKey]

theorem refreshCheck_honest (hc : o.Complete curve) (hsid : honestRefreshSid o S me ≠ [])
    (hr : ∀ i j, (me i).r j ≠ 0) (i j : Fin n) :
    refreshCheck o S i (sharedKey S.job curve x i) (honestRefreshSid o S me)
      (honestRefreshFirst o S (sharedKey S.job curve x) me)
      (honestRefreshSecond o S (sharedKey S.job curve x) me i) j = .ok () := by
  have hopen : comOpen o (honestRefreshSid o S me) (o.pid (S.job.names j)) (me j).comRand
      (.hash (honestRefreshFirst o S (sharedKey S.job curve x) me j).c)
      (maskArgs ((maskPoints (sharedKey S.job curve x j) (me j)).map .on)
        (maskProofs o j (sharedKey S.job curve x j) (me j) (honestRefreshSid o S me))) =
          .ok () := by
    have hne : (honestRefreshSid o S me).isEmpty = false := by simpa using hsid
    simp [comOpen, hne, honestRefreshFirst, refreshFirst]
  have hpoints : forEach (fun l : Fin n => do
      let Rl ← curveCheck false ((honestRefreshSecond o S (sharedKey S.job curve x) me i j).wire l)
      if l = j then .ok () else
        match o.verifyDl Rl (honestRefreshSid o S me) (j * n + l)
          ((honestRefreshSecond o S (sharedKey S.job curve x) me i j).pis.getD l default) with
        | some rv => fail rv
        | none => .ok ()) (List.finRange n) = .ok () := by
    refine forEach_ok_iff.mpr fun l _ => ?_
    rw [honestRefreshSecond, wire_refreshSecond,
      curveCheck_smul_generator curve false (hr j l), ok_bind, pis_refreshSecond,
      hc.dl _ _ _ _ (hr j l)]
    split <;> rfl
  have hlen : (honestRefreshSecond o S (sharedKey S.job curve x) me i j).Rs.length = n := by
    simp [honestRefreshSecond, refreshSecond, maskPoints]
  have hlen' : (honestRefreshSecond o S (sharedKey S.job curve x) me i j).pis.length = n := by
    simp [honestRefreshSecond, refreshSecond, maskProofs]
  have hmul : curve.mulToGenerator (honestRefreshSecond o S (sharedKey S.job curve x) me i j).r =
      .ok ((me j).r i • curve.generator) := mulToGenerator_residue _ _
  have hwire : ((honestRefreshSecond o S (sharedKey S.job curve x) me i j).wire i).point =
      (me j).r i • curve.generator := by
    rw [honestRefreshSecond, wire_refreshSecond]
    rfl
  rw [refreshCheck]
  split
  · rfl
  · have hhash : (honestRefreshSecond o S (sharedKey S.job curve x) me i j).h =
        refreshHash o (honestRefreshFirst o S (sharedKey S.job curve x) me) := rfl
    rw [show (sharedKey S.job curve x i).curve = curve from rfl, hmul, hwire, hpoints,
      decide_eq_true hlen, decide_eq_true hlen', decide_eq_true hhash]
    simp only [require_true, ok_bind, decide_true]
    exact (congrArg (· >>= fun _ => Except.ok ()) hopen).trans rfl

omit [DecidableEq D] [Inhabited P] in
/-- The new key of a party when `a j l` are the masks. -/
theorem refreshOutput_honest (i : Fin n) :
    refreshOutput S i (sharedKey S.job curve x i) (me i)
      (honestRefreshSecond o S (sharedKey S.job curve x) me i) =
      .ok (sharedKey S.job curve (fun j => x j + mask (fun j l => (me j).r l) j) i) := by
  have hpts : (fun j (l : Fin n) =>
      ((honestRefreshSecond o S (sharedKey S.job curve x) me i j).wire l).point) =
      fun j l => (me j).r l • curve.generator := by
    funext j l
    rw [honestRefreshSecond, wire_refreshSecond]
    rfl
  have hmask : ∀ j, x j • curve.generator + mask (fun j l => (me j).r l • curve.generator) j =
      (x j + mask (fun j l => (me j).r l) j) • curve.generator := by
    intro j
    have h := map_mask (LinearMap.toSpanSingleton (ZMod q) E curve.generator).toAddMonoidHom
      (fun j l => (me j).r l) j
    rw [add_smul]
    exact congrArg (x j • curve.generator + ·) h.symm
  have hQis := updateQis_eq S.job (fun j l => (me j).r l • curve.generator)
    (find_sharedKey S.job curve x i)
  simp only [hmask] at hQis
  rw [show (sharedKey S.job curve x i).Qis = OrderedMap.empty.insertEach S.job.names
    (fun j => x j • curve.generator) (List.finRange n) from rfl,
    OrderedMap.insertEach_insertEach _ S.job.names_injective] at hQis
  have hshare : updateShare i (sharedKey S.job curve x i).xShare (me i).r
      (fun j => (honestRefreshSecond o S (sharedKey S.job curve x) me i j).r) =
      .ok (residue (x i + mask (fun j l => (me j).r l) i)) :=
        updateShare_eq i (x i) (fun j l => (me j).r l)
  have hfind := find_sharedKey S.job curve (fun j => x j + mask (fun j l => (me j).r l) j) i i
  have hsum : (∑ j, (x j + mask (fun j l => (me j).r l) j)) = ∑ j, x j := by
    rw [Finset.sum_add_distrib, sum_mask, add_zero]
  have hvalues := sum_sharedKey S.job curve (fun j => x j + mask (fun j l => (me j).r l) j) i
  rw [hsum] at hvalues
  rw [refreshOutput, hshare, ok_bind, hpts,
    show (sharedKey S.job curve x i).Qis = OrderedMap.empty.insertEach S.job.names
    (fun j => x j • curve.generator) (List.finRange n) from rfl, hQis, ok_bind]
  have hnew : OrderedMap.empty.insertEach S.job.names (fun j =>
      (x j + mask (fun j l => (me j).r l) j) •
      curve.generator) (List.finRange n) =
      (sharedKey S.job curve (fun j => x j + mask (fun j l => (me j).r l) j) i).Qis := rfl
  have hQ : (∑ j, x j) • curve.generator = (sharedKey S.job curve x i).Q := rfl
  rw [hnew, mapAt_eq hfind, ok_bind, show (sharedKey S.job curve x i).curve = curve from rfl,
    mulToGenerator_residue, ok_bind, decide_eq_true rfl, require_true, ok_bind, hvalues, hQ,
    decide_eq_true rfl, require_true, ok_bind]
  refine congrArg Except.ok ?_
  unfold sharedKey
  rw [hsum]

/-- A refresh by honest parties adds the masks to the shares. -/
theorem refresh_honest (hc : o.Complete curve) (hsid : honestRefreshSid o S me ≠ [])
    (hr : ∀ i j, (me i).r j ≠ 0) (i : Fin n) :
    refreshResult o S (sharedKey S.job curve x) me
      (honestRefreshRun o S (sharedKey S.job curve x) me) i =
      .ok (sharedKey S.job curve (fun j => x j + mask (fun j l => (me j).r l) j) i) := by
  have hrecv :
      received i (refreshSecond o i (sharedKey S.job curve x i) (me i) (honestRefreshSid o S me)
      (honestRefreshFirst o S (sharedKey S.job curve x) me) i)
      (.ok (honestRefreshSecond o S (sharedKey S.job curve x) me i)) =
      .ok (honestRefreshSecond o S (sharedKey S.job curve x) me i) :=
    congrArg Except.ok (Function.update_eq_self i
      (honestRefreshSecond o S (sharedKey S.job curve x) me i))
  have hchecks : forEach (refreshCheck o S i (sharedKey S.job curve x i) (honestRefreshSid o S me)
      (honestRefreshFirst o S (sharedKey S.job curve x) me)
      (honestRefreshSecond o S (sharedKey S.job curve x) me i)) (List.finRange n) = .ok () :=
    forEach_ok_iff.mpr fun j _ => refreshCheck_honest hc hsid hr i j
  simp only [refreshResult, refresh, honestRefreshRun, refreshExchanged_honest, ok_bind,
    hrecv, hchecks, refreshOutput_honest]

end Honest

/-- The keys after a sequence of refreshes by honest parties, each with its session id
and coins. -/
inductive Refreshed (o : Oracles E D R P) (job : Job n) :
    List (Bytes × (Fin n → RefreshCoins q R n)) → (Fin n → KeyShareMp q E) →
    (Fin n → KeyShareMp q E) → Prop where
  | nil (key : Fin n → KeyShareMp q E) : Refreshed o job [] key key
  | cons {sid : Bytes} {me : Fin n → RefreshCoins q R n}
      {steps : List (Bytes × (Fin n → RefreshCoins q R n))}
      {key key' key'' : Fin n → KeyShareMp q E}
      (hstep : ∀ i, refreshResult o ⟨job, sid⟩ key me (honestRefreshRun o ⟨job, sid⟩ key me) i =
        .ok (key' i))
      (hrest : Refreshed o job steps key' key'') : Refreshed o job ((sid, me) :: steps) key key''

section Runs

variable [hq : Fact q.Prime] {o : Oracles E D R P} {job : Job n} {curve : Curve q E}

omit [AddCommGroup E] [Module (ZMod q) E] [DecidableEq E] [DecidableEq D] [Inhabited P] hq in
theorem honestRefreshSid_ne_nil (hd : ∀ d, (o.digestBytes d).length = 32) (S : RefreshSession n)
    (me : Fin n → RefreshCoins q R n) : honestRefreshSid o S me ≠ [] := by
  unfold honestRefreshSid
  split
  · refine List.ne_nil_of_length_pos ?_
    rw [List.length_take, hd]
    decide
  · rename_i h
    simpa using h

/-- One refresh keeps the invariant, the key and the secret. -/
theorem refresh_step (hc : o.Complete curve) (hd : ∀ d, (o.digestBytes d).length = 32) (sid : Bytes)
    {me : Fin n → RefreshCoins q R n} (hr : ∀ i j, (me i).r j ≠ 0) {key : Fin n → KeyShareMp q E}
    (hkey : ConsistentKeys job curve key) : ∃ key' : Fin n → KeyShareMp q E,
      (∀ i, refreshResult o ⟨job, sid⟩ key me (honestRefreshRun o ⟨job, sid⟩ key me) i =
        .ok (key' i)) ∧
      ConsistentKeys job curve key' ∧ (∀ i, (key' i).Q = (key i).Q) ∧
      ∑ i, ((key' i).xShare : ZMod q) = ∑ i, ((key i).xShare : ZMod q) := by
  obtain ⟨x, hx⟩ := consistentKeys_iff.mp hkey
  obtain rfl : key = sharedKey job curve x := funext hx
  have hsum : (∑ j, (x j + mask (fun j l => (me j).r l) j)) = ∑ j, x j := by
    rw [Finset.sum_add_distrib, sum_mask, add_zero]
  refine ⟨_, refresh_honest hc (honestRefreshSid_ne_nil hd ⟨job, sid⟩ me) hr,
    consistentKeys_iff.mpr ⟨_, fun _ => rfl⟩,
    fun i => ?_, ?_⟩
  · simp only [sharedKey, hsum]
  · simp only [sharedKey, cast_residue, hsum]

/-- Any number of refreshes by honest parties goes through and keeps the key; and with
corrupted parties, honest ones that succeed hold the same points. -/
theorem refresh_keeps_key (ho : o.Injective) (hc : o.Complete curve)
    (hd : ∀ d, (o.digestBytes d).length = 32) :
    (∀ (steps : List (Bytes × (Fin n → RefreshCoins q R n))) (key : Fin n → KeyShareMp q E),
      ConsistentKeys job curve key → (∀ step ∈ steps, ∀ i j, (step.2 i).r j ≠ 0) →
      ∃ key', Refreshed o job steps key key' ∧ ConsistentKeys job curve key' ∧
        (∀ i, (key' i).Q = (key i).Q) ∧
        ∑ i, ((key' i).xShare : ZMod q) = ∑ i, ((key i).xShare : ZMod q)) ∧
    (∀ (sid : Bytes) (key : Fin n → KeyShareMp q E) (me : Fin n → RefreshCoins q R n)
      (honest : Finset (Fin n))
      (run : RefreshInboxes n E D R P), RefreshRun o ⟨job, sid⟩ key me honest run → ∀ p ∈ honest,
        ∀ r ∈ honest,
      ∀ newKey newKey', refreshResult o ⟨job, sid⟩ key me run p = .ok newKey →
        refreshResult o ⟨job, sid⟩ key me run r = .ok newKey' →
        newKey.Qis = newKey'.Qis ∧ newKey.Q = newKey'.Q) := by
  constructor
  · intro steps
    -- the invariant is carried from refresh to refresh
    induction steps with
    | nil =>
      intro key hkey _
      exact ⟨key, .nil key, hkey, fun _ => rfl, rfl⟩
    | cons step steps ih =>
      intro key hkey hr
      obtain ⟨sid, me⟩ := step
      obtain ⟨key', hstep, hkey', hQ, hsum⟩ := refresh_step hc hd sid (hr (sid, me) (by simp)) hkey
      obtain ⟨key'', hrest, hkey'', hQ', hsum'⟩ := ih key' hkey' fun s hs => hr s (by simp [hs])
      exact ⟨key'', .cons hstep hrest, hkey'', fun i => (hQ' i).trans (hQ i), hsum'.trans hsum⟩
  · intro sid key me honest run hrun p hp r hr newKey newKey' hok hok'
    obtain ⟨hQ, hQis⟩ := refreshed_agree ho hrun hp hr hok hok'
    exact ⟨hQis, hQ⟩

end Runs

section Examples

/-- The sample oracles with digests of 32 bytes. -/
def sampleOracles32 : Oracles (ZMod 1009) ℕ ℕ (List (ZMod 1009)) :=
  { sampleOracles with digestBytes := fun _ => List.replicate 32 0 }

theorem sampleOracles32_injective : sampleOracles32.Injective where
  sha256_inj := sampleOracles_injective.sha256_inj
  hmac_inj := sampleOracles_injective.hmac_inj

theorem sampleOracles32_complete : sampleOracles32.Complete sampleCurve where
  dl := sampleOracles_complete.dl
  batch := sampleOracles_complete.batch

def sampleCoins (i : Fin 5) : RefreshCoins 1009 ℕ 5 :=
  ⟨fun j => i + 2 * j + 1, fun _ => 0, i, List.replicate 16 0, length_sampleSid⟩

/-- Five parties with share 5 refresh twice. -/
theorem refresh_keeps_key_sample : ∃ key' : Fin 5 → KeyShareMp 1009 (ZMod 1009),
    Refreshed sampleOracles32 sampleJob [([], sampleCoins), ([1], sampleCoins)]
      (sharedKey sampleJob sampleCurve fun _ => 5) key' ∧
    ConsistentKeys sampleJob sampleCurve key' ∧ ∀ i, (key' i).Q = 25 := by
  have h := (refresh_keeps_key sampleOracles32_injective sampleOracles32_complete
    (fun _ => rfl)).1 [([], sampleCoins), ([1], sampleCoins)]
      (sharedKey sampleJob sampleCurve fun _ => 5)
    (consistentKeys_iff.mpr ⟨_, fun _ => rfl⟩) (fun step hstep => by
      have hr : ∀ i j, (sampleCoins i).r j ≠ 0 := by decide
      fin_cases hstep <;> exact hr)
  obtain ⟨key', hrefreshed, hkey, hQ, -⟩ := h
  refine ⟨key', hrefreshed, hkey, fun i => (hQ i).trans ?_⟩
  have hsum : (∑ _l : Fin 5, (5 : ZMod 1009)) • (1 : ZMod 1009) = 25 := by decide
  exact hsum

end Examples

end CbMpc
