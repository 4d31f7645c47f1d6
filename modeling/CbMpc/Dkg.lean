import CbMpc.AcHonest

/-!
# Key generation by n parties

`key_share_mp_t::dkg` at one party, as a function of its coins and of what its two
rounds deliver. The points are committed to in the first round and opened in the
second, where every party also repeats the session id and a hash of all commitments.
-/
namespace CbMpc

/-- The arguments that all parties of a key generation are called with. -/
structure DkgSession (q : ℕ) (E : Type) [AddCommGroup E] (n : ℕ) where
  job : Job n
  curve : Curve q E

/-- The coins of a party. -/
structure DkgParty (q : ℕ) (R : Type) where
  x : ZMod q
  sid : Bytes
  sid_length : sid.length = sidBytes
  comRand : R
  localSid : Bytes
  proofCoins : ℕ

/-- The first message: `sid_i`, `c` and `h_consistency`. -/
structure DkgMsg1 (D : Type) where
  sid : Bytes
  c : ComBuf D
  hConsistency : D

/-- The second message: `sid_msg`, `h`, `Qi`, `rho` and `pi`. -/
structure DkgMsg2 (E D R P : Type) where
  sid : Bytes
  h : D
  Qi : WirePoint E
  rho : R
  pi : P

variable {q n : ℕ} {E D R P : Type} [AddCommGroup E] [Module (ZMod q) E]
  [DecidableEq E] [DecidableEq D]

section Party

variable (o : Oracles E D R P) (S : DkgSession q E n)

def dkgConsistency : D := o.sha256 [.bytes S.curve.name]

def dkgFirst (i : Fin n) (me : DkgParty q R) : DkgMsg1 D where
  sid := me.sid
  c := comGen o me.sid (o.pid (S.job.names i)) me.comRand me.localSid
    [.point (.on (me.x • S.curve.generator))]
  hConsistency := dkgConsistency o S

/-- A party after the first round. -/
def dkgExchanged (i : Fin n) (me : DkgParty q R) (in1 : Inbox n (DkgMsg1 D)) :
    Outcome (Fin n → DkgMsg1 D) := do
  let first ← received i (dkgFirst o S i me) in1
  forEach (fun j => require (decide (j = i ∨ (first j).hConsistency = dkgConsistency o S)) .crypto)
    (List.finRange n)
  .ok first

/-- `sid`, the hash of all contributions. -/
def dkgSid (first : Fin n → DkgMsg1 D) : Bytes :=
  o.digestBytes (o.sha256 [.bytesList ((List.finRange n).map (fun j => (first j).sid))])

/-- `h`, the hash of all commitments. -/
def dkgHash (first : Fin n → DkgMsg1 D) : D :=
  o.sha256 [.bufs ((List.finRange n).map (fun j => (first j).c))]

def dkgSecond (i : Fin n) (me : DkgParty q R) (first : Fin n → DkgMsg1 D) : DkgMsg2 E D R P where
  sid := dkgSid o first
  h := dkgHash o first
  Qi := .on (me.x • S.curve.generator)
  rho := me.comRand
  pi := o.proveDl me.proofCoins (me.x • S.curve.generator) (residue me.x) (dkgSid o first) i

/-- One turn of the loop over the second messages. -/
def dkgCheck (i : Fin n) (first : Fin n → DkgMsg1 D)
    (second : Fin n → DkgMsg2 E D R P) (j : Fin n) :
    Outcome Unit :=
  if j = i then .ok () else do
    require (decide ((second j).sid = dkgSid o first)) .crypto
    require (decide ((second j).h = dkgHash o first)) .crypto
    comOpen o (first j).sid (o.pid (S.job.names j)) (second j).rho
      (first j).c [.point (second j).Qi]
    let Qj ← curveCheck false (second j).Qi
    match o.verifyDl Qj (dkgSid o first) j (second j).pi with
    | some rv => fail rv
    | none => .ok ()

/-- `key.Qis`, filled in for all parties. -/
def dkgQis (second : Fin n → DkgMsg2 E D R P) : OrderedMap PName E :=
  OrderedMap.empty.insertEach S.job.names (fun j => (second j).Qi.point) (List.finRange n)

/-- `key_share_mp_t::dkg` at party `i`, with the session id that it returns. -/
def dkg (i : Fin n) (me : DkgParty q R) (in1 : Inbox n (DkgMsg1 D))
    (in2 : Inbox n (DkgMsg2 E D R P)) :
    Outcome (KeyShareMp q E × Bytes) := do
  let first ← dkgExchanged o S i me in1
  let second ← received i (dkgSecond o S i me first) in2
  forEach (dkgCheck o S i first second) (List.finRange n)
  .ok (⟨residue me.x, (dkgQis S second).values.sum, dkgQis S second, S.curve, S.job.names i⟩,
    dkgSid o first)

end Party

/-- What the two rounds deliver to each party. -/
structure DkgInboxes (n : ℕ) (E D R P : Type) where
  in1 : Fin n → Inbox n (DkgMsg1 D)
  in2 : Fin n → Inbox n (DkgMsg2 E D R P)

section Run

variable (o : Oracles E D R P) (S : DkgSession q E n) (me : Fin n → DkgParty q R)

def dkgSend1 (i _j : Fin n) : Outcome (DkgMsg1 D) := .ok (dkgFirst o S i (me i))

/-- The second message is sent after all first messages have come in. -/
def dkgSend2 (in1 : Fin n → Inbox n (DkgMsg1 D)) (i _j : Fin n) : Outcome (DkgMsg2 E D R P) := do
  let first ← dkgExchanged o S i (me i) (in1 i)
  .ok (dkgSecond o S i (me i) first)

/-- A run with honest parties `honest`; the other parties send whatever they like. -/
structure DkgRun (honest : Finset (Fin n)) (run : DkgInboxes n E D R P) : Prop where
  round1 : Delivered honest (dkgSend1 o S me) run.in1
  round2 : Delivered honest (dkgSend2 o S me run.in1) run.in2

/-- What party `i` returns in a run. -/
def dkgResult (run : DkgInboxes n E D R P) (i : Fin n) : Outcome (KeyShareMp q E × Bytes) :=
  dkg o S i (me i) (run.in1 i) (run.in2 i)

end Run

variable {o : Oracles E D R P} {S : DkgSession q E n} {me : Fin n → DkgParty q R}
  {honest : Finset (Fin n)} {run run' : DkgInboxes n E D R P}

/-- What party `i` has seen and tested when it succeeds. -/
structure DkgAccepted (o : Oracles E D R P) (S : DkgSession q E n) (me : Fin n → DkgParty q R)
    (run : DkgInboxes n E D R P) (i : Fin n) (first : Fin n → DkgMsg1 D)
    (second : Fin n → DkgMsg2 E D R P) :
    Prop where
  exchanged : dkgExchanged o S i (me i) (run.in1 i) = .ok first
  received : received i (dkgSecond o S i (me i) first) (run.in2 i) = .ok second
  sid_eq : ∀ j, (second j).sid = dkgSid o first
  hash_eq : ∀ j, (second j).h = dkgHash o first
  opened : ∀ j, comOpen o (first j).sid (o.pid (S.job.names j)) (second j).rho (first j).c
    [.point (second j).Qi] =
    .ok ()

omit [DecidableEq E] in
theorem dkgExchanged_self {i : Fin n} {party : DkgParty q R} {in1 : Inbox n (DkgMsg1 D)}
    {first : Fin n → DkgMsg1 D} (h : dkgExchanged o S i party in1 = .ok first) :
    first i = dkgFirst o S i party := by
  obtain ⟨ms, hms, h⟩ := bind_ok_iff.mp h
  obtain ⟨u, -, h⟩ := bind_ok_iff.mp h
  cases h
  exact (received_ok hms).1

theorem exists_dkgAccepted {i : Fin n} {out : KeyShareMp q E × Bytes}
    (h : dkgResult o S me run i = .ok out) :
    ∃ first second, DkgAccepted o S me run i first second ∧
      out = (⟨residue (me i).x, (dkgQis S second).values.sum, dkgQis S second, S.curve,
        S.job.names i⟩, dkgSid o first) := by
  obtain ⟨first, hfirst, h⟩ := bind_ok_iff.mp h
  obtain ⟨second, hsecond, h⟩ := bind_ok_iff.mp h
  obtain ⟨u, hall, h⟩ := bind_ok_iff.mp h
  have hself := (received_ok hsecond).1
  have htested : ∀ j, j ≠ i → (second j).sid = dkgSid o first ∧ (second j).h = dkgHash o first ∧
      comOpen o (first j).sid (o.pid (S.job.names j)) (second j).rho (first j).c
        [.point (second j).Qi] = .ok () := by
    intro j hj
    have hcheck := forEach_ok_iff.mp hall j (List.mem_finRange j)
    rw [dkgCheck, if_neg hj] at hcheck
    obtain ⟨hsid, hcheck⟩ := require_bind_ok_iff.mp hcheck
    obtain ⟨hhash, hcheck⟩ := require_bind_ok_iff.mp hcheck
    obtain ⟨u, hopen, -⟩ := bind_ok_iff.mp hcheck
    exact ⟨of_decide_eq_true hsid, of_decide_eq_true hhash, hopen⟩
  refine ⟨first, second, ⟨hfirst, hsecond, fun j => ?_, fun j => ?_, fun j => ?_⟩,
    (Except.ok.inj h).symm⟩
  · by_cases hj : j = i
    · rw [hj, hself]
      rfl
    · exact (htested j hj).1
  · by_cases hj : j = i
    · rw [hj, hself]
      rfl
    · exact (htested j hj).2.1
  · by_cases hj : j = i
    · rw [hj, hself, dkgExchanged_self hfirst]
      exact comOpen_comGen o _ _ _ _ _
    · exact (htested j hj).2.2

section Views

variable {p : Fin n} {first : Fin n → DkgMsg1 D} {second : Fin n → DkgMsg2 E D R P}

omit [DecidableEq E] in
/-- The second message of an honest party is computed from its first round. -/
theorem DkgAccepted.message_eq (h : DkgAccepted o S me run p first second)
    (hrun : DkgRun o S me honest run) (hp : p ∈ honest) {m : Fin n} (hm : m ∈ honest) :
    ∃ firstM, dkgExchanged o S m (me m) (run.in1 m) = .ok firstM ∧
    second m = dkgSecond o S m (me m) firstM := by
  by_cases hmp : m = p
  · subst hmp
    exact ⟨first, h.exchanged, (received_ok h.received).1⟩
  · obtain ⟨-, msgs, hin, hms⟩ := received_ok h.received
    obtain ⟨firstM, hfirst, hmsg⟩ := bind_ok_iff.mp (hrun.round2 p hp msgs hin m hm hmp)
    refine ⟨firstM, hfirst, ?_⟩
    rw [hms m hmp]
    exact (Except.ok.inj hmsg).symm

omit [DecidableEq E] in
/-- The session id and the commitments of a successful party are those that any
honest party has seen in the first round. -/
theorem DkgAccepted.first_eq (h : DkgAccepted o S me run p first second) (ho : o.Injective)
    (hrun : DkgRun o S me honest run) (hp : p ∈ honest) {m : Fin n} (hm : m ∈ honest) :
    ∃ firstM, dkgExchanged o S m (me m) (run.in1 m) = .ok firstM ∧
    dkgSid o first = dkgSid o firstM ∧
      ∀ j, (first j).c = (firstM j).c := by
  obtain ⟨firstM, hfirst, hmsg⟩ := h.message_eq hrun hp hm
  have hsid : dkgSid o first = dkgSid o firstM := by
    rw [← h.sid_eq m, hmsg]
    rfl
  have hhash : dkgHash o first = dkgHash o firstM := by
    rw [← h.hash_eq m, hmsg]
    rfl
  have hlist := ho.sha256_inj _ _ hhash
  simp only [List.cons.injEq, Item.bufs.injEq] at hlist
  exact ⟨firstM, hfirst, hsid, fun j => List.map_inj_left.mp hlist.1 j (List.mem_finRange j)⟩

variable {r : Fin n} {first' : Fin n → DkgMsg1 D} {second' : Fin n → DkgMsg2 E D R P}

omit [DecidableEq E] in
/-- Successful parties that have opened the same commitments hold the same points. -/
theorem DkgAccepted.qis_eq (h : DkgAccepted o S me run p first second)
    (h' : DkgAccepted o S me run' r first' second') (ho : o.Injective)
    (hc : ∀ j, (first j).c = (first' j).c) :
    dkgQis S second = dkgQis S second' := by
  have hpoint : ∀ j, (second j).Qi = (second' j).Qi := by
    intro j
    have hopen := h.opened j
    rw [hc j] at hopen
    obtain ⟨-, hargs⟩ := comOpen_binding ho hopen (h'.opened j)
    simpa using hargs
  simp only [dkgQis, hpoint]

end Views

omit [Module (ZMod q) E] [DecidableEq E] [DecidableEq D] in
theorem find_dkgQis (second : Fin n → DkgMsg2 E D R P) (l : Fin n) :
    (dkgQis S second).find (S.job.names l) = some (second l).Qi.point :=
  OrderedMap.find_insertEach _ S.job.names_injective (fun j =>
    (second j).Qi.point) (List.mem_finRange l)

omit [Module (ZMod q) E] [DecidableEq E] [DecidableEq D] in
theorem sum_dkgQis (second : Fin n → DkgMsg2 E D R P) :
    (dkgQis S second).values.sum = ∑ l, (second l).Qi.point := by
  rw [Fin.sum_univ_def]
  refine OrderedMap.sum_values_of_find S.job.names (fun l => (second l).Qi.point) (List.finRange n)
    ((List.nodup_finRange n).map S.job.names_injective) (fun l _ =>
      find_dkgQis second l) fun k hk => ?_
  simpa [dkgQis, OrderedMap.find_insertEach_isSome] using hk

variable [hq : Fact q.Prime]

section Honest

/-- The first messages of honest parties. -/
def honestFirst (o : Oracles E D R P) (S : DkgSession q E n) (me : Fin n → DkgParty q R)
    (j : Fin n) : DkgMsg1 D :=
  dkgFirst o S j (me j)

def honestSecond (o : Oracles E D R P) (S : DkgSession q E n)
    (me : Fin n → DkgParty q R) (j : Fin n) :
    DkgMsg2 E D R P := dkgSecond o S j (me j) (honestFirst o S me)

/-- The run in which all parties are honest and everything arrives. -/
def honestDkgRun (o : Oracles E D R P) (S : DkgSession q E n) (me : Fin n → DkgParty q R) :
    DkgInboxes n E D R P where
  in1 _ := .ok (honestFirst o S me)
  in2 _ := .ok (honestSecond o S me)

omit [DecidableEq E] hq in
theorem dkgExchanged_honest (i : Fin n) :
    dkgExchanged o S i (me i) (.ok (honestFirst o S me)) = .ok (honestFirst o S me) := by
  have hrecv : received i (dkgFirst o S i (me i)) (.ok (honestFirst o S me)) =
      .ok (honestFirst o S me) :=
    congrArg Except.ok (Function.update_eq_self i (honestFirst o S me))
  have hloop : forEach (fun j =>
      require (decide (j = i ∨ (honestFirst o S me j).hConsistency = dkgConsistency o S))
      .crypto) (List.finRange n) = .ok () :=
    forEach_ok_iff.mpr fun j _ => by simp [honestFirst, dkgFirst]
  rw [dkgExchanged, hrecv, ok_bind, hloop, ok_bind]

omit [DecidableEq E] hq in
theorem honestDkgRun_dkgRun (honest : Finset (Fin n)) :
    DkgRun o S me honest (honestDkgRun o S me) where
  round1 i _ msgs h k _ _ := by
    cases h
    rfl
  round2 i _ msgs h k _ _ := by
    cases h
    simp only [dkgSend2, honestDkgRun, dkgExchanged_honest, ok_bind]
    rfl

/-- The key of party `i` when the parties have drawn `x`. -/
def sharedKey (job : Job n) (curve : Curve q E) (x : Fin n → ZMod q) (i : Fin n) : KeyShareMp q E :=
  ⟨residue (x i), (∑ l, x l) • curve.generator,
    OrderedMap.empty.insertEach job.names (fun j => x j • curve.generator) (List.finRange n), curve,
    job.names i⟩

/-- Key generation by honest parties whose shares are not zero. -/
theorem dkg_honest (ho : o.Complete S.curve) (hx : ∀ j, (me j).x ≠ 0) (i : Fin n) :
    dkgResult o S me (honestDkgRun o S me) i =
      .ok (sharedKey S.job S.curve (fun j => (me j).x) i, dkgSid o (honestFirst o S me)) := by
  have hrecv : received i (dkgSecond o S i (me i) (honestFirst o S me))
      (.ok (honestSecond o S me)) =
      .ok (honestSecond o S me) :=
        congrArg Except.ok (Function.update_eq_self i (honestSecond o S me))
  have hchecks : forEach (dkgCheck o S i (honestFirst o S me) (honestSecond o S me))
      (List.finRange n) = .ok () := by
    refine forEach_ok_iff.mpr fun j _ => ?_
    have hopen : comOpen o (me j).sid (o.pid (S.job.names j)) (me j).comRand
        (honestFirst o S me j).c
        [.point (.on ((me j).x • S.curve.generator))] = .ok () := comOpen_comGen o _ _ _ _ _
    have hpt := curveCheck_smul_generator S.curve false (hx j)
    have hproof := ho.dl (me j).proofCoins (me j).x (dkgSid o (honestFirst o S me)) j (hx j)
    rw [dkgCheck]
    split
    · rfl
    · simp only [honestSecond, dkgSecond, decide_true, require_true, ok_bind]
      rw [show (honestFirst o S me j).sid = (me j).sid from rfl, hopen, ok_bind, hpt,
        ok_bind, hproof]
  have hsum : (dkgQis S (honestSecond o S me)).values.sum =
      (∑ l, (me l).x) • S.curve.generator := by
    rw [sum_dkgQis, Finset.sum_smul]
    rfl
  simp only [dkgResult, dkg, honestDkgRun, dkgExchanged_honest, ok_bind, hrecv, hchecks, hsum]
  rfl

end Honest

/-- Honest parties that succeed hold the same session id, the same points, the same
key and matching shares; and the points are those of every other run in which some
honest party has seen the same first messages, whatever was sent after that. -/
theorem dkg_agreement (ho : o.Injective) (hrun : DkgRun o S me honest run)
    {p r : Fin n} (hp : p ∈ honest) (hr : r ∈ honest) {key key' : KeyShareMp q E} {sid sid' : Bytes}
    (hok : dkgResult o S me run p = .ok (key, sid))
    (hok' : dkgResult o S me run r = .ok (key', sid')) :
    sid = sid' ∧ key.Qis = key'.Qis ∧ key.Q = key'.Q ∧
    (∃ Qi : Fin n → E, (∀ l, key.Qis.find (S.job.names l) = some (Qi l)) ∧ key.Q = ∑ l, Qi l) ∧
    (∃ X, S.curve.mulToGenerator key.xShare = .ok X ∧ key'.Qis.find (S.job.names p) = some X) ∧
    ∀ run', DkgRun o S me honest run' → ∀ m ∈ honest, run'.in1 m = run.in1 m →
      ∀ p' ∈ honest, ∀ key'' sid'', dkgResult o S me run' p' = .ok (key'', sid'') →
        key''.Qis = key.Qis ∧ key''.Q = key.Q ∧ sid'' = sid := by
  obtain ⟨first, second, hacc, hout⟩ := exists_dkgAccepted hok
  obtain ⟨first', second', hacc', hout'⟩ := exists_dkgAccepted hok'
  obtain ⟨rfl, rfl⟩ := Prod.mk.inj hout
  obtain ⟨rfl, rfl⟩ := Prod.mk.inj hout'
  -- both parties have repeated what r has seen in the first round
  obtain ⟨firstR, hfirstR, hsid, hc⟩ := hacc.first_eq ho hrun hp hr
  have hsame : firstR = first' := Except.ok.inj (hfirstR.symm.trans hacc'.exchanged)
  subst hsame
  have hqis := hacc.qis_eq hacc' ho hc
  refine ⟨hsid, hqis, by simp only [hqis], ⟨_, find_dkgQis second, sum_dkgQis second⟩,
    ⟨_, mulToGenerator_residue _ _, ?_⟩,
    fun run' hrun' m hm hin p' hp' key'' sid'' hok'' => ?_⟩
  · rw [← hqis, find_dkgQis, (received_ok hacc.received).1]
    rfl
  · obtain ⟨first'', second'', hacc'', hout''⟩ := exists_dkgAccepted hok''
    obtain ⟨rfl, rfl⟩ := Prod.mk.inj hout''
    obtain ⟨firstM, hfirstM, hsidM, hcM⟩ := hacc.first_eq ho hrun hp hm
    obtain ⟨firstM', hfirstM', hsidM', hcM'⟩ := hacc''.first_eq ho hrun' hp' hm
    rw [hin] at hfirstM'
    have hM : firstM = firstM' := Except.ok.inj (hfirstM.symm.trans hfirstM')
    subst hM
    have hqis' := hacc''.qis_eq hacc ho fun j => (hcM' j).trans (hcM j).symm
    exact ⟨hqis', by simp only [hqis'], hsidM'.trans hsidM.symm⟩

section Examples

def sampleDkgSession : DkgSession 1009 (ZMod 1009) 5 := ⟨sampleJob, sampleCurve⟩

def sampleDkgParty (i : Fin 5) : DkgParty 1009 ℕ :=
  ⟨5, List.replicate 16 0, length_sampleSid, i, [], 0⟩

theorem sampleDkg_ok (i : Fin 5) : dkgResult sampleOracles sampleDkgSession sampleDkgParty
    (honestDkgRun sampleOracles sampleDkgSession sampleDkgParty) i =
      .ok (sharedKey sampleJob sampleCurve (fun _ => 5) i, dkgSid sampleOracles
        (honestFirst sampleOracles sampleDkgSession sampleDkgParty)) := by
  refine dkg_honest sampleOracles_complete (fun j => ?_) i
  exact (by decide : (5 : ZMod 1009) ≠ 0)

/-- Two of five parties with share 5 agree, and hold what the first messages fix. -/
theorem dkg_agreement_sample : ∃ (key key' : KeyShareMp 1009 (ZMod 1009)) (sid sid' : Bytes),
    dkgResult sampleOracles sampleDkgSession sampleDkgParty
      (honestDkgRun sampleOracles sampleDkgSession sampleDkgParty) 0 = .ok (key, sid) ∧
    dkgResult sampleOracles sampleDkgSession sampleDkgParty
      (honestDkgRun sampleOracles sampleDkgSession sampleDkgParty) 1 = .ok (key', sid') ∧
    sid = sid' ∧ key.Qis = key'.Qis ∧ key.Q = key'.Q := by
  have h := dkg_agreement sampleOracles_injective (honestDkgRun_dkgRun {0, 1})
    (p := 0) (r := 1) (by decide)
    (by decide) (sampleDkg_ok 0) (sampleDkg_ok 1)
  exact ⟨_, _, _, _, sampleDkg_ok 0, sampleDkg_ok 1, h.1, h.2.1, h.2.2.1⟩

end Examples

end CbMpc
