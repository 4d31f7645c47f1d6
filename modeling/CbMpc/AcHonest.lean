import CbMpc.AcDkg
import CbMpc.AdditiveShare

/-!
# Runs of honest parties

Every dealer's coins determine a sharing of its secret along the tree. When the
public points of all dealers are affine, an honest run goes through and each party
ends up with its part of the sum of the sharings, added on refresh to the sharing
that the keys are from.
-/
namespace CbMpc

open Node

variable {q n : ℕ} {E D R P : Type} [AddCommGroup E] [Module (ZMod q) E] [hq : Fact q.Prime]

/-- The arguments pass the checks, the leaves are the parties, and the pids are
usable as evaluation points. -/
structure AcSession.Valid (o : Oracles E D R P) (S : AcSession q E n) : Prop where
  tree : S.ac.validateTree = .ok ()
  enough : S.ac.enoughForQuorum S.quorumNames = true
  leaves : ∀ nm, nm ∈ S.ac.listLeafNames ↔ ∃ l, S.job.names l = nm
  positions : Positions (pidPos q o.pid) S.ac
  pidsInRange : PidsInRange q o.pid S.ac

section

omit [Module (ZMod q) E]

theorem AcSession.Valid.name_mem {o : Oracles E D R P} {S : AcSession q E n}
    (h : S.Valid o) (l : Fin n) :
    S.job.names l ∈ S.ac.listLeafNames := (h.leaves _).mpr ⟨l, rfl⟩

theorem AcSession.Valid.quorumList_ne_nil {o : Oracles E D R P}
    {S : AcSession q E n} (hv : S.Valid o) :
    S.quorumList ≠ [] := by
  intro hnil
  have h := hv.enough
  have hempty : S.quorumNames = ∅ := by rw [AcSession.quorumNames, hnil]; rfl
  rw [hempty, enoughForQuorum_empty (validateTree_ok hv.tree).1] at h
  simp at h

theorem AcSession.Valid.name_ne_root {o : Oracles E D R P} {S : AcSession q E n}
    (hv : S.Valid o) (l : Fin n) :
    S.job.names l ≠ S.ac.name := by
  rw [(validateTree_ok hv.tree).2.2]
  exact S.job.names_nonempty l

end

/-- The secret that a party deals. -/
def dealtSecret (S : AcSession q E n) (me : AcParty q E R) : ZMod q :=
  if S.isRefresh then 0 else me.r

/-- The coins of a party deal the sharing `τ`. -/
structure Deals (o : Oracles E D R P) (S : AcSession q E n) (me : AcParty q E R)
    (τ : PName → ZMod q) : Prop where
  dealt : ∃ rest, shareWithInternals o.pid S.curve S.ac (residue (dealtSecret S me)) me.rand =
    .ok (internalsOf S.curve τ S.ac rest)
  root : τ S.ac.name = dealtSecret S me
  consistent : Consistent (pidPos q o.pid) τ S.ac

/-- The map that the dealer of `τ` publishes. -/
def pubMap (S : AcSession q E n) (τ : PName → ZMod q) : OrderedMap PName E :=
  if S.isRefresh then
    (OrderedMap.ofKeys (fun nm => τ nm • S.curve.generator) S.ac.names).erase S.ac.name
  else .ofKeys (fun nm => τ nm • S.curve.generator) S.ac.names

/-- All points that the dealer of `τ` publishes are affine. -/
def AffineDealing (S : AcSession q E n) (τ : PName → ZMod q) : Prop :=
  ∀ nm ∈ S.ac.names, (S.isRefresh = true → nm ≠ S.ac.name) → τ nm ≠ 0

section Map

variable {S : AcSession q E n} {τ : PName → ZMod q}

theorem find_pubMap (nm : PName) : (pubMap S τ).find nm =
    if nm ∈ S.ac.names ∧ (S.isRefresh = true → nm ≠ S.ac.name) then
      some (τ nm • S.curve.generator) else none := by
  cases hr : S.isRefresh with
  | true => by_cases h : nm = S.ac.name <;> simp [pubMap, hr, h]
  | false => simp [pubMap, hr]

theorem find_pubMap_some {nm : PName} {v : E} (h : (pubMap S τ).find nm = some v) :
    nm ∈ S.ac.names ∧ (S.isRefresh = true → nm ≠ S.ac.name) ∧ v = τ nm • S.curve.generator := by
  rw [find_pubMap] at h
  split at h
  · rename_i hc
    exact ⟨hc.1, hc.2, (Option.some.inj h).symm⟩
  · simp at h

theorem values_pubMap : (pubMap S τ).values =
      ((pubMap S τ).keys.map τ).map (fun w => w • S.curve.generator) := by
  rw [List.map_map]
  exact OrderedMap.values_eq_map_keys fun k v h => (find_pubMap_some h).2.2

theorem mem_keys_pubMap {nm : PName} :
    nm ∈ (pubMap S τ).keys ↔ nm ∈ S.ac.names ∧ (S.isRefresh = true → nm ≠ S.ac.name) := by
  rw [OrderedMap.mem_keys_iff, find_pubMap]
  split
  · rename_i h
    simpa using h
  · rename_i h
    simpa using h

/-- On refresh the receiver puts the root back, and then the map is complete. -/
theorem find_pubMap_insert (hroot : S.isRefresh = true → τ S.ac.name = 0)
    {nm : PName} (h : nm ∈ S.ac.names) :
    (if S.isRefresh then (pubMap S τ).insert S.ac.name 0 else pubMap S τ).find nm =
      some (τ nm • S.curve.generator) := by
  cases hr : S.isRefresh with
  | true =>
    by_cases hn : nm = S.ac.name
    · simp [hn, hroot hr]
    · simp [hn, find_pubMap, hr, h]
  | false => simp [find_pubMap, hr, h]

end Map

variable {o : Oracles E D R P} {S : AcSession q E n}

theorem exists_labelling (hv : S.Valid o) (me : AcParty q E R) : ∃ τ, Deals o S me τ := by
  obtain ⟨hwf, hnd, -⟩ := validateTree_ok hv.tree
  obtain ⟨draws, rest, τ, hrand, hdealt, hroot, hcons⟩ :=
    exists_dealt o.pid (some S.curve) hwf hnd hv.positions
    hv.pidsInRange (dealtSecret S me) me.rand
  exact ⟨τ, ⟨rest, by rw [hrand]; exact hdealt.shareWithInternals_eq rest⟩, hroot, hcons⟩

/-- The coins determine the sharing. -/
theorem Deals.unique {me : AcParty q E R} {τ τ' : PName → ZMod q}
    (h : Deals o S me τ) (h' : Deals o S me τ') {nm : PName}
    (hnm : nm ∈ S.ac.names) : τ nm = τ' nm := by
  obtain ⟨rest, hst⟩ := h.dealt
  obtain ⟨rest', hst'⟩ := h'.dealt
  have heq := Except.ok.inj (hst.symm.trans hst')
  have hfind := congrArg (fun st => st.acInternalShares.find nm) heq
  simpa [internalsOf, hnm] using hfind

/-- The dealing of `τ`. -/
def dealingOf (o : Oracles E D R P) (S : AcSession q E n) (sid : Bytes)
    (i : Fin n) (me : AcParty q E R) (τ : PName → ZMod q) : Dealing n E D P :=
  let pi := o.proveBatchDl me.proofCoins (pubMap S τ).values
    ((pubMap S τ).keys.map (fun nm => residue (τ nm))) sid i
  { acPub := pubMap S τ
    pi := pi
    c := comGen o [] (o.pid (S.job.names i)) me.comRand me.localSid
      (comArgs ((pubMap S τ).values.map .on) pi)
    xij := fun j => residue (τ (S.job.names j)) }

theorem Deals.deal_eq {me : AcParty q E R} {τ : PName → ZMod q}
    (hv : S.Valid o) (h : Deals o S me τ) (sid : Bytes) (i : Fin n) :
    deal o S sid i me = .ok (dealingOf o S sid i me τ) := by
  obtain ⟨rest, hst⟩ := h.dealt
  have hsecret : (if S.isRefresh then 0 else residue me.r) = residue (dealtSecret S me) := by
    cases hr : S.isRefresh <;> simp [dealtSecret, hr]
  have hpub : (if S.isRefresh then
      (internalsOf S.curve τ S.ac rest).acInternalPubShares.erase S.ac.name
      else (internalsOf S.curve τ S.ac rest).acInternalPubShares) = pubMap S τ := rfl
  have hkeys : (pubMap S τ).keys.mapM (mapAt (internalsOf S.curve τ S.ac rest).acInternalShares) =
      .ok ((pubMap S τ).keys.map (fun nm => residue (τ nm))) := by
    refine mapM_ok fun nm hnm => mapAt_eq ?_
    simp [internalsOf, (mem_keys_pubMap.mp hnm).1]
  have hx : ∀ j, ((internalsOf S.curve τ S.ac rest).acShares.find (S.job.names j)).getD 0 =
      residue (τ (S.job.names j)) := by
    intro j
    simp [internalsOf, hv.name_mem j]
  simp only [deal, hsecret, hst, ok_bind, hpub, hkeys, hx]
  rfl

/-- The session id of an honest run. -/
def honestSid (o : Oracles E D R P) (S : AcSession q E n) (me : Fin n → AcParty q E R) : Bytes :=
  if S.sid.isEmpty then
    (o.digestBytes (o.sha256 [.bytesList ((List.finRange n).map (fun j => (me j).sidPart))])).take
      sidBytes
  else S.sid

variable [DecidableEq E] [DecidableEq D] [Inhabited R] [Inhabited P] {me : Fin n → AcParty q E R}
  {rv : ErrorCode} {τ : Fin n → PName → ZMod q}

omit [Module (ZMod q) E] [DecidableEq E] [DecidableEq D] [Inhabited R] [Inhabited P] in
theorem acStart_honest (hv : S.Valid o) (i : Fin n) :
    acStart o S i (me i) (honestIn0 S me rv i) = .ok (honestSid o S me) := by
  have hrecv : received i (me i).sidPart (honestIn0 S me rv i) = .ok (fun j => (me j).sidPart) :=
    received_honestInbox (fun j => (me j).sidPart) fun k _ =>
      ⟨by simp [acSend0, hv.tree, hv.enough], rfl⟩
  have hlen : ((List.finRange n).map (fun j => (me j).sidPart)).all (fun c =>
      c.length = sidBytes) = true := by
    simp [(me _).sidPart_length]
  simp only [acStart, hv.tree, hv.enough, require_true, ok_bind, honestSid]
  split
  · simp only [generateSidFixedMp, hrecv, ok_bind, hlen, require_true]
  · rfl

/-- The dealing of a party in an honest run. -/
def honestDealing (o : Oracles E D R P) (S : AcSession q E n) (me : Fin n → AcParty q E R)
    (τ : Fin n → PName → ZMod q) (i : Fin n) : Dealing n E D P :=
  if i ∈ S.quorum then dealingOf o S (honestSid o S me) i (me i) (τ i) else noDealing

omit [DecidableEq E] [Inhabited R] in
theorem acDealing_honest (hv : S.Valid o)
    (hτ : ∀ j ∈ S.quorum, Deals o S (me j) (τ j)) (i : Fin n) :
    acDealing o S i (me i) (honestIn0 S me rv i) (honestIn1 o S me rv i) =
      .ok (honestSid o S me, honestDealing o S me τ i) := by
  have hrecv : received i (hConsistency o S (honestSid o S me)) (honestIn1 o S me rv i) =
      .ok (fun _ => hConsistency o S (honestSid o S me)) :=
    received_honestInbox (fun _ => hConsistency o S (honestSid o S me)) fun k _ =>
      ⟨by simp [acSend1, acStart_honest hv], rfl⟩
  have hloop : forEach (fun j => require (decide (j = i ∨ hConsistency o S (honestSid o S me) =
      hConsistency o S (honestSid o S me))) .crypto) (List.finRange n) = .ok () :=
    forEach_ok_iff.mpr fun j _ => by simp
  have hdeal : ownDealing o S (honestSid o S me) i (me i) = .ok (honestDealing o S me τ i) := by
    by_cases h : i ∈ S.quorum
    · simp [h, ownDealing, honestDealing, (hτ i h).deal_eq hv]
    · simp [h, ownDealing, honestDealing]
  rw [acDealing, acStart_honest hv, ok_bind, hrecv, ok_bind, hloop, ok_bind, hdeal, ok_bind]

/-- The state of a party before the last round of an honest run. -/
def honestState (o : Oracles E D R P) (S : AcSession q E n) (me : Fin n → AcParty q E R)
    (τ : Fin n → PName → ZMod q) (i : Fin n) : AcState n E D P :=
  ⟨honestSid o S me, honestDealing o S me τ i, fun j => (honestDealing o S me τ j).c⟩

omit [DecidableEq E] [Inhabited R] in
theorem acCommitted_honest (hv : S.Valid o)
    (hτ : ∀ j ∈ S.quorum, Deals o S (me j) (τ j)) (i : Fin n) :
    acCommitted o S i (me i) (honestIn0 S me rv i) (honestIn1 o S me rv i) (honestIn2 o S me rv i) =
      .ok (honestState o S me τ i) := by
  have hrecv : received i (honestDealing o S me τ i).c (honestIn2 o S me rv i) =
      .ok (fun j => (honestDealing o S me τ j).c) :=
    received_honestInbox (fun j => (honestDealing o S me τ j).c) fun k _ =>
      ⟨by simp [acSend2, acDealing_honest hv hτ], rfl⟩
  simp only [acCommitted, acDealing_honest hv hτ, ok_bind, hrecv]
  rfl

/-- What party `i` receives in the last round of an honest run. -/
def honestMessages (o : Oracles E D R P) (S : AcSession q E n) (me : Fin n → AcParty q E R)
    (τ : Fin n → PName → ZMod q) (i j : Fin n) : AcMsg E D R P :=
  acMessage o S j (me j) (honestState o S me τ j) i

theorem received_honestIn3 (hv : S.Valid o) (hτ : ∀ j ∈ S.quorum, Deals o S (me j) (τ j))
    (haff : ∀ j ∈ S.quorum, AffineDealing S (τ j)) (i : Fin n) :
    received i (acMessage o S i (me i) (honestState o S me τ i) i) (honestIn3 o S me rv i) =
      .ok (honestMessages o S me τ i) := by
  refine received_honestInbox (honestMessages o S me τ i) fun k _ =>
    ⟨by simp [acSend3, acCommitted_honest hv hτ, honestMessages], ?_⟩
  simp only [AcMsg.deserializes, honestMessages, acMessage, honestState,
    OrderedMap.values_mapValues, List.all_map, List.all_eq_true, OrderedMap.mem_values_iff,
    Function.comp_apply, decide_eq_true_eq, ne_eq, WirePoint.on.injEq]
  rintro P ⟨nm, hfind⟩
  by_cases hk : k ∈ S.quorum
  · simp only [honestDealing, hk, if_true, dealingOf] at hfind
    obtain ⟨hnm, hroot, rfl⟩ := find_pubMap_some hfind
    rw [smul_generator_eq_zero]
    exact haff k hk nm hnm hroot
  · simp [honestDealing, hk, noDealing] at hfind

omit [DecidableEq E] [DecidableEq D] in
theorem honestMessages_eq (i : Fin n) {j : Fin n} (hj : j ∈ S.quorum) :
    honestMessages o S me τ i j =
    ⟨hAll o S (honestSid o S me) (fun j => (honestDealing o S me τ j).c),
      (pubMap S (τ j)).mapValues .on, (dealingOf o S (honestSid o S me) j (me j) (τ j)).pi,
      (me j).comRand, residue (τ j (S.job.names i))⟩ := by
  simp [honestMessages, acMessage, honestState, honestDealing, hj, dealingOf]

omit [DecidableEq E] in
theorem mapValues_on_point (m : OrderedMap PName E) :
    (m.mapValues WirePoint.on).mapValues WirePoint.point = m := by
  refine OrderedMap.ext_find fun nm => ?_
  cases h : m.find nm <;> simp [h, WirePoint.point]

/-- The messages of the last round are those of an honest run, up to the shares. -/
def HonestUpToShares (o : Oracles E D R P) (S : AcSession q E n) (me : Fin n → AcParty q E R)
    (τ : Fin n → PName → ZMod q) (i : Fin n) (ms : Fin n → AcMsg E D R P) : Prop :=
  ∀ j, ms j = { honestMessages o S me τ i j with xij := (ms j).xij }

omit [DecidableEq E] [DecidableEq D] in
theorem honestUpToShares_self (i : Fin n) :
    HonestUpToShares o S me τ i (honestMessages o S me τ i) := fun _ => rfl

variable {i : Fin n} {ms : Fin n → AcMsg E D R P}

section

omit [DecidableEq E] [DecidableEq D]

theorem HonestUpToShares.eq (hms : HonestUpToShares o S me τ i ms) {j : Fin n}
    (hj : j ∈ S.quorum) : ms j =
    ⟨hAll o S (honestSid o S me) (fun j => (honestDealing o S me τ j).c),
      (pubMap S (τ j)).mapValues .on, (dealingOf o S (honestSid o S me) j (me j) (τ j)).pi,
      (me j).comRand, (ms j).xij⟩ := by
  have h := hms j
  rw [honestMessages_eq i hj] at h
  exact h

theorem HonestUpToShares.representativeHash_eq (hms : HonestUpToShares o S me τ i ms)
    (hv : S.Valid o) :
    representativeHash S ms =
      some (hAll o S (honestState o S me τ i).sid (honestState o S me τ i).cs) :=
  CbMpc.representativeHash_eq hv.quorumList_ne_nil fun j hj => by
    rw [hms.eq hj]
    rfl

/-- The map of a dealer in an honest run, as the party itself or the others read it. -/
theorem HonestUpToShares.find_dealerMap (hms : HonestUpToShares o S me τ i ms)
    (hτ : ∀ j ∈ S.quorum, Deals o S (me j) (τ j)) {j : Fin n} (hj : j ∈ S.quorum)
    {nm : PName} (hnm : nm ∈ S.ac.names) (hroot : S.isRefresh = true → j = i → nm ≠ S.ac.name) :
    (dealerMap S i (honestState o S me τ i).dealing.acPub ms j).find nm =
      some (τ j nm • S.curve.generator) := by
  by_cases hji : j = i
  · subst hji
    have hc : nm ∈ S.ac.names ∧ (S.isRefresh = true → nm ≠ S.ac.name) :=
      ⟨hnm, fun hr => hroot hr rfl⟩
    simp only [dealerMap, if_true, honestState, honestDealing, hj, dealingOf]
    rw [find_pubMap, if_pos hc]
  · rw [dealerMap, hms.eq hj]
    simp only [hji, if_false, mapValues_on_point]
    refine find_pubMap_insert (fun hr => ?_) hnm
    rw [(hτ j hj).root, dealtSecret, if_pos hr]

end

omit [DecidableEq E] [DecidableEq D] [Inhabited R] [Inhabited P] in
/-- The points of a sharing. -/
theorem Deals.points {me : AcParty q E R} {τ : PName → ZMod q} (h : Deals o S me τ) :
    Consistent (pidPos q o.pid) (fun nm => τ nm • S.curve.generator) S.ac :=
  h.consistent.map (LinearMap.toSpanSingleton (ZMod q) E S.curve.generator)

section

omit [Inhabited R] [Inhabited P]

/-- A dealing whose commitment opens passes when its points are affine and its proof
is the honest one. -/
theorem openDealing_of_points (ho : o.Complete S.curve)
    {st : AcState n E D P} {j : Fin n} (coins : ℕ) (ws : List (ZMod q))
    (hne : ws ≠ []) (hnz : ∀ w ∈ ws, w ≠ 0)
    (hvalues : (ms j).acPub.values = ws.map (fun w => .on (w • S.curve.generator)))
    (hpi : (ms j).pi = o.proveBatchDl coins (ws.map (fun w => w • S.curve.generator))
      (ws.map residue) st.sid j)
    (hcom : comOpen o [] (o.pid (S.job.names j)) (ms j).rho (st.cs j)
      (comArgs (ms j).acPub.values (ms j).pi) =
      .ok ()) : openDealing o S st ms j = .ok () := by
  have hcheck : forEach (fun R => do
      let _ ← curveCheck false R
      .ok ()) (ws.map (fun w => WirePoint.on (w • S.curve.generator))) = .ok () := by
    refine forEach_ok_iff.mpr fun R hR => ?_
    obtain ⟨w, hw, rfl⟩ := List.mem_map.mp hR
    simp only [curveCheck_smul_generator S.curve false (hnz w hw), ok_bind]
  have hpts : (ws.map (fun w => WirePoint.on (w • S.curve.generator))).map WirePoint.point =
      ws.map (fun w => w • S.curve.generator) := by simp [WirePoint.point, Function.comp_def]
  simp only [openDealing, hcom, ok_bind]
  rw [hvalues, hcheck, ok_bind, hpts, hpi, ho.batch coins ws st.sid j hne hnz]

/-- The dealing of an honest dealer opens. -/
theorem openDealing_of_deals (hv : S.Valid o) (ho : o.Complete S.curve)
    (me : AcParty q E R) {σ : PName → ZMod q} (haff : AffineDealing S σ)
    {st : AcState n E D P} {j : Fin n} (hpub : (ms j).acPub = (pubMap S σ).mapValues .on)
    (hpi : (ms j).pi = (dealingOf o S st.sid j me σ).pi) (hrho : (ms j).rho = me.comRand)
    (hcs : st.cs j = (dealingOf o S st.sid j me σ).c) :
    openDealing o S st ms j = .ok () := by
  have hvalues : (ms j).acPub.values = (pubMap S σ).values.map .on := by
    rw [hpub]
    exact OrderedMap.values_mapValues _ _
  have hkey : (pubMap S σ).keys ≠ [] :=
    List.ne_nil_of_mem (mem_keys_pubMap.mpr ⟨listLeafNames_subset _ (hv.name_mem j),
      fun _ => hv.name_ne_root j⟩)
  refine openDealing_of_points ho me.proofCoins ((pubMap S σ).keys.map σ) (by simpa using hkey)
    (fun w hw => ?_) ?_ ?_ ?_
  · obtain ⟨nm, hnm, rfl⟩ := List.mem_map.mp hw
    obtain ⟨hnames, hroot⟩ := mem_keys_pubMap.mp hnm
    exact haff nm hnames hroot
  · rw [hvalues, values_pubMap, List.map_map]
    rfl
  · rw [hpi, ← values_pubMap, List.map_map]
    rfl
  · rw [hvalues, hpi, hrho, hcs]
    exact comOpen_comGen o [] _ _ _ _

/-- A received share passes when the points that come with it are those of a sharing
and it is right in the exponent. -/
theorem checkReceived_of_sharing (hv : S.Valid o) {st : AcState n E D P}
    {j : Fin n} {σ : PName → ZMod q} (hopen : openDealing o S st ms j = .ok ())
    (hσ : Consistent (pidPos q o.pid) σ S.ac)
    (hfind : ∀ nm ∈ S.ac.names,
      (dealerMap S i st.dealing.acPub ms j).find nm = some (σ nm • S.curve.generator))
    (hx : S.curve.mulToGenerator (ms j).xij = .ok (σ (S.job.names i) • S.curve.generator)) :
    checkReceived o S i st ms j = .ok () := by
  obtain ⟨hwf, hnd, -⟩ := validateTree_ok hv.tree
  have hpoints := hσ.map (LinearMap.toSpanSingleton (ZMod q) E S.curve.generator)
  have hverify := verifyShare_eq S.curve hwf hnd hv.positions hpoints hfind (hv.name_mem i) hx
  rw [checkReceived_eq, hopen, ok_bind, mapAt_eq (hfind _ (name_mem_names _)), ok_bind]
  exact hverify

end

/-- The dealing of an honest dealer passes when the share is right in the exponent. -/
theorem HonestUpToShares.checkDealer_eq (hms : HonestUpToShares o S me τ i ms) (hv : S.Valid o)
    (ho : o.Complete S.curve) (hτ : ∀ j ∈ S.quorum, Deals o S (me j) (τ j))
    (haff : ∀ j ∈ S.quorum, AffineDealing S (τ j)) {j : Fin n} (hj : j ∈ S.quorum)
    (hx : S.curve.mulToGenerator (ms j).xij = .ok (τ j (S.job.names i) • S.curve.generator)) :
    checkDealer o S i (honestState o S me τ i) ms j = .ok () := by
  have hrep :
      decide (some (ms j).hAll =
        some (hAll o S (honestState o S me τ i).sid (honestState o S me τ i).cs)) =
      true := by
    rw [hms.eq hj]
    exact decide_eq_true rfl
  rw [checkDealer, hms.representativeHash_eq hv, hrep, require_true, ok_bind]
  by_cases hji : j = i
  · rw [if_pos hji]
  rw [if_neg hji]
  refine checkReceived_of_sharing hv ?_ (hτ j hj).consistent
    (fun nm hnm => hms.find_dealerMap hτ hj hnm fun _ he => absurd he hji) hx
  refine openDealing_of_deals hv ho (me j) (haff j hj) ?_ ?_ ?_ ?_
  · rw [hms.eq hj]
  · rw [hms.eq hj]
    rfl
  · rw [hms.eq hj]
  · simp [honestState, honestDealing, hj]

/-- The sum of the dealers' sharings. -/
def sumLabel (S : AcSession q E n) (τ : Fin n → PName → ZMod q) (nm : PName) : ZMod q :=
  (S.quorumList.map (fun j => τ j nm)).sum

omit [DecidableEq E] in
theorem sumLabel_smul (nm : PName) (P : E) :
    (S.quorumList.map (fun j => τ j nm • P)).sum = sumLabel S τ nm • P := by
  rw [sumLabel, List.sum_smul, List.map_map]
  rfl

omit [Module (ZMod q) E] hq [DecidableEq E] in
theorem find_qisMap (S : AcSession q E n) (start : OrderedMap PName E)
    (Qis : Fin n → E) (l : Fin n) :
    (qisMap S start Qis).find (S.job.names l) = some (Qis l) :=
  OrderedMap.find_insertEach start S.job.names_injective Qis (List.mem_finRange l)

section

omit [DecidableEq E] [DecidableEq D] [Inhabited R] [Inhabited P]

/-- All parties' points of a sharing reconstruct the point at the root. -/
theorem reconstructExponent_eq (hv : S.Valid o) {σ : PName → ZMod q}
    (hσ : Consistent (pidPos q o.pid) σ S.ac) {Qis : OrderedMap PName E}
    (hQis : ∀ l, Qis.find (S.job.names l) = some (σ (S.job.names l) • S.curve.generator)) :
    reconstructExponent q o.pid S.ac Qis = .ok (σ S.ac.name • S.curve.generator) := by
  obtain ⟨hwf, hnd, -⟩ := validateTree_ok hv.tree
  have h := reconstructNode_eq (pointOps_sound (q := q)) o.pid S.ac.listLeafNames.toFinset Qis
    (fun nm => σ nm • S.curve.generator) hwf hv.positions
    (hσ.map (LinearMap.toSpanSingleton (ZMod q) E S.curve.generator)) (fun nm hnm => by
      obtain ⟨l, rfl⟩ := (hv.leaves nm).mp hnm
      rw [hQis l, if_pos (List.mem_toFinset.mpr hnm)]
      rfl)
  rw [enoughForQuorum_of_leaves hwf fun nm hnm => List.mem_toFinset.mpr hnm] at h
  exact h

theorem Deals.sum (hτ : ∀ j ∈ S.quorum, Deals o S (me j) (τ j)) :
    Consistent (pidPos q o.pid) (sumLabel S τ) S.ac :=
  Consistent.sum S.quorumList fun j hj => (hτ j (AcSession.mem_quorumList.mp hj)).consistent

/-- What is computed from the maps and shares of `τ` before the key is put together. -/
theorem sums_honest (hv : S.Valid o) {pub : Fin n → OrderedMap PName E} {xs : Fin n → ℤ} {i : Fin n}
    (hpub : ∀ j ∈ S.quorum, ∀ nm ∈ S.ac.names, (S.isRefresh = true → nm ≠ S.ac.name) →
      (pub j).find nm = some (τ j nm • S.curve.generator))
    (hxs : ∀ j ∈ S.quorum, xs j = residue (τ j (S.job.names i))) :
    addDealings S pub xs = .ok (if S.isRefresh then 0 else
      sumLabel S τ S.ac.name • S.curve.generator, residue (sumLabel S τ (S.job.names i))) ∧
    addPublic S pub = .ok (fun l => sumLabel S τ (S.job.names l) • S.curve.generator) := by
  have hleaf : ∀ j ∈ S.quorum, ∀ l, (pub j).find (S.job.names l) =
      some (τ j (S.job.names l) • S.curve.generator) := fun j hj l =>
    hpub j hj _ (listLeafNames_subset _ (hv.name_mem l)) (fun _ => hv.name_ne_root l)
  constructor
  · have hok : forEach (addable S pub xs) S.quorumList = .ok () := by
      refine forEach_ok_iff.mpr fun j hj => ?_
      have hj := AcSession.mem_quorumList.mp hj
      rw [addable, hxs j hj, isInRange_residue]
      cases hr : S.isRefresh with
      | true => rfl
      | false => simp [present, hpub j hj _ (name_mem_names _) (by simp [hr])]
    have hx : S.quorumList.map (fun j => (xs j : ZMod q)) =
        S.quorumList.map (fun j => τ j (S.job.names i)) :=
      List.map_congr_left fun j hj => by rw [hxs j (AcSession.mem_quorumList.mp hj), cast_residue]
    rw [addDealings_eq, hok, ok_bind, hx]
    cases hr : S.isRefresh with
    | true => rfl
    | false =>
      have hQ : S.quorumList.map (fun j => pointAt (pub j) S.ac.name) =
          S.quorumList.map (fun j => τ j S.ac.name • S.curve.generator) :=
        List.map_congr_left fun j hj => by
          rw [pointAt, hpub j (AcSession.mem_quorumList.mp hj) _ (name_mem_names _) (by simp [hr])]
          rfl
      rw [hQ, sumLabel_smul]
      rfl
  · have hok : forEach (fun j =>
        forEach (fun l => present (pub j) (S.job.names l)) (List.finRange n))
        S.quorumList = .ok () := by
      refine forEach_ok_iff.mpr fun j hj => forEach_ok_iff.mpr fun l _ => ?_
      simp [present, hleaf j (AcSession.mem_quorumList.mp hj) l]
    rw [addPublic_eq, hok, ok_bind]
    refine congrArg Except.ok (funext fun l => ?_)
    rw [← sumLabel_smul]
    refine congrArg List.sum (List.map_congr_left fun j hj => ?_)
    rw [pointAt, hleaf j (AcSession.mem_quorumList.mp hj) l]
    rfl

end

/-- Past the checks an honest run comes to the sums. -/
theorem acResult_honest (hv : S.Valid o) (ho : o.Complete S.curve)
    (hτ : ∀ j ∈ S.quorum, Deals o S (me j) (τ j))
    (haff : ∀ j ∈ S.quorum, AffineDealing S (τ j)) (i : Fin n) :
    acResult o S me (honestRun o S me rv) i = acOutput o S i (me i)
      (dealerMap S i (honestState o S me τ i).dealing.acPub (honestMessages o S me τ i))
      (fun j => (honestMessages o S me τ i j).xij) := by
  have hchecks :
      forEach (checkDealer o S i (honestState o S me τ i) (honestMessages o S me τ i))
        S.quorumList =
      .ok () := forEach_ok_iff.mpr fun j hj =>
    (honestUpToShares_self i).checkDealer_eq hv ho hτ haff (AcSession.mem_quorumList.mp hj) (by
      rw [honestMessages_eq i (AcSession.mem_quorumList.mp hj), mulToGenerator_residue])
  rw [acResult, dkgOrRefreshAc, honestRun, acCommitted_honest hv hτ, ok_bind,
    received_honestIn3 hv hτ haff, ok_bind, hchecks, ok_bind,
    (honestUpToShares_self i).representativeHash_eq hv]
  simp

/-- The key share of party `i` after key generation by the dealers of `τ`. -/
def dkgKey (S : AcSession q E n) (τ : Fin n → PName → ZMod q)
    (start : OrderedMap PName E) (i : Fin n) :
    KeyShareMp q E :=
  ⟨residue (sumLabel S τ (S.job.names i)), sumLabel S τ S.ac.name • S.curve.generator,
    qisMap S start (fun l => sumLabel S τ (S.job.names l) • S.curve.generator), S.curve,
    S.job.names i⟩

omit [DecidableEq D] [Inhabited R] [Inhabited P] in
/-- The sums of key generation pass the cross checks when they are those of sharings. -/
theorem acOutput_dkg (hv : S.Valid o) (hdkg : S.isRefresh = false)
    (hcons : Consistent (pidPos q o.pid) (sumLabel S τ) S.ac)
    {pub : Fin n → OrderedMap PName E} {xs : Fin n → ℤ} {i : Fin n} (me : AcParty q E R)
    (hsum : addDealings S pub xs =
      .ok (if S.isRefresh then 0 else sumLabel S τ S.ac.name • S.curve.generator,
      residue (sumLabel S τ (S.job.names i))))
    (hpub : addPublic S pub = .ok (fun l => sumLabel S τ (S.job.names l) • S.curve.generator)) :
    acOutput o S i me pub xs = .ok (dkgKey S τ me.key.Qis i) := by
  have hrec := reconstructExponent_eq hv hcons
    (find_qisMap S .empty (fun l => sumLabel S τ (S.job.names l) • S.curve.generator))
  rw [acOutput, hsum, hpub]
  simp only [ok_bind, hrec, hdkg, Bool.false_eq_true, if_false, decide_true, require_true,
    mulToGenerator_residue]
  rfl

omit [DecidableEq E] [DecidableEq D] in
theorem sums_honestRun (hv : S.Valid o) (hτ : ∀ j ∈ S.quorum, Deals o S (me j) (τ j)) (i : Fin n) :
    addDealings S (dealerMap S i (honestState o S me τ i).dealing.acPub (honestMessages o S me τ i))
        (fun j => (honestMessages o S me τ i j).xij) =
      .ok (if S.isRefresh then 0 else sumLabel S τ S.ac.name • S.curve.generator,
        residue (sumLabel S τ (S.job.names i))) ∧
    addPublic S (dealerMap S i (honestState o S me τ i).dealing.acPub (honestMessages o S me τ i)) =
      .ok (fun l => sumLabel S τ (S.job.names l) • S.curve.generator) :=
  sums_honest hv (fun _ hj _ hnm hroot =>
    (honestUpToShares_self i).find_dealerMap hτ hj hnm fun hr _ => hroot hr)
    (fun _ hj => by rw [honestMessages_eq i hj])

theorem acResult_dkg (hv : S.Valid o) (ho : o.Complete S.curve) (hdkg : S.isRefresh = false)
    (hτ : ∀ j ∈ S.quorum, Deals o S (me j) (τ j))
    (haff : ∀ j ∈ S.quorum, AffineDealing S (τ j)) (i : Fin n) :
    acResult o S me (honestRun o S me rv) i = .ok (dkgKey S τ (me i).key.Qis i) := by
  obtain ⟨hsum, hpub⟩ := sums_honestRun hv hτ i
  rw [acResult_honest hv ho hτ haff]
  exact acOutput_dkg hv hdkg (Deals.sum hτ) (me i) hsum hpub

/-- The key share of party `i` after a refresh by the dealers of `τ`. -/
def refreshedKey (S : AcSession q E n) (σ : PName → ZMod q)
    (τ : Fin n → PName → ZMod q) (key : KeyShareMp q E) (i : Fin n) : KeyShareMp q E :=
  { key with
    xShare := residue (σ (S.job.names i) + sumLabel S τ (S.job.names i))
    Qis := qisMap S key.Qis (fun l =>
      (σ (S.job.names l) + sumLabel S τ (S.job.names l)) • S.curve.generator)
    partyName := S.job.names i }

omit [DecidableEq E] [DecidableEq D] [Inhabited R] [Inhabited P] in
theorem sumLabel_root (hrefresh : S.isRefresh = true)
    (hτ : ∀ j ∈ S.quorum, Deals o S (me j) (τ j)) :
    sumLabel S τ S.ac.name = 0 := by
  refine List.sum_eq_zero fun v hv => ?_
  obtain ⟨j, hj, rfl⟩ := List.mem_map.mp hv
  rw [(hτ j (AcSession.mem_quorumList.mp hj)).root, dealtSecret, if_pos hrefresh]

theorem acResult_refresh (hv : S.Valid o) (ho : o.Complete S.curve) (hrefresh : S.isRefresh = true)
    {σ : PName → ZMod q} (hσ : Consistent (pidPos q o.pid) σ S.ac)
    (hkey : ∀ i, HoldsShare S.curve S.ac σ (S.job.names i) (me i).key)
    (hτ : ∀ j ∈ S.quorum, Deals o S (me j) (τ j))
    (haff : ∀ j ∈ S.quorum, AffineDealing S (τ j)) (i : Fin n) :
    acResult o S me (honestRun o S me rv) i = .ok (refreshedKey S σ τ (me i).key i) := by
  obtain ⟨hsum, hpub⟩ := sums_honestRun hv hτ i
  have hzero := sumLabel_root hrefresh hτ
  have hrec := reconstructExponent_eq hv (Deals.sum hτ)
    (find_qisMap S .empty (fun l => sumLabel S τ (S.job.names l) • S.curve.generator))
  have hold := fun l => (hkey i).Qis_eq _ (hv.name_mem l)
  have hpresent : forEach (fun l => if ((me i).key.Qis.find (S.job.names l)).isSome then .ok () else
      throwing .assertionFailed) (List.finRange n) = .ok () :=
    forEach_ok_iff.mpr fun l _ => by simp [hold l]
  have hpoint :
      (fun l => pointAt (me i).key.Qis (S.job.names l) +
        sumLabel S τ (S.job.names l) • S.curve.generator) =
      fun l => (σ (S.job.names l) + sumLabel S τ (S.job.names l)) • S.curve.generator := by
    funext l
    rw [pointAt, hold l, Option.getD_some, add_smul]
  have hnew := reconstructExponent_eq hv (hσ.add (Deals.sum hτ))
    (find_qisMap S (me i).key.Qis (fun l =>
      (σ (S.job.names l) + sumLabel S τ (S.job.names l)) • S.curve.generator))
  rw [acResult_honest hv ho hτ haff, acOutput, hsum, hpub]
  simp only [ok_bind, hrec, hrefresh, if_true, hzero, zero_smul, add_zero, decide_true,
    require_true, mulToGenerator_residue, (hkey i).share_eq, modAdd_residue, addToQis_eq, hpresent,
    hpoint] at hnew ⊢
  simp only [hnew, (hkey i).Q_eq, ok_bind, decide_true, require_true]
  rw [refreshedKey, (hkey i).Q_eq]

section

omit [DecidableEq D] [Inhabited R] [Inhabited P] [DecidableEq E]

theorem dkgKey_holdsShare (hv : S.Valid o) (start : OrderedMap PName E) (i : Fin n) :
    HoldsShare S.curve S.ac (sumLabel S τ) (S.job.names i) (dkgKey S τ start i) where
  curve_eq := rfl
  name_eq := rfl
  share_eq := rfl
  Q_eq := rfl
  Qis_eq nm hnm := by
    obtain ⟨l, rfl⟩ := (hv.leaves nm).mp hnm
    exact find_qisMap S start _ l

theorem refreshedKey_holdsShare (hv : S.Valid o)
    (hrefresh : S.isRefresh = true) {σ : PName → ZMod q}
    (hτ : ∀ j ∈ S.quorum, Deals o S (me j) (τ j)) {key : KeyShareMp q E} {i : Fin n}
    (hkey : HoldsShare S.curve S.ac σ (S.job.names i) key) :
    HoldsShare S.curve S.ac (fun nm => σ nm + sumLabel S τ nm) (S.job.names i)
      (refreshedKey S σ τ key i) where
  curve_eq := hkey.curve_eq
  name_eq := rfl
  share_eq := rfl
  Q_eq := by
    rw [sumLabel_root hrefresh hτ, add_zero]
    exact hkey.Q_eq
  Qis_eq nm hnm := by
    obtain ⟨l, rfl⟩ := (hv.leaves nm).mp hnm
    exact find_qisMap S key.Qis _ l

/-- Shares of a sharing, restricted to the parties in `T`, reconstruct when `T` is enough. -/
theorem reconstruct_holdsShare (hv : S.Valid o) {σ : PName → ZMod q}
    (hσ : Consistent (pidPos q o.pid) σ S.ac) {key : Fin n → KeyShareMp q E}
    (hkey : ∀ i, HoldsShare S.curve S.ac σ (S.job.names i) (key i)) (T : Finset PName)
    {shares : OrderedMap PName ℤ}
    (hshares : ∀ i, shares.find (S.job.names i) = if S.job.names i ∈ T then
      some (key i).xShare else none) :
    reconstruct q o.pid S.ac shares =
      quorumResult (S.ac.enoughForQuorum T) (residue (σ S.ac.name)) := by
  refine reconstructNode_eq scalarOps_sound o.pid T shares σ
    (validateTree_ok hv.tree).1 hv.positions hσ
    fun nm hnm => ?_
  obtain ⟨i, rfl⟩ := (hv.leaves nm).mp hnm
  rw [hshares i, (hkey i).share_eq]

theorem Deals.affine (hdkg : S.isRefresh = false) {me : AcParty q E R}
    {τ : PName → ZMod q} (h : Deals o S me τ)
    (hnz : ∀ st, shareWithInternals o.pid S.curve S.ac (residue me.r) me.rand = .ok st →
      ∀ v ∈ st.acInternalShares.values, (v : ZMod q) ≠ 0) : AffineDealing S τ := by
  intro nm hnm _ hzero
  obtain ⟨rest, hst⟩ := h.dealt
  rw [dealtSecret, hdkg] at hst
  refine hnz _ hst (residue (τ nm)) ?_ (by rw [cast_residue, hzero])
  exact (OrderedMap.mem_values_iff _ _).mpr ⟨nm, by simp [internalsOf, hnm]⟩

end

/-- Key generation by honest parties whose dealt values are all nonzero. -/
theorem dkgAc_honest (hv : S.Valid o) (ho : o.Complete S.curve)
    (hdkg : S.isRefresh = false) (rv : ErrorCode)
    (hnz : ∀ j ∈ S.quorum, ∀ st,
      shareWithInternals o.pid S.curve S.ac (residue (me j).r) (me j).rand = .ok st →
      ∀ v ∈ st.acInternalShares.values, (v : ZMod q) ≠ 0) :
    ∃ (key : Fin n → KeyShareMp q E) (x : ZMod q),
      (∀ i, acResult o S me (honestRun o S me rv) i = .ok (key i)) ∧
      (∀ i, (key i).Q = x • S.curve.generator) ∧
      (∀ i k l, (key i).Qis.find (S.job.names l) = (key k).Qis.find (S.job.names l)) ∧
      (∀ i k, (me i).key.Qis = (me k).key.Qis → (key i).Qis = (key k).Qis) ∧
      (∀ i, ∃ X, S.curve.mulToGenerator (key i).xShare = .ok X ∧
        (key i).Qis.find (S.job.names i) = some X) ∧
      ∀ (T : Finset PName) (shares : OrderedMap PName ℤ),
        (∀ i, shares.find (S.job.names i) = if S.job.names i ∈ T then
          some (key i).xShare else none) →
        (S.ac.enoughForQuorum T = true → reconstruct q o.pid S.ac shares = .ok (residue x)) ∧
        (S.ac.enoughForQuorum T = false →
          reconstruct q o.pid S.ac shares = fail .insufficient) := by
  choose τ hτ using fun j => exists_labelling hv (me j)
  have haff : ∀ j ∈ S.quorum, AffineDealing S (τ j) := fun j hj => (hτ j).affine hdkg (hnz j hj)
  have hholds := fun i => dkgKey_holdsShare (τ := τ) hv (me i).key.Qis i
  refine ⟨fun i => dkgKey S τ (me i).key.Qis i, sumLabel S τ S.ac.name, fun i => ?_, fun i => rfl,
    fun i k l => ?_,
    fun i k h => ?_, fun i => ?_, fun T shares hshares => ?_⟩
  · exact acResult_dkg hv ho hdkg (fun j _ => hτ j) haff i
  · rw [(hholds i).Qis_eq _ (hv.name_mem l), (hholds k).Qis_eq _ (hv.name_mem l)]
  · simp only [dkgKey, h]
  · exact ⟨_, mulToGenerator_residue _ _, (hholds i).Qis_eq _ (hv.name_mem i)⟩
  · have hrec := reconstruct_holdsShare hv (Deals.sum fun j _ => hτ j) hholds T hshares
    exact ⟨fun h => by rw [hrec, h]; rfl, fun h => by rw [hrec, h]; rfl⟩

section Examples

instance encodableScalar : Encodable (ZMod 1009) := inferInstanceAs (Encodable (Fin 1009))

/-- Hashes that encode their arguments, and proofs that reveal the witnesses. -/
def sampleOracles : Oracles (ZMod 1009) ℕ ℕ (List (ZMod 1009)) where
  sha256 items := Encodable.encode items
  hmac r items := Encodable.encode (r, items)
  digestBytes d := (Nat.digits 256 d).map (fun b => Fin.ofNat 256 b)
  pid := samplePid
  proveDl _ _ w _ _ := [(w : ZMod 1009)]
  verifyDl X _ _ pi := if X ≠ 0 ∧ [X] = pi then none else some .crypto
  proveBatchDl _ _ ws _ _ := ws.map (fun w : ℤ => (w : ZMod 1009))
  verifyBatchDl Xs _ _ pi := if Xs ≠ [] ∧ (∀ X ∈ Xs, X ≠ 0) ∧ Xs = pi then none else some .crypto

theorem sampleOracles_injective : sampleOracles.Injective where
  sha256_inj _ _ h := Encodable.encode_injective h
  hmac_inj _ _ _ _ h := Prod.mk.inj (Encodable.encode_injective h)

theorem sampleOracles_complete : sampleOracles.Complete sampleCurve where
  dl _ w _ _ hw := by simp [sampleOracles, sampleCurve, hw]
  batch _ ws _ _ hne hws := by
    have hmap : ws.map (fun w => w • sampleCurve.generator) = ws := by simp [sampleCurve]
    have hback : (ws.map residue).map (fun w : ℤ => (w : ZMod 1009)) = ws := by
      simp [Function.comp_def]
    simp only [sampleOracles, hmap, hback]
    exact if_pos ⟨hne, hws, trivial⟩

def sampleNames : Fin 5 → PName := ![[97], [99], [100], [102], [103]]

def sampleJob : Job 5 where
  names := sampleNames
  names_injective := by decide
  names_nonempty := by decide
  two_le := by decide

/-- The five leaves of the sample tree as parties, three of which deal. -/
def sampleSession (isRefresh : Bool) : AcSession 1009 (ZMod 1009) 5 where
  job := sampleJob
  curve := sampleCurve
  ac := sampleTree
  quorum := {0, 1, 2}
  sid := []
  isRefresh := isRefresh

theorem sampleSession_valid (isRefresh : Bool) : (sampleSession isRefresh).Valid sampleOracles where
  tree := by cases isRefresh <;> decide
  enough := by cases isRefresh <;> decide
  leaves nm := by
    constructor
    · intro h
      have hl : ∀ nm ∈ sampleTree.listLeafNames, ∃ l, sampleNames l = nm := by decide
      exact hl nm h
    · rintro ⟨l, rfl⟩
      have hl : ∀ l, sampleNames l ∈ sampleTree.listLeafNames := by decide
      exact hl l
  positions := by cases isRefresh <;> decide
  pidsInRange := by cases isRefresh <;> decide

theorem length_sampleSid : (List.replicate 16 (0 : Fin 256)).length = sidBytes := rfl

def sampleParty (i : Fin 5) : AcParty 1009 (ZMod 1009) ℕ where
  key := sampleKey (sampleNames i)
  r := 5
  rand := Stream'.const 3
  proofCoins := 0
  comRand := i
  localSid := List.replicate 16 0
  sidPart := List.replicate 16 0
  sidPart_length := length_sampleSid

theorem sampleParty_nonzero (j : Fin 5) :
    ∀ st, shareWithInternals sampleOracles.pid (sampleSession false).curve
    (sampleSession false).ac (residue (sampleParty j).r) (sampleParty j).rand = .ok st →
    ∀ v ∈ st.acInternalShares.values, (v : ZMod 1009) ≠ 0 := by
  intro st hst v hv
  have hvals : (shareWithInternals samplePid sampleCurve sampleTree 5 (Stream'.const 3)).map
      (fun st => st.acInternalShares.values) =
        .ok [5, 296, 299, 296, 3, 308, 308, 308] := by decide +kernel
  rw [show shareWithInternals samplePid sampleCurve sampleTree 5 (Stream'.const 3) =
    .ok st from hst] at hvals
  have hall : ∀ v ∈ ([5, 296, 299, 296, 3, 308, 308, 308] : List ℤ),
    (v : ZMod 1009) ≠ 0 := by decide
  exact hall v (Except.ok.inj hvals ▸ hv)

/-- The five parties of the sample tree, with dealers a, c and d. -/
theorem dkgAc_honest_sample : ∃ (key : Fin 5 → KeyShareMp 1009 (ZMod 1009)) (x : ZMod 1009),
    (∀ i, acResult sampleOracles (sampleSession false) sampleParty
      (honestRun sampleOracles (sampleSession false) sampleParty .netGeneral) i = .ok (key i)) ∧
    (∀ i, (key i).Q = x • sampleCurve.generator) ∧ (∀ i, (key i).Qis = (key 0).Qis) ∧
    reconstruct 1009 samplePid sampleTree
      (.ofKeys (fun nm => if nm = [97] then (key 0).xShare else (key 3).xShare)
      [[97], [102]]) = .ok (residue x) := by
  obtain ⟨key, x, hok, hQ, -, hQis, -, hrec⟩ :=
    dkgAc_honest (sampleSession_valid false) sampleOracles_complete rfl
    .netGeneral fun j _ => sampleParty_nonzero j
  refine ⟨key, x, hok, hQ, fun i => hQis i 0 rfl, ?_⟩
  refine (hrec {[97], [102]} _ fun i => ?_).1 (by decide)
  fin_cases i <;> rfl

end Examples

end CbMpc
