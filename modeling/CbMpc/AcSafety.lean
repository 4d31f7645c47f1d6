import CbMpc.AcHonest

/-!
# Messages that make key generation throw

The lookups in a received map and the sum of the received shares are not guarded by
a test of their own. Which messages lead to an exception depends on how far the
dealer's checks get.
-/
namespace CbMpc

open Node

variable {q n : ℕ} {E D R P : Type} [AddCommGroup E] [Module (ZMod q) E] [hq : Fact q.Prime]
  [DecidableEq E] [DecidableEq D] [Inhabited R] [Inhabited P]
  {o : Oracles E D R P} {S : AcSession q E n}

/-- The messages of the last round do not make party `i` throw: a dealing that is
looked into has the root and a share that can be multiplied, and dealings that are
added up have reduced shares and all parties' points. -/
structure Harmless (o : Oracles E D R P) (S : AcSession q E n) (i : Fin n) (st : AcState n E D P)
    (ms : Fin n → AcMsg E D R P) : Prop where
  lookedInto : ∀ before j after, S.quorumList = before ++ j :: after → j ≠ i →
    (∀ k ∈ before, checkDealer o S i st ms k = .ok ()) →
    some (ms j).hAll = representativeHash S ms →
    openDealing o S st ms j = .ok () →
    (S.isRefresh = false → ((ms j).acPub.find S.ac.name).isSome = true) ∧
      Returns (S.curve.mulToGenerator (ms j).xij)
  addedUp : (∀ j ∈ S.quorum, checkDealer o S i st ms j = .ok ()) →
    (i ∈ S.quorum ∨ representativeHash S ms = some (hAll o S st.sid st.cs)) → ∀ j ∈ S.quorum,
      j ≠ i →
    isInRange q (ms j).xij = true ∧ ∀ l, ((ms j).acPub.find (S.job.names l)).isSome = true

/-- What a party needs of its own key to refresh it. -/
def UsableKey (S : AcSession q E n) (key : KeyShareMp q E) : Prop :=
  isInRange q key.xShare = true ∧ ∀ l, (key.Qis.find (S.job.names l)).isSome = true

theorem returns_received {α : Type} (i : Fin n) (own : α) (inbox : Inbox n α) :
    Returns (received i own inbox) := by
  cases inbox with
  | error rv => exact returns_fail rv
  | ok msgs => exact returns_ok _

omit [DecidableEq E] [Inhabited R] in
theorem returns_acCommitted (hv : S.Valid o) (i : Fin n) (me : AcParty q E R) (in0 : Inbox n Bytes)
    (in1 : Inbox n D) (in2 : Inbox n (ComBuf D)) : Returns (acCommitted o S i me in0 in1 in2) := by
  obtain ⟨τ, hτ⟩ := exists_labelling hv me
  have hstart : Returns (acStart o S i me in0) := by
    simp only [acStart, hv.tree, hv.enough, require_true, ok_bind]
    split
    · refine returns_bind_iff.mpr ⟨returns_received _ _ _, fun _ _ => ?_⟩
      exact returns_bind_iff.mpr ⟨returns_require _ _, fun _ _ => returns_ok _⟩
    · exact returns_ok _
  have hown : ∀ sid, Returns (ownDealing o S sid i me) := by
    intro sid
    rw [ownDealing]
    split
    · exact returns_of_ok (hτ.deal_eq hv sid i)
    · exact returns_ok _
  refine returns_bind_iff.mpr ⟨?_, fun _ _ =>
    returns_bind_iff.mpr ⟨returns_received _ _ _, fun _ _ => returns_ok _⟩⟩
  refine returns_bind_iff.mpr ⟨hstart, fun sid _ =>
    returns_bind_iff.mpr ⟨returns_received _ _ _, fun _ _ => ?_⟩⟩
  refine returns_bind_iff.mpr ⟨returns_forEach fun _ _ => returns_require _ _, fun _ _ => ?_⟩
  exact returns_bind_iff.mpr ⟨hown sid, fun _ _ => returns_ok _⟩

omit [Module (ZMod q) E] hq [Inhabited R] [Inhabited P] in
theorem returns_openDealing (st : AcState n E D P) (ms : Fin n → AcMsg E D R P) (j : Fin n) :
    Returns (openDealing o S st ms j) := by
  refine returns_bind_iff.mpr ⟨returns_comOpen _ _ _ _ _ _, fun _ _ =>
    returns_bind_iff.mpr ⟨?_, fun _ _ => ?_⟩⟩
  · refine returns_forEach fun R _ => returns_bind_iff.mpr ⟨?_, fun _ _ => returns_ok _⟩
    cases R with
    | foreign _ => exact returns_fail _
    | on P =>
      rw [curveCheck]
      split
      · exact returns_fail _
      · exact returns_ok _
  · split
    · exact returns_fail _
    · exact returns_ok _

theorem returns_present_iff {V : Type} (m : OrderedMap PName V) (nm : PName) :
    Returns (present m nm) ↔ (m.find nm).isSome = true := by
  rw [present]
  split
  · rename_i h
    simp [h, returns_ok]
  · rename_i h
    simp [h, Returns, throwing]

omit [Module (ZMod q) E] hq [DecidableEq E] [DecidableEq D] [Inhabited R] [Inhabited P] in
theorem find_dealerMap_isSome {i j : Fin n} (hji : j ≠ i) (own : OrderedMap PName E)
    (ms : Fin n → AcMsg E D R P) (nm : PName) : ((dealerMap S i own ms j).find nm).isSome =
      (((ms j).acPub.find nm).isSome || (S.isRefresh && decide (nm = S.ac.name))) := by
  cases hr : S.isRefresh with
  | true => by_cases h : nm = S.ac.name <;> simp [dealerMap, hji, hr, h]
  | false => simp [dealerMap, hji, hr]

omit [Inhabited R] [Inhabited P] in
/-- One turn of the loop over the dealers. -/
theorem returns_checkDealer_iff (hv : S.Valid o) (i : Fin n) (st : AcState n E D P)
    (ms : Fin n → AcMsg E D R P) (j : Fin n) : Returns (checkDealer o S i st ms j) ↔
      (j ≠ i → some (ms j).hAll = representativeHash S ms → openDealing o S st ms j = .ok () →
        (S.isRefresh = false → ((ms j).acPub.find S.ac.name).isSome = true) ∧
          Returns (S.curve.mulToGenerator (ms j).xij)) := by
  obtain ⟨hwf, hnd, -⟩ := validateTree_ok hv.tree
  rw [checkDealer, returns_bind_iff, and_iff_right (returns_require _ _)]
  by_cases hji : j = i
  · simp [hji, returns_ok]
  have hroot : ((dealerMap S i st.dealing.acPub ms j).find S.ac.name).isSome = true ↔
      (S.isRefresh = false → ((ms j).acPub.find S.ac.name).isSome = true) := by
    rw [find_dealerMap_isSome hji]
    cases S.isRefresh <;> simp
  have hrecv : Returns (checkReceived o S i st ms j) ↔ (openDealing o S st ms j = .ok () →
      (S.isRefresh = false → ((ms j).acPub.find S.ac.name).isSome = true) ∧
        Returns (S.curve.mulToGenerator (ms j).xij)) := by
    rw [checkReceived_eq, returns_bind_iff, and_iff_right (returns_openDealing st ms j), ← hroot]
    have hrest : Returns (mapAt (dealerMap S i st.dealing.acPub ms j) S.ac.name >>= fun Qj =>
        verifyShareAgainstAncestorsPubData S.curve o.pid S.ac Qj (ms j).xij
          (dealerMap S i st.dealing.acPub ms j) (S.job.names i)) ↔
        ((dealerMap S i st.dealing.acPub ms j).find S.ac.name).isSome = true ∧
          Returns (S.curve.mulToGenerator (ms j).xij) := by
      rw [mapAt_bind, returns_bind_iff, returns_present_iff,
        returns_verifyShare_iff S.curve hwf hnd hv.positions (hv.name_mem i)]
      refine and_congr_right fun hs => ?_
      simp [present, hs]
    exact ⟨fun h hopen => hrest.mp (h () hopen), fun h _ hopen => hrest.mpr (h hopen)⟩
  rw [if_neg hji]
  constructor
  · intro h _ hh
    exact hrecv.mp (h () (by simpa using hh))
  · intro h u hh
    cases u
    exact hrecv.mpr (h hji (by simpa using hh))

omit [DecidableEq D] [Inhabited R] [Inhabited P] in
/-- The sums return exactly when every dealing can be added. -/
theorem returns_acOutput_iff (hv : S.Valid o) (i : Fin n) {me : AcParty q E R}
    (hkey : S.isRefresh = true → UsableKey S me.key)
    (pub : Fin n → OrderedMap PName E) (xs : Fin n → ℤ) :
    Returns (acOutput o S i me pub xs) ↔ ∀ j ∈ S.quorum,
      (S.isRefresh = false → ((pub j).find S.ac.name).isSome = true) ∧ isInRange q (xs j) = true ∧
        ∀ l, ((pub j).find (S.job.names l)).isSome = true := by
  obtain ⟨hwf, -, -⟩ := validateTree_ok hv.tree
  have hpresent : ∀ (m : OrderedMap PName E) nm, NoCode (present m nm) := by
    intro m nm
    rw [present]
    split <;> simp [NoCode, throwing, fail]
  have hcode : NoCode (forEach (addable S pub xs) S.quorumList) := by
    refine NoCode.forEach (fun j => ?_) _
    rw [addable]
    split
    · exact noCode_cbAssert _
    · exact (hpresent _ _).bind fun _ => noCode_cbAssert _
  have hadd : forEach (addable S pub xs) S.quorumList = .ok () ↔ ∀ j ∈ S.quorum,
      (S.isRefresh = false → ((pub j).find S.ac.name).isSome = true) ∧
      isInRange q (xs j) = true := by
    rw [forEach_ok_iff]
    refine forall_congr' fun j => ?_
    rw [AcSession.mem_quorumList]
    refine forall_congr' fun _ => ?_
    cases hr : S.isRefresh with
    | true => simp [addable, hr]
    | false =>
      cases hs : ((pub j).find S.ac.name).isSome <;> simp [addable, hr, present, hs, throwing]
  have hrow :
      Returns (forEach (fun j =>
        forEach (fun l => present (pub j) (S.job.names l)) (List.finRange n))
      S.quorumList) ↔ ∀ j ∈ S.quorum, ∀ l, ((pub j).find (S.job.names l)).isSome = true := by
    rw [(NoCode.forEach (fun j => NoCode.forEach (fun l => hpresent _ _) _) _).returns_iff,
      forEach_ok_iff]
    refine forall_congr' fun j => ?_
    rw [AcSession.mem_quorumList]
    refine forall_congr' fun _ => ?_
    rw [forEach_ok_iff]
    refine forall_congr' fun l => ?_
    cases hs : ((pub j).find (S.job.names l)).isSome <;> simp [present, hs, throwing]
  -- past the sums nothing throws
  have hrest : ∀ (Q : E) (x : ZMod q) (Qis : Fin n → E), Returns (do
      let reconstructedQ ← reconstructExponent q o.pid S.ac (qisMap S .empty Qis)
      require (decide (reconstructedQ = Q)) .crypto
      let X ← S.curve.mulToGenerator (residue x)
      require (decide (X = Qis i)) .crypto
      if S.isRefresh then do
        let xShare ← modAdd false q me.key.xShare (residue x)
        let newQis ← addToQis S Qis me.key.Qis
        let newQ ← reconstructExponent q o.pid S.ac newQis
        require (decide (newQ = me.key.Q)) .crypto
        .ok { me.key with xShare := xShare, Qis := newQis, partyName := S.job.names i }
      else .ok ⟨residue x, Q, qisMap S me.key.Qis Qis, S.curve, S.job.names i⟩) := by
    intro Q x Qis
    have hall : ∀ (start : OrderedMap PName E) (Qis : Fin n → E),
        ∃ P, reconstructExponent q o.pid S.ac (qisMap S start Qis) = .ok P := fun start Qis =>
      reconstructExponent_defined o.pid hwf hv.positions fun nm hnm => by
        obtain ⟨l, rfl⟩ := (hv.leaves nm).mp hnm
        rw [find_qisMap]
        rfl
    obtain ⟨P, hP⟩ := hall .empty Qis
    rw [hP, ok_bind, returns_bind_iff, mulToGenerator_residue, ok_bind]
    refine ⟨returns_require _ _, fun _ _ =>
      returns_bind_iff.mpr ⟨returns_require _ _, fun _ _ => ?_⟩⟩
    split
    · rename_i hr
      obtain ⟨hrange, hnames⟩ := hkey hr
      have hold : forEach (fun l => if (me.key.Qis.find (S.job.names l)).isSome then .ok () else
          throwing .assertionFailed) (List.finRange n) = .ok () :=
        forEach_ok_iff.mpr fun l _ => by simp [hnames l]
      obtain ⟨P', hP'⟩ := hall me.key.Qis (fun l => pointAt me.key.Qis (S.job.names l) + Qis l)
      rw [modAdd, modOp_of_isInRange _ _ hrange (isInRange_residue x), ok_bind, addToQis_eq, hold,
        ok_bind, ok_bind, hP', ok_bind]
      exact returns_bind_iff.mpr ⟨returns_require _ _, fun _ _ => returns_ok _⟩
    · exact returns_ok _
  rw [acOutput, addDealings_eq, addPublic_eq]
  simp only [bind_assoc, ok_bind]
  rw [returns_bind_iff, hcode.returns_iff, returns_bind_iff, hrow]
  constructor
  · rintro ⟨ha, hb⟩ j hj
    obtain ⟨hroot, hrange⟩ := hadd.mp ha j hj
    exact ⟨hroot, hrange, (hb () ha).1 j hj⟩
  · intro h
    exact ⟨hadd.mpr fun j hj => ⟨(h j hj).1, (h j hj).2.1⟩,
      fun _ _ => ⟨fun j hj => (h j hj).2.2, fun _ _ => hrest _ _ _⟩⟩

omit [DecidableEq E] [Inhabited R] in
/-- The dealing of a quorum party that has come past the first exchange. -/
theorem own_dealing (hv : S.Valid o) {i : Fin n} {me : AcParty q E R}
    {in0 : Inbox n Bytes} {in1 : Inbox n D} {in2 : Inbox n (ComBuf D)} {st : AcState n E D P}
    (hst : acCommitted o S i me in0 in1 in2 = .ok st) (hi : i ∈ S.quorum) :
    ∃ τ, Deals o S me τ ∧ st.dealing = dealingOf o S st.sid i me τ := by
  obtain ⟨⟨sid, dealing⟩, hdealing, hst⟩ := bind_ok_iff.mp hst
  obtain ⟨cs, -, hst⟩ := bind_ok_iff.mp hst
  obtain ⟨sid', -, hdealing⟩ := bind_ok_iff.mp hdealing
  obtain ⟨hs, -, hdealing⟩ := bind_ok_iff.mp hdealing
  obtain ⟨u, -, hdealing⟩ := bind_ok_iff.mp hdealing
  obtain ⟨d, hown, hdealing⟩ := bind_ok_iff.mp hdealing
  obtain ⟨τ, hτ⟩ := exists_labelling hv me
  rw [ownDealing, if_pos hi, hτ.deal_eq hv] at hown
  cases hown
  cases hdealing
  cases hst
  exact ⟨τ, hτ, rfl⟩

omit [DecidableEq E] [Inhabited R] in
/-- A party's own dealing can be looked into and added up. -/
theorem own_addable (hv : S.Valid o) {i : Fin n} {me : AcParty q E R}
    {in0 : Inbox n Bytes} {in1 : Inbox n D} {in2 : Inbox n (ComBuf D)} {st : AcState n E D P}
    (hst : acCommitted o S i me in0 in1 in2 = .ok st) (hi : i ∈ S.quorum) :
    (S.isRefresh = false → (st.dealing.acPub.find S.ac.name).isSome = true) ∧
      isInRange q (st.dealing.xij i) = true ∧ ∀ l,
        (st.dealing.acPub.find (S.job.names l)).isSome = true := by
  obtain ⟨τ, -, hdealing⟩ := own_dealing hv hst hi
  rw [hdealing]
  refine ⟨fun hr => ?_, isInRange_residue _, fun l => ?_⟩
  · simp [dealingOf, find_pubMap, hr, name_mem_names]
  · have hc : S.job.names l ∈ S.ac.names ∧ (S.isRefresh = true → S.job.names l ≠ S.ac.name) :=
      ⟨listLeafNames_subset _ (hv.name_mem l), fun _ => hv.name_ne_root l⟩
    rw [dealingOf, find_pubMap, if_pos hc]
    rfl

/-- A party returns, with a key or an error, exactly on harmless messages. -/
theorem dkgOrRefreshAc_returns_iff (hv : S.Valid o) (i : Fin n) {me : AcParty q E R}
    (hkey : S.isRefresh = true → UsableKey S me.key) (in0 : Inbox n Bytes) (in1 : Inbox n D)
    (in2 : Inbox n (ComBuf D)) (in3 : Inbox n (AcMsg E D R P)) :
    Returns (dkgOrRefreshAc o S i me in0 in1 in2 in3) ↔
      ∀ st ms, acCommitted o S i me in0 in1 in2 = .ok st →
      received i (acMessage o S i me st i) in3 = .ok ms →
        Harmless o S i st ms := by
  rw [dkgOrRefreshAc, returns_bind_iff, and_iff_right (returns_acCommitted hv i me in0 in1 in2)]
  refine forall_congr' fun st => ?_
  rw [forall_comm]
  refine forall_congr' fun hst => ?_
  rw [returns_bind_iff, and_iff_right (returns_received _ _ _)]
  refine forall_congr' fun ms => forall_congr' fun hms => ?_
  have hown : ∀ j ∈ S.quorum, j = i → _ := fun j hj (hji : j = i) => own_addable hv hst (hji ▸ hj)
  have hself : (ms i).xij = st.dealing.xij i := by rw [(received_ok hms).1]; rfl
  rw [returns_bind_iff, returns_forEach_iff]
  simp only [returns_checkDealer_iff hv]
  constructor
  · rintro ⟨hlook, hsum⟩
    refine ⟨fun before j after hl hji hbefore => hlook before j after hl hbefore hji,
      fun hall hrep j hj hji => ?_⟩
    have hout := (returns_bind_iff.mp (hsum () (forEach_ok_iff.mpr fun j hj =>
      hall j (AcSession.mem_quorumList.mp hj)))).2 () (by simpa using hrep)
    obtain ⟨-, hrange, hnames⟩ := (returns_acOutput_iff hv i hkey _ _).mp hout j hj
    refine ⟨hrange, fun l => ?_⟩
    have h := hnames l
    rw [find_dealerMap_isSome hji] at h
    simpa [hv.name_ne_root l] using h
  · rintro ⟨hlook, hsum⟩
    refine ⟨fun before j after hl hbefore hji => hlook before j after hl hji hbefore,
      fun u hall => ?_⟩
    have hall : ∀ j ∈ S.quorum, checkDealer o S i st ms j = .ok () := by
      intro j hj
      cases u
      exact forEach_ok_iff.mp hall j (AcSession.mem_quorumList.mpr hj)
    refine returns_bind_iff.mpr ⟨returns_require _ _, fun u hrep => ?_⟩
    have hrep : i ∈ S.quorum ∨ representativeHash S ms = some (hAll o S st.sid st.cs) := by
      cases u
      simpa using hrep
    refine (returns_acOutput_iff hv i hkey _ _).mpr fun j hj => ?_
    by_cases hji : j = i
    · obtain ⟨hroot, hrange, hnames⟩ := hown j hj hji
      subst hji
      simp only [dealerMap, if_true, hself]
      exact ⟨hroot, hrange, hnames⟩
    · obtain ⟨hrange, hnames⟩ := hsum hall hrep j hj hji
      refine ⟨fun hr => ?_, hrange, fun l => ?_⟩
      · obtain ⟨-, Qj, hroot, -⟩ := (checkDealer_ok (hall j hj)).2 hji
        rw [hroot]
        rfl
      · rw [find_dealerMap_isSome hji, hnames l]
        rfl

/-- What a party sees of an honest key generation, and that it returns. -/
theorem honest_returns (hv : S.Valid o) (ho : o.Complete S.curve) (hdkg : S.isRefresh = false)
    {me : Fin n → AcParty q E R} {τ : Fin n → PName → ZMod q}
    (hτ : ∀ j ∈ S.quorum, Deals o S (me j) (τ j)) (haff : ∀ j ∈ S.quorum, AffineDealing S (τ j))
    (rv : ErrorCode) (i : Fin n) :
    acCommitted o S i (me i) (honestIn0 S me rv i) (honestIn1 o S me rv i) (honestIn2 o S me rv i) =
      .ok (honestState o S me τ i) ∧
    received i (acMessage o S i (me i) (honestState o S me τ i) i) (honestIn3 o S me rv i) =
      .ok (honestMessages o S me τ i) ∧
    Returns (dkgOrRefreshAc o S i (me i) (honestIn0 S me rv i)
      (honestIn1 o S me rv i) (honestIn2 o S me rv i)
      (honestIn3 o S me rv i)) :=
  ⟨acCommitted_honest hv hτ i, received_honestIn3 hv hτ haff i,
    returns_of_ok (acResult_dkg hv ho hdkg hτ haff i)⟩

/-- What arrives, with `m` added to the share from party `j`. -/
def withUnreducedShare (m : ℕ) (j : Fin n) : Inbox n (AcMsg E D R P) → Inbox n (AcMsg E D R P)
  | .error rv => .error rv
  | .ok ms => .ok (Function.update ms j { ms j with xij := (ms j).xij + m })

omit [AddCommGroup E] [DecidableEq E] [DecidableEq D] [Inhabited R] [Inhabited P] in
theorem received_withUnreducedShare {m : ℕ} {i j : Fin n} (hji : j ≠ i) {own : AcMsg E D R P}
    {inbox : Inbox n (AcMsg E D R P)} {ms : Fin n → AcMsg E D R P}
    (h : received i own inbox = .ok ms) :
    received i own (withUnreducedShare m j inbox) =
      .ok (Function.update ms j { ms j with xij := (ms j).xij + m }) := by
  cases inbox with
  | error rv => simp [received, fail] at h
  | ok msgs =>
    cases h
    rw [withUnreducedShare, received, Function.update_of_ne hji, Function.update_comm hji.symm]

/-- On a curve that multiplies any integer, a share that is not reduced passes all
checks and then breaks the sum. -/
theorem unreduced_throws (hv : S.Valid o) (ho : o.Complete S.curve) (hdkg : S.isRefresh = false)
    (hossl : S.curve.type = .ossl) {me : Fin n → AcParty q E R} {τ : Fin n → PName → ZMod q}
    (hτ : ∀ j ∈ S.quorum, Deals o S (me j) (τ j))
    (haff : ∀ j ∈ S.quorum, AffineDealing S (τ j)) (rv : ErrorCode) {i j : Fin n}
    (hj : j ∈ S.quorum) (hji : j ≠ i) :
    (∃ ms, withUnreducedShare q j (honestIn3 o S me rv i) = .ok ms ∧ ∀ k, k ≠ i →
      (ms k).deserializes = true) ∧
    ¬Returns (dkgOrRefreshAc o S i (me i) (honestIn0 S me rv i)
      (honestIn1 o S me rv i) (honestIn2 o S me rv i)
      (withUnreducedShare q j (honestIn3 o S me rv i))) := by
  obtain ⟨hst, hms, -⟩ := honest_returns hv ho hdkg hτ haff rv i
  constructor
  · cases hin : honestIn3 o S me rv i with
    | error rv' => simp [received, hin, fail] at hms
    | ok msgs =>
      refine ⟨_, rfl, fun k hk => ?_⟩
      have hdes := (honestInbox_ok hin k hk).2
      by_cases hkj : k = j
      · subst hkj
        rw [Function.update_self]
        exact hdes
      · rw [Function.update_of_ne hkj]
        exact hdes
  · intro hret
    have hms' := received_withUnreducedShare (m := q) hji hms
    generalize hupd : Function.update (honestMessages o S me τ i) j
      { honestMessages o S me τ i j with xij := (honestMessages o S me τ i j).xij + q } = ms at hms'
    have hxj : (ms j).xij = residue (τ j (S.job.names i)) + q := by
      rw [← hupd, Function.update_self, honestMessages_eq i hj]
    have hxk : ∀ k ∈ S.quorum, k ≠ j → (ms k).xij = residue (τ k (S.job.names i)) := by
      intro k hk hkj
      rw [← hupd, Function.update_of_ne hkj, honestMessages_eq i hk]
    have hshares : HonestUpToShares o S me τ i ms := by
      intro k
      by_cases hkj : k = j
      · rw [← hupd, hkj, Function.update_self]
      · rw [← hupd, Function.update_of_ne hkj]
    have hall : forEach (checkDealer o S i (honestState o S me τ i) ms) S.quorumList = .ok () := by
      refine forEach_ok_iff.mpr fun k hk => ?_
      have hk := AcSession.mem_quorumList.mp hk
      refine hshares.checkDealer_eq hv ho hτ haff hk ?_
      by_cases hkj : k = j
      · subst hkj
        rw [Curve.mulToGenerator, hossl, hxj]
        simp
      · rw [hxk k hk hkj, mulToGenerator_residue]
    rw [dkgOrRefreshAc, hst, ok_bind, hms', ok_bind, hall, ok_bind,
      hshares.representativeHash_eq hv] at hret
    have hout := (returns_bind_iff.mp hret).2 () (by simp)
    obtain ⟨-, hrange, -⟩ := (returns_acOutput_iff hv i (by simp [hdkg]) _ _).mp hout j hj
    have hnonneg : 0 ≤ residue (τ j (S.job.names i)) :=
      ((isInRange_iff _).mp (isInRange_residue _)).1
    rw [hxj, isInRange_iff] at hrange
    omega

section Examples

/-- An honest key generation of the sample tree is harmless for its first party. -/
theorem dkgOrRefreshAc_returns_sample : ∃ st ms,
    acCommitted sampleOracles (sampleSession false) 0 (sampleParty 0)
      (honestIn0 (sampleSession false) sampleParty .netGeneral 0)
      (honestIn1 sampleOracles (sampleSession false) sampleParty .netGeneral 0)
      (honestIn2 sampleOracles (sampleSession false) sampleParty .netGeneral 0) = .ok st ∧
    received 0 (acMessage sampleOracles (sampleSession false) 0 (sampleParty 0) st 0)
      (honestIn3 sampleOracles (sampleSession false) sampleParty .netGeneral 0) = .ok ms ∧
    Harmless sampleOracles (sampleSession false) 0 st ms := by
  choose τ hτ using fun j => exists_labelling (sampleSession_valid false) (sampleParty j)
  have haff := fun j (_ : j ∈ (sampleSession false).quorum) =>
    (hτ j).affine rfl (sampleParty_nonzero j)
  obtain ⟨hst, hms, hok⟩ :=
    honest_returns (sampleSession_valid false) sampleOracles_complete rfl (fun j _ => hτ j)
    haff .netGeneral 0
  refine ⟨_, _, hst, hms, ?_⟩
  exact (dkgOrRefreshAc_returns_iff (sampleSession_valid false) 0 (by simp [sampleSession]) _
    _ _ _).mp hok _ _ hst hms

/-- A dealer that adds the order of the group to one share of the sample key
generation makes the receiver throw; nothing else in its message is wrong. -/
theorem sample_unreduced_throws :
    (∃ ms, withUnreducedShare 1009 1
      (honestIn3 sampleOracles (sampleSession false) sampleParty .netGeneral 0) = .ok ms ∧
      ∀ j, j ≠ 0 → (ms j).deserializes = true) ∧
    ¬Returns (dkgOrRefreshAc sampleOracles (sampleSession false) 0 (sampleParty 0)
      (honestIn0 (sampleSession false) sampleParty .netGeneral 0)
      (honestIn1 sampleOracles (sampleSession false) sampleParty .netGeneral 0)
      (honestIn2 sampleOracles (sampleSession false) sampleParty .netGeneral 0)
      (withUnreducedShare 1009 1
        (honestIn3 sampleOracles (sampleSession false) sampleParty .netGeneral 0))) := by
  choose τ hτ using fun j => exists_labelling (sampleSession_valid false) (sampleParty j)
  have haff := fun j (_ : j ∈ (sampleSession false).quorum) =>
    (hτ j).affine rfl (sampleParty_nonzero j)
  exact unreduced_throws (sampleSession_valid false) sampleOracles_complete rfl rfl
    (fun j _ => hτ j) haff .netGeneral
    (i := 0) (j := 1) (by decide) (by decide)

end Examples

end CbMpc
