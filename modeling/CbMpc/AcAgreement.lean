import CbMpc.AcSafety

/-!
# Agreement among honest parties

A dealer's commitment covers its points in map order and not the names they go with.
Two honest parties that both succeed have opened the same commitments, so they hold
the same points; they hold them at the same names when the maps they received from
each corrupted dealer have the same keys.
-/
namespace CbMpc

open Node

variable {q n : ℕ} {E D R P : Type} [AddCommGroup E] [Module (ZMod q) E] [hq : Fact q.Prime]
  [DecidableEq E] [DecidableEq D] [Inhabited R] [Inhabited P]
  {o : Oracles E D R P} {S : AcSession q E n} {me : Fin n → AcParty q E R}
  {run : AcInboxes n E D R P} {honest W : Finset (Fin n)}

/-- What party `i` has seen and tested when it succeeds. -/
structure Accepted (o : Oracles E D R P) (S : AcSession q E n) (me : Fin n → AcParty q E R)
    (run : AcInboxes n E D R P) (i : Fin n) (st : AcState n E D P) (ms : Fin n → AcMsg E D R P)
    (key : KeyShareMp q E) : Prop where
  committed : acCommitted o S i (me i) (run.in0 i) (run.in1 i) (run.in2 i) = .ok st
  received : received i (acMessage o S i (me i) st i) (run.in3 i) = .ok ms
  checked : ∀ j ∈ S.quorum, checkDealer o S i st ms j = .ok ()
  representative : i ∈ S.quorum ∨ representativeHash S ms = some (hAll o S st.sid st.cs)
  output : acOutput o S i (me i) (dealerMap S i st.dealing.acPub ms) (fun j => (ms j).xij) = .ok key

omit hq in
theorem exists_accepted {i : Fin n} {key : KeyShareMp q E} (h : acResult o S me run i = .ok key) :
    ∃ st ms, Accepted o S me run i st ms key := by
  obtain ⟨st, hst, h⟩ := bind_ok_iff.mp h
  obtain ⟨ms, hms, h⟩ := bind_ok_iff.mp h
  obtain ⟨u, hall, h⟩ := bind_ok_iff.mp h
  obtain ⟨hrep, h⟩ := require_bind_ok_iff.mp h
  exact ⟨st, ms, hst, hms, fun j hj => forEach_ok_iff.mp hall j (AcSession.mem_quorumList.mpr hj),
    of_decide_eq_true hrep, h⟩

/-- The maps that corrupted dealers send to the parties of `W` have the same keys. -/
def NamesAgree (S : AcSession q E n) (run : AcInboxes n E D R P)
    (honest W : Finset (Fin n)) : Prop :=
  ∀ p ∈ W, ∀ r ∈ W, ∀ ms ms', run.in3 p = .ok ms → run.in3 r = .ok ms' → ∀ j ∈ S.quorum,
    j ∉ honest →
    (ms j).acPub.keys = (ms' j).acPub.keys

omit [Module (ZMod q) E] hq [DecidableEq E] [DecidableEq D] [Inhabited R] [Inhabited P] in
theorem hAll_inj (ho : o.Injective) {sid sid' : Bytes} {cs cs' : Fin n → ComBuf D}
    (h : hAll o S sid cs = hAll o S sid' cs') : ∀ j ∈ S.quorum, cs j = cs' j := by
  have hlist := ho.sha256_inj _ _ h
  simp only [List.cons.injEq, Item.bufMap.injEq] at hlist
  intro j hj
  have hpair := List.map_inj_left.mp hlist.1 j (AcSession.mem_quorumList.mpr hj)
  exact (Prod.mk.inj hpair).2

section Views

variable {p : Fin n} {st : AcState n E D P} {ms : Fin n → AcMsg E D R P} {key : KeyShareMp q E}

omit hq in
/-- The message of an honest party is the one it has computed. -/
theorem Accepted.message_eq (h : Accepted o S me run p st ms key) (hrun : AcRun o S me honest run)
    (hp : p ∈ honest) {m : Fin n} (hm : m ∈ honest) :
    ∃ stm, acCommitted o S m (me m) (run.in0 m) (run.in1 m) (run.in2 m) = .ok stm ∧
      ms m = acMessage o S m (me m) stm p := by
  by_cases hmp : m = p
  · subst hmp
    exact ⟨st, h.committed, (received_ok h.received).1⟩
  · obtain ⟨-, msgs, hin, hms⟩ := received_ok h.received
    obtain ⟨stm, hstm, hmsg⟩ := bind_ok_iff.mp (hrun.round3 p hp msgs hin m hm hmp)
    refine ⟨stm, hstm, ?_⟩
    rw [hms m hmp]
    exact (Except.ok.inj hmsg).symm

omit hq in
/-- Every hash that a successful party has seen from a dealer is its own. -/
theorem Accepted.hash_eq (h : Accepted o S me run p st ms key) {m : Fin n} (hm : m ∈ S.quorum) :
    (ms m).hAll = hAll o S st.sid st.cs := by
  have hrep : representativeHash S ms = some (hAll o S st.sid st.cs) := by
    rcases h.representative with hp | hrep
    · rw [← (checkDealer_ok (h.checked p hp)).1, (received_ok h.received).1]
      rfl
    · exact hrep
  exact Option.some.inj ((checkDealer_ok (h.checked m hm)).1.trans hrep)

variable {r : Fin n} {st' : AcState n E D P} {ms' : Fin n → AcMsg E D R P} {key' : KeyShareMp q E}

omit hq in
/-- Through an honest dealer, successful parties have received the same commitments. -/
theorem Accepted.commitments_eq (h : Accepted o S me run p st ms key)
    (h' : Accepted o S me run r st' ms' key') (ho : o.Injective) (hrun : AcRun o S me honest run)
    (hp : p ∈ honest) (hr : r ∈ honest) (hdealer : ∃ m ∈ honest, m ∈ S.quorum) :
    ∀ j ∈ S.quorum, st.cs j = st'.cs j := by
  obtain ⟨m, hm, hmq⟩ := hdealer
  obtain ⟨stm, hstm, hmsg⟩ := h.message_eq hrun hp hm
  obtain ⟨stm', hstm', hmsg'⟩ := h'.message_eq hrun hr hm
  have hsame : stm = stm' := Except.ok.inj (hstm.symm.trans hstm')
  have hhash : hAll o S st.sid st.cs = hAll o S st'.sid st'.cs := by
    rw [← h.hash_eq hmq, ← h'.hash_eq hmq, hmsg, hmsg', hsame]
    rfl
  exact hAll_inj ho hhash

omit [Module (ZMod q) E] hq [Inhabited R] [Inhabited P] in
theorem openDealing_ok {j : Fin n} (h : openDealing o S st ms j = .ok ()) :
    comOpen o [] (o.pid (S.job.names j)) (ms j).rho (st.cs j)
      (comArgs (ms j).acPub.values (ms j).pi) = .ok () := by
  obtain ⟨u, hcom, -⟩ := bind_ok_iff.mp h
  exact hcom

/-- The points of an honest dealer, as every party reads them. -/
theorem Accepted.pointAt_honest (h : Accepted o S me run p st ms key) (hv : S.Valid o)
    (hrun : AcRun o S me honest run) (hp : p ∈ honest) {j : Fin n}
    (hj : j ∈ honest) (hjq : j ∈ S.quorum) :
    ∃ τ, Deals o S (me j) τ ∧ (∀ nm ∈ S.ac.names,
      pointAt (dealerMap S p st.dealing.acPub ms j) nm = τ nm • S.curve.generator) ∧
      (ms j).xij = residue (τ (S.job.names p)) := by
  obtain ⟨stj, hstj, hmsg⟩ := h.message_eq hrun hp hj
  obtain ⟨τ, hτ, hdealing⟩ := own_dealing hv hstj hjq
  have hzero : S.isRefresh = true → τ S.ac.name • S.curve.generator = 0 := by
    intro hr
    rw [hτ.root, dealtSecret, if_pos hr, zero_smul]
  have hpub : ∀ nm ∈ S.ac.names, pointAt (pubMap S τ) nm = τ nm • S.curve.generator := by
    intro nm hnm
    rw [pointAt, find_pubMap]
    split
    · rfl
    · rename_i hc
      obtain ⟨hr, rfl⟩ : S.isRefresh = true ∧ nm = S.ac.name := by
        by_contra hne
        exact hc ⟨hnm, fun hr he => hne ⟨hr, he⟩⟩
      exact (hzero hr).symm
  refine ⟨τ, hτ, fun nm hnm => ?_, ?_⟩
  · by_cases hjp : j = p
    · subst hjp
      have hst : stj = st := Except.ok.inj (hstj.symm.trans h.committed)
      rw [dealerMap, if_pos rfl, ← hst, hdealing]
      exact hpub nm hnm
    · rw [dealerMap, if_neg hjp, hmsg]
      simp only [acMessage, hdealing, dealingOf, mapValues_on_point]
      split
      · rename_i hr
        rw [pointAt, OrderedMap.find_insert]
        split
        · rename_i he
          rw [he, hzero hr]
          rfl
        · exact hpub nm hnm
      · exact hpub nm hnm
  · rw [hmsg, acMessage, hdealing]
    rfl

/-- Successful honest parties read the same point at every name of the tree. -/
theorem Accepted.pointAt_eq (h : Accepted o S me run p st ms key)
    (h' : Accepted o S me run r st' ms' key') (hv : S.Valid o) (ho : o.Injective)
    (hrun : AcRun o S me honest run) (hW : W ⊆ honest) (hp : p ∈ W) (hr : r ∈ W)
    (hdealer : ∃ m ∈ honest, m ∈ S.quorum) (hnames : NamesAgree S run honest W) {j : Fin n}
    (hj : j ∈ S.quorum) {nm : PName} (hnm : nm ∈ S.ac.names) :
    pointAt (dealerMap S p st.dealing.acPub ms j) nm =
      pointAt (dealerMap S r st'.dealing.acPub ms' j) nm := by
  by_cases hjh : j ∈ honest
  · obtain ⟨τ, hτ, hpt, -⟩ := h.pointAt_honest hv hrun (hW hp) hjh hj
    obtain ⟨τ', hτ', hpt', -⟩ := h'.pointAt_honest hv hrun (hW hr) hjh hj
    rw [hpt nm hnm, hpt' nm hnm, hτ.unique hτ' hnm]
  · have hjp : j ≠ p := fun he => hjh (he ▸ hW hp)
    have hjr : j ≠ r := fun he => hjh (he ▸ hW hr)
    obtain ⟨-, msgs, hin, hms⟩ := received_ok h.received
    obtain ⟨-, msgs', hin', hms'⟩ := received_ok h'.received
    have hcom := openDealing_ok ((checkDealer_ok (h.checked j hj)).2 hjp).1
    have hcom' := openDealing_ok ((checkDealer_ok (h'.checked j hj)).2 hjr).1
    rw [h.commitments_eq h' ho hrun (hW hp) (hW hr) hdealer j hj] at hcom
    obtain ⟨-, hargs⟩ := comOpen_binding ho hcom hcom'
    have hvalues : (ms j).acPub.values = (ms' j).acPub.values := by
      simp only [comArgs, List.cons.injEq, Item.points.injEq] at hargs
      exact hargs.1
    have hkeys : (ms j).acPub.keys = (ms' j).acPub.keys := by
      rw [hms j hjp, hms' j hjr]
      exact hnames p hp r hr msgs msgs' hin hin' j hj hjh
    have hmap := OrderedMap.eq_of_keys_values hkeys hvalues
    rw [dealerMap, dealerMap, if_neg hjp, if_neg hjr, hmap]

end Views

omit [DecidableEq D] [Inhabited R] [Inhabited P] in
/-- What the key of a successful party is made of. -/
theorem acOutput_ok {i : Fin n} {me : AcParty q E R}
    {pub : Fin n → OrderedMap PName E} {xs : Fin n → ℤ} {key : KeyShareMp q E}
    (h : acOutput o S i me pub xs = .ok key) :
    (S.quorumList.map (fun j => (xs j : ZMod q))).sum • S.curve.generator =
      (S.quorumList.map (fun j => pointAt (pub j) (S.job.names i))).sum ∧
    key.Q = (if S.isRefresh then me.key.Q else
      (S.quorumList.map (fun j => pointAt (pub j) S.ac.name)).sum) ∧
    key.xShare = residue ((if S.isRefresh then (me.key.xShare : ZMod q) else 0) +
      (S.quorumList.map (fun j => (xs j : ZMod q))).sum) ∧
    ∀ l, key.Qis.find (S.job.names l) =
      some ((if S.isRefresh then pointAt me.key.Qis (S.job.names l) else 0) +
      (S.quorumList.map (fun j => pointAt (pub j) (S.job.names l))).sum) := by
  rw [acOutput, addDealings_eq, addPublic_eq] at h
  simp only [bind_assoc, ok_bind, mulToGenerator_residue] at h
  obtain ⟨-, -, h⟩ := bind_ok_iff.mp h
  obtain ⟨-, -, h⟩ := bind_ok_iff.mp h
  obtain ⟨reconstructedQ, -, h⟩ := bind_ok_iff.mp h
  obtain ⟨-, h⟩ := require_bind_ok_iff.mp h
  obtain ⟨hx, h⟩ := require_bind_ok_iff.mp h
  refine ⟨of_decide_eq_true hx, ?_⟩
  cases hr : S.isRefresh with
  | false =>
    rw [hr] at h
    cases h
    refine ⟨rfl, by simp, fun l => ?_⟩
    rw [find_qisMap]
    simp
  | true =>
    rw [hr] at h
    obtain ⟨xShare, hadd, h⟩ := bind_ok_iff.mp h
    obtain ⟨newQis, hqis, h⟩ := bind_ok_iff.mp h
    obtain ⟨newQ, -, h⟩ := bind_ok_iff.mp h
    obtain ⟨hQ, h⟩ := require_bind_ok_iff.mp h
    cases h
    rw [addToQis_eq] at hqis
    obtain ⟨-, -, hqis⟩ := bind_ok_iff.mp hqis
    cases hqis
    obtain ⟨-, -, hadd⟩ := (modOp_ok_iff _ _ _ _).mp hadd
    refine ⟨rfl, ?_, fun l => ?_⟩
    · rw [hadd, Int.cast_add, cast_residue]
      rfl
    · rw [find_qisMap]
      rfl

section Sharing

variable {st : ∀ p ∈ W, AcState n E D P} {ms : ∀ p ∈ W, Fin n → AcMsg E D R P}
  {key : Fin n → KeyShareMp q E}

/-- The points of one dealer are, at the successful parties, those of a sharing. -/
theorem exists_dealer_sharing (hv : S.Valid o) (ho : o.Injective)
    (hrun : AcRun o S me honest run) (hW : W ⊆ honest) (hdealer : ∃ m ∈ honest, m ∈ S.quorum)
    (hnames : NamesAgree S run honest W)
    (hacc : ∀ p hp, Accepted o S me run p (st p hp) (ms p hp) (key p)) {p₀ : Fin n} (hp₀ : p₀ ∈ W)
    {j : Fin n} (hj : j ∈ S.quorum) :
    ∃ ρ : PName → E, Consistent (pidPos q o.pid) ρ S.ac ∧
      (∀ nm, nm = S.ac.name ∨ (∃ p ∈ W, S.job.names p = nm) →
        ρ nm = pointAt (dealerMap S p₀ (st p₀ hp₀).dealing.acPub (ms p₀ hp₀) j) nm) ∧
      (S.isRefresh = true → ρ S.ac.name = 0) := by
  obtain ⟨hwf, hnd, -⟩ := validateTree_ok hv.tree
  by_cases hjh : j ∈ honest
  · obtain ⟨τ, hτ, hpt, -⟩ := (hacc p₀ hp₀).pointAt_honest hv hrun (hW hp₀) hjh hj
    refine ⟨fun nm => τ nm • S.curve.generator, hτ.points, ?_, fun hr => ?_⟩
    · rintro nm (rfl | ⟨p, -, rfl⟩)
      · exact (hpt _ (name_mem_names _)).symm
      · exact (hpt _ (listLeafNames_subset _ (hv.name_mem p))).symm
    · have hzero : τ S.ac.name = 0 := by rw [hτ.root, dealtSecret, if_pos hr]
      simp [hzero]
  · have hpath : ∀ s ∈ S.ac.subtrees, ∀ nm ∈ s.listLeafNames, (∃ p ∈ W, S.job.names p = nm) →
        PathConsistent (pidPos q o.pid)
          (pointAt (dealerMap S p₀ (st p₀ hp₀).dealing.acPub (ms p₀ hp₀) j)) nm s := by
      rintro s hs nm hnm ⟨p, hp, rfl⟩
      have hjp : j ≠ p := fun he => hjh (he ▸ hW hp)
      obtain ⟨-, Qj, -, hverify⟩ := (checkDealer_ok ((hacc p hp).checked j hj)).2 hjp
      obtain ⟨-, -, hrules⟩ := verifyShare_sound hwf hnd hv.positions (hv.name_mem p) hverify
      have hsame : ∀ c ∈ S.ac.subtrees,
          pointAt (dealerMap S p (st p hp).dealing.acPub (ms p hp) j) c.name =
          pointAt (dealerMap S p₀ (st p₀ hp₀).dealing.acPub (ms p₀ hp₀) j) c.name := fun c hc =>
        (hacc p hp).pointAt_eq (hacc p₀ hp₀) hv ho hrun hW hp hp₀ hdealer hnames hj
          (name_mem_of_mem_subtrees hc)
      exact (hrules s hs (listLeafNames_subset s hnm)).congr (hsame s hs) fun c hc =>
        hsame c (child_mem_subtrees hs hc)
    obtain ⟨ρ, hρ, hroot, hleaves⟩ :=
      exists_consistent_through (fun nm => ∃ p ∈ W, S.job.names p = nm) hwf hnd hpath
    refine ⟨ρ, hρ, ?_, fun hr => ?_⟩
    · rintro nm (rfl | ⟨p, hp, rfl⟩)
      · exact hroot
      · exact hleaves _ (hv.name_mem p) ⟨p, hp, rfl⟩
    · have hjp : j ≠ p₀ := fun he => hjh (he ▸ hW hp₀)
      rw [hroot, dealerMap, if_neg hjp, if_pos hr, pointAt, OrderedMap.find_insert, if_pos rfl]
      rfl

end Sharing

/-- The parties of `W` hold one key: the same public points, each the share that the
others' points say, and all of them shares of one sharing in the exponent. -/
structure KeysAgree (o : Oracles E D R P) (S : AcSession q E n) (W : Finset (Fin n))
    (key : Fin n → KeyShareMp q E) : Prop where
  public_eq : ∀ p ∈ W, ∀ r ∈ W, (key p).Q = (key r).Q ∧
    ∀ l, (key p).Qis.find (S.job.names l) = (key r).Qis.find (S.job.names l)
  share : ∀ p ∈ W, ∀ r ∈ W, ∃ X, S.curve.mulToGenerator (key p).xShare = .ok X ∧
    (key r).Qis.find (S.job.names p) = some X
  sharing : ∃ τ : PName → E, Consistent (pidPos q o.pid) τ S.ac ∧ ∀ p ∈ W, (key p).Q = τ S.ac.name ∧
    S.curve.mulToGenerator (key p).xShare = .ok (τ (S.job.names p))

omit [DecidableEq E] [DecidableEq D] [Inhabited R] [Inhabited P] in
/-- What the parties bring to the sums: the points of their keys on refresh, else 0. -/
theorem exists_brought (hold : S.isRefresh = true → KeysAgree o S W (fun p => (me p).key)) :
    ∃ (σ : PName → E) (old : PName → E), Consistent (pidPos q o.pid) σ S.ac ∧
      (S.isRefresh = false → ∀ nm, σ nm = 0) ∧
      (∀ p ∈ W, S.isRefresh = true → (me p).key.Q = σ S.ac.name) ∧
      (∀ p ∈ W, ∀ l, (if S.isRefresh then pointAt (me p).key.Qis (S.job.names l) else 0) =
        old (S.job.names l)) ∧
      ∀ p ∈ W, ((if S.isRefresh then ((me p).key.xShare : ZMod q) else 0) • S.curve.generator =
        σ (S.job.names p) ∧ old (S.job.names p) = σ (S.job.names p)) := by
  cases hr : S.isRefresh with
  | false => exact ⟨fun _ => 0, fun _ => 0, Consistent.zero _, by simp, by simp, by simp, by simp⟩
  | true =>
    have h := hold hr
    obtain ⟨σ, hσ, hval⟩ := h.sharing
    rcases W.eq_empty_or_nonempty with rfl | ⟨p₀, hp₀⟩
    · exact ⟨σ, σ, hσ, by simp, by simp, by simp, by simp⟩
    refine ⟨σ, pointAt (me p₀).key.Qis, hσ, by simp, fun p hp _ => (hval p hp).1, fun p hp l => ?_,
      fun p hp => ⟨?_, ?_⟩⟩
    · rw [if_pos rfl, pointAt, (h.public_eq p hp p₀ hp₀).2 l, pointAt]
    · rw [if_pos rfl]
      exact (mulToGenerator_ok _ (hval p hp).2).symm
    · obtain ⟨X, hX, hfind⟩ := h.share p hp p₀ hp₀
      rw [pointAt, hfind, Option.getD_some]
      exact Except.ok.inj (hX.symm.trans (hval p hp).2)

/-- Honest parties that succeed hold one key, when corrupted dealers send them maps
with the same keys, some dealer is honest, and on refresh they held one key before. -/
theorem dkgOrRefreshAc_agreement (hv : S.Valid o) (ho : o.Injective)
    (hrun : AcRun o S me honest run) (hW : W ⊆ honest) (hdealer : ∃ m ∈ honest, m ∈ S.quorum)
    (hnames : NamesAgree S run honest W)
    (hold : S.isRefresh = true → KeysAgree o S W (fun p => (me p).key))
    {key : Fin n → KeyShareMp q E} (hok : ∀ p ∈ W, acResult o S me run p = .ok (key p)) :
    KeysAgree o S W key := by
  choose st ms hacc using fun p (hp : p ∈ W) => exists_accepted (hok p hp)
  obtain ⟨σ, old, hσ, hzero, hrootσ, hqisσ, hshareσ⟩ := exists_brought hold
  have hpoints : ∀ p hp r hr, ∀ nm ∈ S.ac.names,
      (S.quorumList.map (fun j =>
        pointAt (dealerMap S p (st p hp).dealing.acPub (ms p hp) j) nm)).sum =
      (S.quorumList.map (fun j =>
        pointAt (dealerMap S r (st r hr).dealing.acPub (ms r hr) j) nm)).sum := by
    intro p hp r hr nm hnm
    refine congrArg List.sum (List.map_congr_left fun j hj => ?_)
    exact (hacc p hp).pointAt_eq (hacc r hr) hv ho hrun hW hp hr hdealer hnames
      (AcSession.mem_quorumList.mp hj) hnm
  have hname : ∀ l, S.job.names l ∈ S.ac.names := fun l => listLeafNames_subset _ (hv.name_mem l)
  have hQ : ∀ p hp, (key p).Q = if S.isRefresh then σ S.ac.name else
      (S.quorumList.map (fun j =>
          pointAt (dealerMap S p (st p hp).dealing.acPub (ms p hp) j) S.ac.name)).sum := by
    intro p hp
    rw [(acOutput_ok (hacc p hp).output).2.1]
    cases hr : S.isRefresh with
    | true => exact hrootσ p hp hr
    | false => rfl
  have hQis : ∀ p hp l, (key p).Qis.find (S.job.names l) = some (old (S.job.names l) +
      (S.quorumList.map (fun j => pointAt (dealerMap S p (st p hp).dealing.acPub (ms p hp) j)
        (S.job.names l))).sum) := by
    intro p hp l
    rw [(acOutput_ok (hacc p hp).output).2.2.2 l, hqisσ p hp l]
  have hmul : ∀ p hp, S.curve.mulToGenerator (key p).xShare = .ok (σ (S.job.names p) +
      (S.quorumList.map (fun j => pointAt (dealerMap S p (st p hp).dealing.acPub (ms p hp) j)
        (S.job.names p))).sum) := by
    intro p hp
    obtain ⟨hx, -, hshare, -⟩ := acOutput_ok (hacc p hp).output
    rw [hshare, mulToGenerator_residue, add_smul, hx, (hshareσ p hp).1]
  refine ⟨fun p hp r hr => ⟨?_, fun l => ?_⟩, fun p hp r hr => ⟨_, hmul p hp, ?_⟩, ?_⟩
  · rw [hQ p hp, hQ r hr, hpoints p hp r hr _ (name_mem_names _)]
  · rw [hQis p hp l, hQis r hr l, hpoints p hp r hr _ (hname l)]
  · rw [hQis r hr p, hpoints p hp r hr _ (hname p), (hshareσ p hp).2]
  · rcases W.eq_empty_or_nonempty with rfl | ⟨p₀, hp₀⟩
    · exact ⟨fun _ => 0, Consistent.zero _, by simp⟩
    choose ρ hρ hval hroot using fun j (hj : j ∈ S.quorum) =>
      exists_dealer_sharing hv ho hrun hW hdealer hnames hacc hp₀ hj
    have hsum : ∀ nm, nm = S.ac.name ∨ (∃ p ∈ W, S.job.names p = nm) →
        (S.quorumList.map (fun j => if h : j ∈ S.quorum then ρ j h nm else 0)).sum =
        (S.quorumList.map (fun j =>
          pointAt (dealerMap S p₀ (st p₀ hp₀).dealing.acPub (ms p₀ hp₀) j) nm)).sum := by
      intro nm hnm
      refine congrArg List.sum (List.map_congr_left fun j hj => ?_)
      have hjq := AcSession.mem_quorumList.mp hj
      rw [dif_pos hjq, hval j hjq nm hnm]
    have hdealt : Consistent (pidPos q o.pid)
        (fun nm => (S.quorumList.map (fun j => if h : j ∈ S.quorum then ρ j h nm else 0)).sum)
          S.ac := by
      refine Consistent.sum S.quorumList fun j hj => ?_
      have hjq := AcSession.mem_quorumList.mp hj
      simpa only [dif_pos hjq] using hρ j hjq
    refine ⟨_, hσ.add hdealt, fun p hp => ⟨?_, ?_⟩⟩
    · rw [hQ p hp]
      cases hr : S.isRefresh with
      | true =>
        have hnone :
            (S.quorumList.map (fun j => if h : j ∈ S.quorum then ρ j h S.ac.name else 0)).sum =
              0 := by
          refine List.sum_eq_zero fun v hv => ?_
          obtain ⟨j, hj, rfl⟩ := List.mem_map.mp hv
          rw [dif_pos (AcSession.mem_quorumList.mp hj), hroot j _ hr]
        rw [if_pos rfl, hnone, add_zero]
      | false =>
        rw [if_neg Bool.false_ne_true, hzero hr, zero_add, hsum _ (.inl rfl),
          hpoints p hp p₀ hp₀ _ (name_mem_names _)]
    · rw [hmul p hp, hsum _ (.inr ⟨p, hp, rfl⟩), hpoints p hp p₀ hp₀ _ (hname p)]

omit hq in
theorem honestRun_acRun (o : Oracles E D R P) (S : AcSession q E n)
    (me : Fin n → AcParty q E R) (rv : ErrorCode) (honest : Finset (Fin n)) :
    AcRun o S me honest (honestRun o S me rv) where
  round0 := delivered_honestInbox honest
  round1 := delivered_honestInbox honest
  round2 := delivered_honestInbox honest
  round3 := delivered_honestInbox honest

omit hq in
/-- A dealer that follows the protocol sends the same map to all parties. -/
theorem honestRun_namesAgree (o : Oracles E D R P) (S : AcSession q E n)
    (me : Fin n → AcParty q E R) (rv : ErrorCode) (hW : W ⊆ honest) :
    NamesAgree S (honestRun o S me rv) honest W := by
  intro p hp r hr ms ms' hms hms' j _ hj
  have hjp : j ≠ p := fun he => hj (he ▸ hW hp)
  have hjr : j ≠ r := fun he => hj (he ▸ hW hr)
  obtain ⟨st, hst, hmsg⟩ := bind_ok_iff.mp (honestInbox_ok hms j hjp).1
  obtain ⟨st', hst', hmsg'⟩ := bind_ok_iff.mp (honestInbox_ok hms' j hjr).1
  have hsame : st = st' := Except.ok.inj (hst.symm.trans hst')
  rw [← Except.ok.inj hmsg, ← Except.ok.inj hmsg', hsame]
  rfl

section Examples

/-- The parties a and c of the sample key generation trust nobody else. -/
theorem dkgOrRefreshAc_agreement_sample : ∃ key : Fin 5 → KeyShareMp 1009 (ZMod 1009),
    (∀ p ∈ ({0, 1} : Finset (Fin 5)), acResult sampleOracles (sampleSession false) sampleParty
      (honestRun sampleOracles (sampleSession false) sampleParty .netGeneral) p = .ok (key p)) ∧
    KeysAgree sampleOracles (sampleSession false) {0, 1} key := by
  choose τ hτ using fun j => exists_labelling (sampleSession_valid false) (sampleParty j)
  have haff := fun j (_ : j ∈ (sampleSession false).quorum) =>
    (hτ j).affine rfl (sampleParty_nonzero j)
  have hok : ∀ p, acResult sampleOracles (sampleSession false) sampleParty
      (honestRun sampleOracles (sampleSession false) sampleParty .netGeneral) p =
      .ok (dkgKey (sampleSession false) τ (sampleParty p).key.Qis p) := fun p =>
    acResult_dkg (sampleSession_valid false) sampleOracles_complete rfl (fun j _ => hτ j) haff p
  refine ⟨_, fun p _ => hok p, ?_⟩
  exact dkgOrRefreshAc_agreement (sampleSession_valid false) sampleOracles_injective
    (honestRun_acRun _ _ _ .netGeneral {0, 1}) (Finset.Subset.refl _) ⟨0, by decide, by decide⟩
    (honestRun_namesAgree _ _ _ _ (Finset.Subset.refl _)) (by simp [sampleSession]) fun p _ => hok p

/-- Three parties a, b and d that must all take part. -/
def andTree : Node := mk .and [] 0 [mk .leaf [97] 0 [], mk .leaf [98] 0 [], mk .leaf [100] 0 []]

def andSession : AcSession 1009 (ZMod 1009) 3 where
  job := ⟨![[97], [98], [100]], by decide, by decide, by decide⟩
  curve := sampleCurve
  ac := andTree
  quorum := Finset.univ
  sid := [1]
  isRefresh := false

theorem andSession_valid : andSession.Valid sampleOracles where
  tree := by decide
  enough := by decide
  leaves nm := by
    constructor
    · intro h
      have hl : ∀ nm ∈ andTree.listLeafNames, ∃ l, andSession.job.names l = nm := by decide
      exact hl nm h
    · rintro ⟨l, rfl⟩
      have hl : ∀ l, andSession.job.names l ∈ andTree.listLeafNames := by decide
      exact hl l
  positions := by decide
  pidsInRange := by decide

def andParty (i : Fin 3) : AcParty 1009 (ZMod 1009) ℕ where
  key := sampleKey (andSession.job.names i)
  r := 5
  rand := Stream'.const 3
  proofCoins := 0
  comRand := i
  localSid := List.replicate 16 0
  sidPart := List.replicate 16 0
  sidPart_length := length_sampleSid

theorem andParty_nonzero (j : Fin 3) :
    ∀ st, shareWithInternals sampleOracles.pid andSession.curve andSession.ac
    (residue (andParty j).r) (andParty j).rand = .ok st → ∀ v ∈ st.acInternalShares.values,
      (v : ZMod 1009) ≠ 0 := by
  intro st hst v hv
  have hvals : (shareWithInternals samplePid sampleCurve andTree 5 (Stream'.const 3)).map
      (fun st => st.acInternalShares.values) = .ok [5, 1008, 3, 3] := by decide +kernel
  rw [show shareWithInternals samplePid sampleCurve andTree 5 (Stream'.const 3) =
    .ok st from hst] at hvals
  have hall : ∀ v ∈ ([5, 1008, 3, 3] : List ℤ), (v : ZMod 1009) ≠ 0 := by decide
  exact hall v (Except.ok.inj hvals ▸ hv)

/-- The points that d commits to. -/
def shiftedPoints : List (ZMod 1009) := [6, 1, 2, 3, 1]

/-- The names that d puts on its points: the last one is unused at a and the second
one at b, so that all names in between are off by one. -/
def shiftedKeys (i : Fin 3) : List PName :=
  if i = 0 then [[], [97], [98], [100], [122]] else [[], [48], [97], [98], [100]]

def shiftedLabel (i : Fin 3) (nm : PName) : ZMod 1009 :=
  shiftedPoints.getD ((shiftedKeys i).idxOf nm) 0

def shiftedMap (i : Fin 3) : OrderedMap PName (WirePoint (ZMod 1009)) :=
  .ofKeys (fun nm => .on (shiftedLabel i nm)) (shiftedKeys i)

theorem values_shiftedMap (i : Fin 3) : (shiftedMap i).values = shiftedPoints.map .on := by
  revert i
  decide

theorem shiftedLabel_consistent (i : Fin 3) :
    Consistent (pidPos 1009 samplePid) (shiftedLabel i) andTree := by
  have hsum : ∀ i, (([[97], [98], [100]] : List PName).map (shiftedLabel i)).sum =
    shiftedLabel i [] := by decide
  refine forall_mk.mpr ⟨hsum i, ?_⟩
  · intro c hc
    fin_cases hc <;> exact forall_mk.mpr ⟨trivial, by simp⟩

/-- The proof and the commitment of d. -/
def shiftedPi : List (ZMod 1009) :=
  sampleOracles.proveBatchDl 0 shiftedPoints (shiftedPoints.map residue) [1] 2

def shiftedCom : ComBuf ℕ :=
  comGen sampleOracles [] (samplePid [100]) 0 (List.replicate 16 0)
    (comArgs (shiftedPoints.map .on) shiftedPi)

variable (τ : Fin 3 → PName → ZMod 1009)

/-- The commitments of a run in which a and b deal `τ`. -/
def shiftedCs (j : Fin 3) : ComBuf ℕ :=
  if j = 2 then shiftedCom else (dealingOf sampleOracles andSession [1] j (andParty j) (τ j)).c

def shiftedState (j : Fin 3) : AcState 3 (ZMod 1009) ℕ (List (ZMod 1009)) :=
  ⟨[1], dealingOf sampleOracles andSession [1] j (andParty j) (τ j), shiftedCs τ⟩

/-- The last message of party `j` to party `i`. -/
def shiftedMessage (i j : Fin 3) : AcMsg (ZMod 1009) ℕ ℕ (List (ZMod 1009)) :=
  if j = 2 then ⟨hAll sampleOracles andSession [1] (shiftedCs τ), shiftedMap i, shiftedPi, 0,
    residue (shiftedLabel i (andSession.job.names i))⟩
  else acMessage sampleOracles andSession j (andParty j) (shiftedState τ j) i

def shiftedRun : AcInboxes 3 (ZMod 1009) ℕ ℕ (List (ZMod 1009)) where
  in0 _ := .ok (fun j => (andParty j).sidPart)
  in1 _ := .ok (fun _ => hConsistency sampleOracles andSession [1])
  in2 _ := .ok (shiftedCs τ)
  in3 i := .ok (shiftedMessage τ i)

variable {τ}

theorem acStart_shifted (i : Fin 3) (in0 : Inbox 3 Bytes) :
    acStart sampleOracles andSession i (andParty i) in0 = .ok [1] := by
  simp only [acStart, andSession_valid.tree, andSession_valid.enough, require_true, ok_bind]
  rfl

theorem acDealing_shifted (hτ : ∀ j, Deals sampleOracles andSession (andParty j) (τ j))
    (i : Fin 3) :
    acDealing sampleOracles andSession i (andParty i) ((shiftedRun τ).in0 i)
      ((shiftedRun τ).in1 i) =
      .ok ([1], dealingOf sampleOracles andSession [1] i (andParty i) (τ i)) := by
  have hrecv : received i (hConsistency sampleOracles andSession [1]) ((shiftedRun τ).in1 i) =
      .ok (fun _ => hConsistency sampleOracles andSession [1]) :=
        congrArg Except.ok (Function.update_eq_self i _)
  have hloop : forEach (fun j =>
      require (decide (j = i ∨ hConsistency sampleOracles andSession [1] =
      hConsistency sampleOracles andSession [1])) .crypto) (List.finRange 3) = .ok () :=
    forEach_ok_iff.mpr fun j _ => by simp
  have hown : ownDealing sampleOracles andSession [1] i (andParty i) =
      .ok (dealingOf sampleOracles andSession [1] i (andParty i) (τ i)) := by
    have hi : i ∈ andSession.quorum := Finset.mem_univ i
    rw [ownDealing, if_pos hi, (hτ i).deal_eq andSession_valid]
  rw [acDealing, acStart_shifted, ok_bind, hrecv, ok_bind, hloop, ok_bind, hown, ok_bind]

theorem acCommitted_shifted (hτ : ∀ j, Deals sampleOracles andSession (andParty j) (τ j))
    {i : Fin 3} (hi : i ≠ 2) :
    acCommitted sampleOracles andSession i (andParty i)
      ((shiftedRun τ).in0 i) ((shiftedRun τ).in1 i)
      ((shiftedRun τ).in2 i) = .ok (shiftedState τ i) := by
  have hown : (dealingOf sampleOracles andSession [1] i (andParty i) (τ i)).c = shiftedCs τ i := by
    rw [shiftedCs, if_neg hi]
  have hrecv : received i (dealingOf sampleOracles andSession [1] i (andParty i) (τ i)).c
      ((shiftedRun τ).in2 i) =
      .ok (shiftedCs τ) := by
    rw [hown]
    exact congrArg Except.ok (Function.update_eq_self i _)
  simp only [acCommitted, acDealing_shifted hτ, ok_bind, hrecv]
  rfl

theorem shiftedRun_acRun (hτ : ∀ j, Deals sampleOracles andSession (andParty j) (τ j)) :
    AcRun sampleOracles andSession andParty {0, 1} (shiftedRun τ) where
  round0 i _ msgs h k _ _ := by
    cases h
    simp [acSend0, andSession_valid.tree, andSession_valid.enough]
  round1 i _ msgs h k _ _ := by
    cases h
    simp [acSend1, acStart_shifted]
  round2 i _ msgs h k hk _ := by
    cases h
    have hk2 : k ≠ 2 := by fin_cases hk <;> decide
    rw [acSend2, acDealing_shifted hτ, ok_bind, shiftedCs, if_neg hk2]
  round3 i _ msgs h k hk _ := by
    cases h
    have hk2 : k ≠ 2 := by fin_cases hk <;> decide
    rw [acSend3, acCommitted_shifted hτ hk2, ok_bind, shiftedMessage, if_neg hk2]

/-- The sharings that party `i` reads from the messages. -/
def shiftedView (τ : Fin 3 → PName → ZMod 1009) (i j : Fin 3) : PName → ZMod 1009 :=
  if j = 2 then shiftedLabel i else τ j

theorem shiftedView_consistent (hτ : ∀ j, Deals sampleOracles andSession (andParty j) (τ j))
    (i j : Fin 3) :
    Consistent (pidPos 1009 samplePid) (shiftedView τ i j) andTree := by
  unfold shiftedView
  split
  · exact shiftedLabel_consistent i
  · exact (hτ j).consistent

theorem find_shiftedView {i : Fin 3} (hi : i ≠ 2) (j : Fin 3) {nm : PName}
    (hnm : nm ∈ andTree.names) :
    (dealerMap andSession i (shiftedState τ i).dealing.acPub (shiftedMessage τ i) j).find nm =
      some (shiftedView τ i j nm • andSession.curve.generator) := by
  have hpub : ∀ σ : PName → ZMod 1009,
      (pubMap andSession σ).find nm = some (σ nm • andSession.curve.generator) := by
    intro σ
    rw [find_pubMap, if_pos ⟨hnm, by simp [andSession]⟩]
  by_cases hj : j = 2
  · subst hj
    have hkeys : ∀ i, ∀ nm ∈ andTree.names, nm ∈ shiftedKeys i := by decide
    simp [dealerMap, hi.symm, andSession, shiftedMessage, shiftedMap, hkeys i nm hnm,
      WirePoint.point, shiftedView, sampleCurve]
  · by_cases hji : j = i
    · subst hji
      rw [dealerMap, if_pos rfl, shiftedView, if_neg hj]
      exact hpub _
    · simp only [dealerMap, hji, if_false, shiftedMessage, hj, shiftedView, acMessage,
        mapValues_on_point]
      exact hpub _

theorem xij_shifted (i j : Fin 3) :
    (shiftedMessage τ i j).xij = residue (shiftedView τ i j (andSession.job.names i)) := by
  by_cases hj : j = 2 <;> simp [shiftedMessage, shiftedView, hj, acMessage, shiftedState, dealingOf]

theorem openDealing_shifted (haff : ∀ j, AffineDealing andSession (τ j)) (i j : Fin 3) :
    openDealing sampleOracles andSession (shiftedState τ i) (shiftedMessage τ i) j = .ok () := by
  by_cases hj : j = 2
  · subst hj
    refine openDealing_of_points sampleOracles_complete 0 shiftedPoints (by decide)
      (by simp [shiftedPoints]; decide) ?_ ?_ ?_
    · rw [shiftedMessage, if_pos rfl, values_shiftedMap]
      simp [andSession, sampleCurve]
    · simp [shiftedMessage, shiftedPi, sampleOracles]
    · rw [shiftedMessage, if_pos rfl, values_shiftedMap]
      exact comOpen_comGen sampleOracles [] _ _ _ _
  · refine openDealing_of_deals andSession_valid sampleOracles_complete
      (andParty j) (haff j) ?_ ?_ ?_ ?_
    · simp [shiftedMessage, hj, acMessage, shiftedState, dealingOf]
    · rw [shiftedMessage, if_neg hj]
      rfl
    · have hjq : j ∈ andSession.quorum := Finset.mem_univ j
      rw [shiftedMessage, if_neg hj, acMessage, if_pos hjq]
    · simp [shiftedState, shiftedCs, hj]

/-- The parties a and b accept. -/
theorem acResult_shifted (hτ : ∀ j, Deals sampleOracles andSession (andParty j) (τ j))
    (haff : ∀ j, AffineDealing andSession (τ j)) {i : Fin 3} (hi : i ≠ 2) :
    acResult sampleOracles andSession andParty (shiftedRun τ) i =
      .ok (dkgKey andSession (shiftedView τ i) (andParty i).key.Qis i) := by
  have hhash : ∀ j, (shiftedMessage τ i j).hAll =
      hAll sampleOracles andSession [1] (shiftedCs τ) := by
    intro j
    by_cases hj : j = 2
    · rw [shiftedMessage, if_pos hj]
    · rw [shiftedMessage, if_neg hj]
      rfl
  have hrep : representativeHash andSession (shiftedMessage τ i) =
      some (hAll sampleOracles andSession (shiftedState τ i).sid (shiftedState τ i).cs) :=
    representativeHash_eq andSession_valid.quorumList_ne_nil fun j _ => hhash j
  have hrecv : received i (acMessage sampleOracles andSession i (andParty i) (shiftedState τ i) i)
      ((shiftedRun τ).in3 i) = .ok (shiftedMessage τ i) := by
    have hown : acMessage sampleOracles andSession i (andParty i) (shiftedState τ i) i =
        shiftedMessage τ i i := by
      rw [shiftedMessage, if_neg hi]
    rw [hown]
    exact congrArg Except.ok (Function.update_eq_self i _)
  have hchecks :
      forEach (checkDealer sampleOracles andSession i (shiftedState τ i) (shiftedMessage τ i))
      andSession.quorumList = .ok () := by
    refine forEach_ok_iff.mpr fun j _ => ?_
    have hsame : decide (some (shiftedMessage τ i j).hAll =
        some (hAll sampleOracles andSession (shiftedState τ i).sid (shiftedState τ i).cs)) =
          true := by
      rw [hhash j]
      exact decide_eq_true rfl
    rw [checkDealer, hrep, hsame, require_true, ok_bind]
    split
    · rfl
    · refine checkReceived_of_sharing andSession_valid (openDealing_shifted haff i j)
        (shiftedView_consistent hτ i j)
        (fun nm hnm => find_shiftedView hi j hnm) ?_
      rw [xij_shifted, mulToGenerator_residue]
  obtain ⟨hsum, hpub⟩ := sums_honest (τ := shiftedView τ i) andSession_valid
    (fun j _ nm hnm _ => find_shiftedView hi j hnm) (fun j _ => xij_shifted i j)
  rw [acResult, dkgOrRefreshAc, acCommitted_shifted hτ hi, ok_bind, hrecv, ok_bind, hchecks,
    ok_bind, hrep]
  simp only [or_true, decide_true, require_true, ok_bind]
  exact acOutput_dkg andSession_valid rfl
    (Consistent.sum _ fun j _ => shiftedView_consistent hτ i j) (andParty i) hsum hpub

theorem deserializes_shifted (haff : ∀ j, AffineDealing andSession (τ j)) (i j : Fin 3) :
    (shiftedMessage τ i j).deserializes = true := by
  refine List.all_eq_true.mpr fun R hR => ?_
  by_cases hj : j = 2
  · rw [shiftedMessage, if_pos hj, values_shiftedMap] at hR
    revert R
    decide
  · simp only [shiftedMessage, hj, if_false, acMessage, OrderedMap.values_mapValues] at hR
    obtain ⟨P, hP, rfl⟩ := List.mem_map.mp hR
    obtain ⟨nm, hfind⟩ := (OrderedMap.mem_values_iff _ P).mp hP
    obtain ⟨hnm, hroot, rfl⟩ := find_pubMap_some hfind
    have hne : τ j nm • andSession.curve.generator ≠ 0 := by
      rw [Ne, smul_generator_eq_zero]
      exact haff j nm hnm hroot
    simpa using hne

/-- What a and b hold for a differs by what d has put there. -/
theorem find_dkgKey_shifted (i : Fin 3) :
    (dkgKey andSession (shiftedView τ i) (andParty i).key.Qis i).Qis.find [97] =
    some (τ 0 [97] + τ 1 [97] + shiftedLabel i [97]) := by
  have hfind := find_qisMap andSession (andParty i).key.Qis
    (fun l => sumLabel andSession (shiftedView τ i) (andSession.job.names l) •
      andSession.curve.generator) 0
  refine hfind.trans (congrArg some ?_)
  have hlist : andSession.quorumList = [0, 1, 2] := by decide
  rw [sumLabel, hlist]
  simp [shiftedView, andSession, sampleCurve, add_assoc]

/-- A dealer that puts other names on the same points for b than for a makes them
disagree about a. -/
theorem shiftedNames_disagree : andSession.Valid sampleOracles ∧ sampleOracles.Injective ∧
    ∃ (run : AcInboxes 3 (ZMod 1009) ℕ ℕ (List (ZMod 1009)))
      (keyA keyB : KeyShareMp 1009 (ZMod 1009)),
      AcRun sampleOracles andSession andParty {0, 1} run ∧
      (∀ i ∈ ({0, 1} : Finset (Fin 3)), ∃ ms, run.in3 i = .ok ms ∧ ∀ j,
        (ms j).deserializes = true) ∧
      acResult sampleOracles andSession andParty run 0 = .ok keyA ∧
      acResult sampleOracles andSession andParty run 1 = .ok keyB ∧
      keyA.Qis.find [97] ≠ keyB.Qis.find [97] ∧
      ∀ X, sampleCurve.mulToGenerator keyA.xShare = .ok X → keyB.Qis.find [97] ≠ some X := by
  choose τ hτ using fun j => exists_labelling andSession_valid (andParty j)
  have haff := fun j => (hτ j).affine rfl (andParty_nonzero j)
  refine ⟨andSession_valid, sampleOracles_injective, shiftedRun τ, _, _, shiftedRun_acRun hτ,
    fun i _ => ⟨_, rfl, deserializes_shifted haff i⟩, acResult_shifted hτ haff (by decide),
    acResult_shifted hτ haff (by decide), ?_, fun X hX => ?_⟩
  · rw [find_dkgKey_shifted, find_dkgKey_shifted, Ne, Option.some.injEq, add_right_inj]
    decide
  · have hkey :=
      (dkgKey_holdsShare (τ := shiftedView τ 0) andSession_valid (andParty 0).key.Qis 0).Qis_eq [97]
      (by decide)
    have hown := Except.ok.inj ((mulToGenerator_residue sampleCurve _).symm.trans hX)
    rw [find_dkgKey_shifted] at hkey
    rw [find_dkgKey_shifted, ← hown, Ne]
    intro hsame
    have h := hkey.trans hsame.symm
    rw [Option.some.injEq, add_right_inj] at h
    exact absurd h (by decide)

end Examples

end CbMpc
