import CbMpc.AcAgreement
import CbMpc.DetachedKey

/-!
# Keys that parties hold

A party holds a key when a key generation has returned it, or a refresh of a key that it held.
The other parties may have sent anything. What the deserializers test holds of all these keys.
-/
namespace CbMpc

variable {q : ℕ} {E D R P : Type} [AddCommGroup E] [Module (ZMod q) E] [DecidableEq E]
  [DecidableEq D] [Inhabited R] [Inhabited P]

section Held

variable (o : Oracles E D R P) (curve : Curve q E)

/-- The key shares that a party of `dkg` and of any number of refreshes may hold. -/
inductive HeldAdditive : List PName → KeyShareMp q E → Prop where
  | dkg {n : ℕ} (S : DkgSession q E n) (hcurve : S.curve = curve) (hn : n ≤ 64)
      (i : Fin n) (me : DkgParty q R)
      (in1 : Inbox n (DkgMsg1 D)) (in2 : Inbox n (DkgMsg2 E D R P))
        {key : KeyShareMp q E} {sid : Bytes}
      (h : dkg o S i me in1 in2 = .ok (key, sid)) : HeldAdditive (List.ofFn S.job.names) key
  | refresh {names : List PName} {key : KeyShareMp q E} (hkey : HeldAdditive names key)
      {n : ℕ} (S : RefreshSession n)
      (hnames : (List.ofFn S.job.names).Perm names) (i : Fin n)
        (me : RefreshCoins q R n) (in0 : Inbox n Bytes)
      (in1 : Inbox n (RefreshMsg1 D)) (in2 : Inbox n (RefreshMsg2 E D R P))
        {newKey : KeyShareMp q E}
      (h : refresh o S i key me in0 in1 in2 = .ok newKey) : HeldAdditive names newKey

/-- The key shares that a party of `dkg_ac` and of any number of `refresh_ac` may hold. `refresh_ac`
deserializes its key with the job, so that the names agree. -/
inductive HeldAc : List PName → KeyShareMp q E → Prop where
  | dkg {n : ℕ} (S : AcSession q E n) (hcurve : S.curve = curve) (hdkg : S.isRefresh = false)
      (hn : n ≤ 64) (i : Fin n)
      (me : AcParty q E R) (hnew : me.key.Qis = .empty) (in0 : Inbox n Bytes) (in1 : Inbox n D)
        (in2 : Inbox n (ComBuf D))
      (in3 : Inbox n (AcMsg E D R P)) {key : KeyShareMp q E}
        (h : dkgOrRefreshAc o S i me in0 in1 in2 in3 = .ok key) :
      HeldAc (List.ofFn S.job.names) key
  | refresh {names : List PName} {n : ℕ} (S : AcSession q E n) (hcurve : S.curve = curve)
      (hrefresh : S.isRefresh = true)
      (hnames : (List.ofFn S.job.names).Perm names) (i : Fin n) (me : AcParty q E R)
        (hkey : HeldAc names me.key)
      (hself : me.key.partyName = S.job.names i) (in0 : Inbox n Bytes) (in1 : Inbox n D)
        (in2 : Inbox n (ComBuf D))
      (in3 : Inbox n (AcMsg E D R P)) {key : KeyShareMp q E}
        (h : dkgOrRefreshAc o S i me in0 in1 in2 in3 = .ok key) :
      HeldAc names key

end Held

section Names

variable {n : ℕ} (job : Job n)

theorem nodup_ofFn_names : (List.ofFn job.names).Nodup := List.nodup_ofFn.mpr job.names_injective

theorem nil_not_mem_names : [] ∉ List.ofFn job.names := by
  rw [List.mem_ofFn]
  rintro ⟨i, hi⟩
  exact job.names_nonempty i hi

theorem name_mem_ofFn (i : Fin n) : job.names i ∈ List.ofFn job.names := List.mem_ofFn.mpr ⟨i, rfl⟩

theorem ofFn_eq_map : List.ofFn job.names = (List.finRange n).map job.names := List.ofFn_eq_map

end Names

/-- A loop whose successful turns keep an invariant. -/
theorem foldlM_keeps {α β : Type} {I : β → Prop} {f : β → α → Outcome β}
    (hf : ∀ b a c, I b → f b a = .ok c → I c) {l : List α} {b c : β} (hb : I b)
    (h : l.foldlM f b = .ok c) : I c := by
  induction l generalizing b with
  | nil =>
    cases h
    exact hb
  | cons a l ih =>
    rw [List.foldlM_cons] at h
    obtain ⟨b', hb', h⟩ := bind_ok_iff.mp h
    exact ih (hf b a b' hb hb') h

theorem isInRange_modOp [hq : Fact q.Prime] {f : ℤ → ℤ → ℤ} {vartime : Bool} {a b r : ℤ}
    (h : modOp f vartime q a b = .ok r) :
    isInRange q r = true := by
  rw [eq_emod_of_modOp_ok h]
  exact isInRange_emod hq.out.pos _

variable [hq : Fact q.Prime] {o : Oracles E D R P} {curve : Curve q E}

theorem isInRange_updateShare {n : ℕ} {i : Fin n} {x y : ℤ} {mine : Fin n → ZMod q} {rs : Fin n → ℤ}
    (hx : isInRange q x = true) (h : updateShare i x mine rs = .ok y) : isInRange q y = true := by
  refine foldlM_keeps (I := fun x => isInRange q x = true) (fun x j z hx hz => ?_) hx h
  split at hz
  · cases hz
    exact hx
  · obtain ⟨delta, -, hz⟩ := bind_ok_iff.mp hz
    split at hz
    · exact isInRange_modOp hz
    · exact isInRange_modOp hz

omit [Inhabited R] [Inhabited P] in
theorem consistentShare_dkg {n : ℕ} {S : DkgSession q E n} (hcurve : S.curve = curve)
    (hn : n ≤ 64) {i : Fin n} {me : DkgParty q R} {in1 : Inbox n (DkgMsg1 D)}
    {in2 : Inbox n (DkgMsg2 E D R P)} {key : KeyShareMp q E} {sid : Bytes}
    (h : dkg o S i me in1 in2 = .ok (key, sid)) :
    ConsistentShare curve (List.ofFn S.job.names) key ∧ key.Q = key.Qis.values.sum := by
  have hresult : dkgResult o S (fun _ => me) ⟨fun _ => in1, fun _ => in2⟩ i = .ok (key, sid) := h
  obtain ⟨first, second, haccepted, hout⟩ := exists_dkgAccepted hresult
  cases hout
  have hself : second i = dkgSecond o S i me first := (received_ok haccepted.received).1
  refine ⟨⟨hcurve, nodup_ofFn_names S.job, nil_not_mem_names S.job, by rwa [List.length_ofFn],
    name_mem_ofFn S.job i,
    fun name => ?_, isInRange_residue _, ?_⟩, rfl⟩
  · rw [dkgQis, OrderedMap.find_insertEach_isSome, ofFn_eq_map]
    simp
  · rw [find_dkgQis, hself, cast_residue, ← hcurve]
    rfl

omit [Inhabited R] in
theorem consistentShare_refresh {names : List PName} {key : KeyShareMp q E}
    (hkey : ConsistentShare curve names key) {n : ℕ} {S : RefreshSession n}
    (hnames : (List.ofFn S.job.names).Perm names) {i : Fin n} {me : RefreshCoins q R n}
    {in0 : Inbox n Bytes} {in1 : Inbox n (RefreshMsg1 D)} {in2 : Inbox n (RefreshMsg2 E D R P)}
    {newKey : KeyShareMp q E} (h : refresh o S i key me in0 in1 in2 = .ok newKey) :
    ConsistentShare curve names newKey ∧ newKey.Q = newKey.Qis.values.sum := by
  obtain ⟨⟨sid, first⟩, hfirst, h⟩ := bind_ok_iff.mp h
  obtain ⟨second, -, h⟩ := bind_ok_iff.mp h
  obtain ⟨u, -, h⟩ := bind_ok_iff.mp h
  obtain ⟨x, hx, h⟩ := bind_ok_iff.mp h
  obtain ⟨Qis, hQis, h⟩ := bind_ok_iff.mp h
  obtain ⟨Qi, hQi, h⟩ := bind_ok_iff.mp h
  obtain ⟨X, hX, h⟩ := bind_ok_iff.mp h
  obtain ⟨heq, h⟩ := require_bind_ok_iff.mp h
  obtain ⟨hnew, h⟩ := require_bind_ok_iff.mp h
  cases h
  have hname : key.partyName = S.job.names i := by
    obtain ⟨sid', hstart, -⟩ := bind_ok_iff.mp hfirst
    obtain ⟨sid'', -, hstart⟩ := bind_ok_iff.mp hstart
    exact of_decide_eq_true (require_bind_ok_iff.mp hstart).1
  have hold : ∀ j, key.Qis.find (S.job.names j) = some ((key.Qis.find (S.job.names j)).getD 0) := by
    intro j
    obtain ⟨P, hP⟩ := Option.isSome_iff_exists.mp
      ((hkey.find_isSome (S.job.names j)).mpr (hnames.mem_iff.mp (name_mem_ofFn S.job j)))
    rw [hP, Option.getD_some]
  have hrange : isInRange q x = true := isInRange_updateShare hkey.range hx
  rw [updateQis_eq S.job _ hold] at hQis
  cases hQis
  refine ⟨⟨hkey.curve_eq, hkey.nodup, hkey.nonempty, hkey.count, hkey.self_mem, fun name => ?_,
    hrange, ?_⟩, (of_decide_eq_true hnew).symm⟩
  · simp only
    rw [OrderedMap.find_insertEach_isSome, hkey.find_isSome, ← ofFn_eq_map, hnames.mem_iff, or_self]
  · rw [mulToGenerator_of_isInRange key.curve hrange] at hX
    cases hX
    simp only
    rw [hname, mapAt_ok_iff.mp hQi, of_decide_eq_true heq, hkey.curve_eq]

omit [Inhabited R] in
/-- Every additive key that is held passes the tests of its deserializer. -/
theorem HeldAdditive.consistentShare {names : List PName} {key : KeyShareMp q E}
    (h : HeldAdditive o curve names key) :
    ConsistentShare curve names key ∧ key.Q = key.Qis.values.sum := by
  induction h with
  | dkg S hcurve hn i me in1 in2 h => exact consistentShare_dkg hcurve hn h
  | refresh _ S hnames i me in0 in1 in2 h ih => exact consistentShare_refresh ih.1 hnames h

omit [DecidableEq D] [Inhabited R] [Inhabited P] hq in
/-- What a run along an access structure leaves as it is. -/
theorem acOutput_frame {n : ℕ} {S : AcSession q E n} {i : Fin n} {me : AcParty q E R}
    {pub : Fin n → OrderedMap PName E} {xs : Fin n → ℤ} {key : KeyShareMp q E}
    (h : acOutput o S i me pub xs = .ok key) :
    key.curve = (if S.isRefresh then me.key.curve else S.curve) ∧ key.partyName = S.job.names i ∧
      ∀ name, (key.Qis.find name).isSome = true ↔ name ∈ List.ofFn S.job.names ∨
      (me.key.Qis.find name).isSome = true := by
  rw [acOutput] at h
  obtain ⟨⟨Q, x⟩, -, h⟩ := bind_ok_iff.mp h
  obtain ⟨Qis, -, h⟩ := bind_ok_iff.mp h
  obtain ⟨reconstructedQ, -, h⟩ := bind_ok_iff.mp h
  obtain ⟨-, h⟩ := require_bind_ok_iff.mp h
  obtain ⟨X, -, h⟩ := bind_ok_iff.mp h
  obtain ⟨-, h⟩ := require_bind_ok_iff.mp h
  cases hr : S.isRefresh with
  | false =>
    rw [hr] at h
    cases h
    refine ⟨rfl, rfl, fun name => ?_⟩
    rw [qisMap, OrderedMap.find_insertEach_isSome, ofFn_eq_map]
  | true =>
    rw [hr] at h
    obtain ⟨xShare, -, h⟩ := bind_ok_iff.mp h
    obtain ⟨newQis, hnew, h⟩ := bind_ok_iff.mp h
    obtain ⟨newQ, -, h⟩ := bind_ok_iff.mp h
    obtain ⟨-, h⟩ := require_bind_ok_iff.mp h
    cases h
    rw [addToQis_eq] at hnew
    obtain ⟨u, -, hnew⟩ := bind_ok_iff.mp hnew
    cases hnew
    refine ⟨rfl, rfl, fun name => ?_⟩
    simp only
    rw [qisMap, OrderedMap.find_insertEach_isSome, ofFn_eq_map]

/-- Every key along an access structure that is held passes the tests of its deserializer. -/
theorem HeldAc.consistentShare {names : List PName} {key : KeyShareMp q E}
    (h : HeldAc o curve names key) :
    ConsistentShare curve names key := by
  induction h with
  | dkg S hcurve hdkg hn i me hnew in0 in1 in2 in3 h =>
    obtain ⟨st, -, h⟩ := bind_ok_iff.mp h
    obtain ⟨ms, -, h⟩ := bind_ok_iff.mp h
    obtain ⟨u, -, h⟩ := bind_ok_iff.mp h
    obtain ⟨-, h⟩ := require_bind_ok_iff.mp h
    obtain ⟨hcheck, -, hx, hfind⟩ := acOutput_ok h
    obtain ⟨hkcurve, hname, hkeys⟩ := acOutput_frame h
    rw [hdkg] at hkcurve hx
    refine ⟨hkcurve.trans hcurve, nodup_ofFn_names S.job,
      nil_not_mem_names S.job, by
      rwa [List.length_ofFn], hname ▸ name_mem_ofFn S.job i, fun name => ?_,
        hx ▸ isInRange_residue _, ?_⟩
    · rw [hkeys, hnew]
      simp
    · rw [hname, hfind, hx, hdkg, cast_residue, ← hcurve, ← hcheck]
      simp
  | @refresh names n S hcurve hrefresh hnames i me _ hself in0 in1 in2 in3 key h ih =>
    obtain ⟨st, -, h⟩ := bind_ok_iff.mp h
    obtain ⟨ms, -, h⟩ := bind_ok_iff.mp h
    obtain ⟨u, -, h⟩ := bind_ok_iff.mp h
    obtain ⟨-, h⟩ := require_bind_ok_iff.mp h
    obtain ⟨hcheck, -, hx, hfind⟩ := acOutput_ok h
    obtain ⟨hkcurve, hname, hkeys⟩ := acOutput_frame h
    rw [hrefresh] at hkcurve hx
    have hown : pointAt me.key.Qis (S.job.names i) =
        (me.key.xShare : ZMod q) • curve.generator := by
      rw [← hself, pointAt, ih.self]
      rfl
    refine ⟨hkcurve.trans ih.curve_eq, ih.nodup, ih.nonempty, ih.count, ?_, fun name => ?_,
      hx ▸ isInRange_residue _, ?_⟩
    · rw [hname, ← hself]
      exact ih.self_mem
    · rw [hkeys, ih.find_isSome, hnames.mem_iff, or_self]
    · rw [hname, hfind, hx, hrefresh, cast_residue, ← hcheck, if_pos rfl, if_pos rfl, hown,
        hcurve, add_smul]

end CbMpc
