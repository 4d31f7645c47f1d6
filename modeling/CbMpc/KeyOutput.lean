import CbMpc.Dkg

/-!
# What key generation leaves in its output

`key_share_mp_t::dkg` and `dkg_ac` write into an object that may hold another key. They set the
entries of `Qis` by name, and `dkg` adds up all entries of the map.
-/
namespace CbMpc

/-- What the parameter `key` holds. Points may be left over from a key on another curve. -/
structure KeyObject (q : ℕ) (E : Type) [AddCommGroup E] where
  xShare : ℤ
  Q : WirePoint E
  Qis : OrderedMap PName (WirePoint E)
  curve : Option (Curve q E)
  partyName : PName

variable {q n : ℕ} {E D R P : Type} [AddCommGroup E]

def KeyObject.ofKey (key : KeyShareMp q E) : KeyObject q E :=
  ⟨key.xShare, .on key.Q, key.Qis.mapValues .on, some key.curve, key.partyName⟩

def WirePoint.isOn : WirePoint E → Bool
  | .on _ => true
  | .foreign _ => false

/-- `SUM` over a map that has a point of the curve: a point of another curve fails an assertion when
the two meet. -/
def sumQis (Qis : OrderedMap PName (WirePoint E)) : Outcome (WirePoint E) := do
  cbAssert (Qis.values.all WirePoint.isOn)
  .ok (.on (Qis.mapValues WirePoint.point).values.sum)

/-- `key.Qis[name] = Qis[name]` for all parties. -/
def setQis (job : Job n) (Qis : OrderedMap PName (WirePoint E)) (points : Fin n → WirePoint E) :
    OrderedMap PName (WirePoint E) :=
  Qis.insertEach job.names points (List.finRange n)

section Functions

variable [Module (ZMod q) E] [DecidableEq E] [DecidableEq D]

/-- The two rounds of `key_share_mp_t::dkg`, which do not look at `key`. -/
def dkgExchange (o : Oracles E D R P) (S : DkgSession q E n) (i : Fin n) (me : DkgParty q R)
    (in1 : Inbox n (DkgMsg1 D)) (in2 : Inbox n (DkgMsg2 E D R P)) :
    Outcome ((Fin n → DkgMsg1 D) × (Fin n → DkgMsg2 E D R P)) := do
  let first ← dkgExchanged o S i me in1
  let second ← received i (dkgSecond o S i me first) in2
  forEach (dkgCheck o S i first second) (List.finRange n)
  .ok (first, second)

/-- `key_share_mp_t::dkg` on an output that holds `key`. -/
def dkgInto (o : Oracles E D R P) (S : DkgSession q E n) (i : Fin n) (me : DkgParty q R)
    (in1 : Inbox n (DkgMsg1 D)) (in2 : Inbox n (DkgMsg2 E D R P)) (key : KeyObject q E) :
    Outcome (KeyObject q E × Bytes) := do
  let msgs ← dkgExchange o S i me in1 in2
  let Qis := setQis S.job key.Qis fun j => (msgs.2 j).Qi
  let Q ← sumQis Qis
  .ok (⟨residue me.x, Q, Qis, some S.curve, S.job.names i⟩, dkgSid o msgs.1)

variable [Inhabited R] [Inhabited P]

/-- The part of `dkg_or_refresh_ac` in front of its output, with `Q`, `x_i` and `Qis`. -/
def acSums (o : Oracles E D R P) (S : AcSession q E n) (i : Fin n) (me : AcParty q E R)
    (in0 : Inbox n Bytes) (in1 : Inbox n D) (in2 : Inbox n (ComBuf D))
    (in3 : Inbox n (AcMsg E D R P)) : Outcome ((E × ℤ) × (Fin n → E)) := do
  let st ← acCommitted o S i me in0 in1 in2
  let ms ← received i (acMessage o S i me st i) in3
  forEach (checkDealer o S i st ms) S.quorumList
  require (decide (i ∈ S.quorum ∨ representativeHash S ms = some (hAll o S st.sid st.cs))) .crypto
  let pub := dealerMap S i st.dealing.acPub ms
  let sums ← addDealings S pub (fun j => (ms j).xij)
  let Qis ← addPublic S pub
  let reconstructedQ ← reconstructExponent q o.pid S.ac (qisMap S .empty Qis)
  require (decide (reconstructedQ = sums.1)) .crypto
  let X ← S.curve.mulToGenerator sums.2
  require (decide (X = Qis i)) .crypto
  .ok (sums, Qis)

/-- `key_share_mp_t::dkg_ac` on an output that holds `key`. -/
def dkgAcInto (o : Oracles E D R P) (S : AcSession q E n) (i : Fin n) (me : AcParty q E R)
    (in0 : Inbox n Bytes) (in1 : Inbox n D) (in2 : Inbox n (ComBuf D))
    (in3 : Inbox n (AcMsg E D R P)) (key : KeyObject q E) : Outcome (KeyObject q E × Unit) := do
  let sums ← acSums o { S with isRefresh := false } i me in0 in1 in2 in3
  .ok (⟨sums.1.2, .on sums.1.1, setQis S.job key.Qis fun j => .on (sums.2 j), some S.curve,
    S.job.names i⟩, ())

end Functions

/-! ## The property and its condition -/

/-- Two previous contents of the output make no difference, and the key is that of the current
parties: `derive` says how it comes from their points. -/
structure Overwrites (job : Job n) (derive : (Fin n → E) → Outcome E) {T : Type}
    (run : KeyObject q E → Outcome (KeyObject q E × T)) (key key' : KeyObject q E) : Prop where
  failure : ∀ e, run key = .error e ↔ run key' = .error e
  same : ∀ out out', run key = .ok out → run key' = .ok out' → out = out'
  names : ∀ out, run key = .ok out ∨ run key' = .ok out → ∀ name,
    (out.1.Qis.find name).isSome = true ↔ name ∈ Set.range job.names
  derived : ∀ out, run key = .ok out ∨ run key' = .ok out → ∃ (Qi : Fin n → E) (Q : E),
    (∀ l, out.1.Qis.find (job.names l) = some (.on (Qi l))) ∧ derive Qi = .ok Q ∧ out.1.Q = .on Q

section Overwrites

variable {job : Job n} {derive : (Fin n → E) → Outcome E} {T : Type}
  {run : KeyObject q E → Outcome (KeyObject q E × T)} {key key' : KeyObject q E}

theorem Overwrites.of_error {e : Failure} (h : run key = .error e) (h' : run key' = .error e) :
    Overwrites job derive run key key' where
  failure e' := by rw [h, h']
  same out out' hout := by
    rw [h] at hout
    cases hout
  names out hout := by
    rw [h, h', or_self] at hout
    cases hout
  derived out hout := by
    rw [h, h', or_self] at hout
    cases hout

theorem Overwrites.of_ok {out : KeyObject q E × T} (h : run key = .ok out) (h' : run key' = .ok out)
    (hnames : ∀ name, (out.1.Qis.find name).isSome = true ↔ name ∈ Set.range job.names)
    {Qi : Fin n → E} {Q : E} (hQi : ∀ l, out.1.Qis.find (job.names l) = some (.on (Qi l)))
    (hderive : derive Qi = .ok Q) (hQ : out.1.Q = .on Q) :
    Overwrites job derive run key key' where
  failure e := by rw [h, h']
  same out1 out2 h1 h2 := by
    rw [h] at h1
    rw [h'] at h2
    exact Except.ok.inj (h1.symm.trans h2)
  names out1 h1 := by
    rw [h, h', or_self] at h1
    cases h1
    exact hnames
  derived out1 h1 := by
    rw [h, h', or_self] at h1
    cases h1
    exact ⟨Qi, Q, hQi, hderive, hQ⟩

/-- Runs that end differently tell the contents apart. -/
theorem Overwrites.not_error_ok {e : Failure} {out : KeyObject q E × T}
    (h : Overwrites job derive run key key') :
    ¬(run key = .error e ∧ run key' = .ok out) ∧ ¬(run key = .ok out ∧ run key' = .error e) := by
  constructor
  · rintro ⟨herr, hok⟩
    rw [(h.failure e).mp herr] at hok
    cases hok
  · rintro ⟨hok, herr⟩
    rw [(h.failure e).mpr herr] at hok
    cases hok

end Overwrites

namespace KeyObject

/-- No name is left over from other parties. -/
def OnlyParties (job : Job n) (key : KeyObject q E) : Prop :=
  ∀ name, (key.Qis.find name).isSome = true → name ∈ Set.range job.names

/-- Under a name that is left over there is a point of another curve. -/
def HoldsForeign (job : Job n) (key : KeyObject q E) : Prop :=
  ∃ name id, name ∉ Set.range job.names ∧ key.Qis.find name = some (.foreign id)

end KeyObject

section Maps

variable {job : Job n} {points : Fin n → WirePoint E} {Qi : Fin n → E}

omit [AddCommGroup E] in
theorem find_setQis (Qis : OrderedMap PName (WirePoint E)) (l : Fin n) :
    (setQis job Qis points).find (job.names l) = some (points l) :=
  OrderedMap.find_insertEach _ job.names_injective points (List.mem_finRange l)

omit [AddCommGroup E] in
theorem find_setQis_of_notMem (Qis : OrderedMap PName (WirePoint E)) {name : PName}
    (h : name ∉ Set.range job.names) :
    (setQis job Qis points).find name = Qis.find name := by
  apply OrderedMap.find_insertEach_of_notMem
  rintro hmem
  obtain ⟨l, -, hl⟩ := List.mem_map.mp hmem
  exact h ⟨l, hl⟩

/-- Of a map without other names nothing is left. -/
theorem setQis_eq {key key' : KeyObject q E} (hkey : key.OnlyParties job)
    (hkey' : key'.OnlyParties job) :
    setQis job key.Qis points = setQis job key'.Qis points := by
  apply OrderedMap.ext_find
  intro name
  by_cases hname : name ∈ Set.range job.names
  · obtain ⟨l, rfl⟩ := hname
    rw [find_setQis, find_setQis]
  · have hnone : key.Qis.find name = none :=
      Option.not_isSome_iff_eq_none.mp fun h => hname (hkey name h)
    have hnone' : key'.Qis.find name = none :=
      Option.not_isSome_iff_eq_none.mp fun h => hname (hkey' name h)
    rw [find_setQis_of_notMem _ hname, find_setQis_of_notMem _ hname, hnone, hnone']

theorem onlyParties_iff_setQis {key : KeyObject q E} :
    key.OnlyParties job ↔ ∀ name, ((setQis job key.Qis points).find name).isSome = true ↔
    name ∈ Set.range job.names := by
  constructor
  · intro h name
    by_cases hname : name ∈ Set.range job.names
    · obtain ⟨l, rfl⟩ := hname
      simp only [find_setQis, Option.isSome_some, Set.mem_range_self]
    · rw [find_setQis_of_notMem _ hname]
      exact iff_of_false (fun hsome => hname (h name hsome)) hname
  · intro h name hsome
    by_contra hname
    have hfind : (setQis job key.Qis points).find name = key.Qis.find name :=
      find_setQis_of_notMem key.Qis hname
    rw [← hfind] at hsome
    exact hname ((h name).mp hsome)

theorem sumQis_of_onlyParties {key : KeyObject q E} (h : key.OnlyParties job) :
    sumQis (setQis job key.Qis fun l => .on (Qi l)) = .ok (.on (∑ l, Qi l)) := by
  have hfind : ∀ name v, (setQis job key.Qis fun l => .on (Qi l)).find name = some v → ∃ l,
      job.names l = name ∧ v = .on (Qi l) := by
    intro name v hv
    obtain ⟨l, rfl⟩ := (onlyParties_iff_setQis.mp h name).mp (Option.isSome_of_eq_some hv)
    exact ⟨l, rfl, by rw [find_setQis] at hv; exact (Option.some.inj hv).symm⟩
  have hall : (setQis job key.Qis fun l => WirePoint.on (Qi l)).values.all
      WirePoint.isOn = true := by
    rw [List.all_eq_true]
    intro v hv
    obtain ⟨name, hname⟩ := (OrderedMap.mem_values_iff _ v).mp hv
    obtain ⟨l, -, rfl⟩ := hfind name v hname
    rfl
  have hsum :
      ((setQis job key.Qis fun l => WirePoint.on (Qi l)).mapValues WirePoint.point).values.sum =
        ∑ l, Qi l := by
    rw [Fin.sum_univ_def]
    apply OrderedMap.sum_values_of_find job.names Qi (List.finRange n)
      ((List.nodup_finRange n).map job.names_injective)
    · intro l _
      rw [OrderedMap.find_mapValues, find_setQis]
      rfl
    · intro name hname
      rw [OrderedMap.find_mapValues, Option.isSome_map] at hname
      obtain ⟨l, hl⟩ := (onlyParties_iff_setQis.mp h name).mp hname
      exact List.mem_map.mpr ⟨l, List.mem_finRange l, hl⟩
  rw [sumQis, hall, cbAssert_true, ok_bind, hsum]

theorem sumQis_of_holdsForeign {key : KeyObject q E} (h : key.HoldsForeign job) :
    sumQis (setQis job key.Qis points) = throwing .assertionFailed := by
  obtain ⟨name, id, hname, hfind⟩ := h
  have hmem : WirePoint.foreign id ∈ (setQis job key.Qis points).values :=
    (OrderedMap.mem_values_iff _ _).mpr ⟨name, by rw [find_setQis_of_notMem _ hname, hfind]⟩
  have hall : (setQis job key.Qis points).values.all WirePoint.isOn = false := by
    rw [List.all_eq_false]
    exact ⟨_, hmem, Bool.false_ne_true⟩
  rw [sumQis, hall]
  rfl

theorem sumQis_of_not_holdsForeign {key : KeyObject q E} (h : ¬key.HoldsForeign job) :
    ∃ Q, sumQis (setQis job key.Qis fun l => .on (Qi l)) = .ok Q := by
  have hall : (setQis job key.Qis fun l => WirePoint.on (Qi l)).values.all
      WirePoint.isOn = true := by
    rw [List.all_eq_true]
    intro v hv
    obtain ⟨name, hfind⟩ := (OrderedMap.mem_values_iff _ v).mp hv
    by_cases hname : name ∈ Set.range job.names
    · obtain ⟨l, rfl⟩ := hname
      rw [find_setQis] at hfind
      obtain rfl := Option.some.inj hfind
      rfl
    · rw [find_setQis_of_notMem _ hname] at hfind
      cases v with
      | on P => rfl
      | foreign id => exact absurd ⟨name, id, hname, hfind⟩ h
  rw [sumQis, hall]
  exact ⟨_, rfl⟩

end Maps

/-! ## Key generation -/

section Dkg

variable [Module (ZMod q) E] [DecidableEq E] [DecidableEq D]
variable {o : Oracles E D R P} {S : DkgSession q E n} {i : Fin n} {me : DkgParty q R}
  {in1 : Inbox n (DkgMsg1 D)} {in2 : Inbox n (DkgMsg2 E D R P)}

/-- The points of a run that passes the checks are points of the curve. -/
theorem dkgExchange_points {first : Fin n → DkgMsg1 D} {second : Fin n → DkgMsg2 E D R P}
    (h : dkgExchange o S i me in1 in2 = .ok (first, second)) :
    ∃ Qi : Fin n → E, (fun j => (second j).Qi) = fun j => .on (Qi j) := by
  obtain ⟨first', hfirst, h⟩ := bind_ok_iff.mp h
  obtain ⟨second', hsecond, h⟩ := bind_ok_iff.mp h
  obtain ⟨u, hall, h⟩ := bind_ok_iff.mp h
  cases h
  refine ⟨fun j => (second j).Qi.point, funext fun j => ?_⟩
  change (second j).Qi = .on (second j).Qi.point
  by_cases hj : j = i
  · rw [hj, (received_ok hsecond).1]
    rfl
  · have hcheck := forEach_ok_iff.mp hall j (List.mem_finRange j)
    rw [dkgCheck, if_neg hj] at hcheck
    obtain ⟨-, hcheck⟩ := require_bind_ok_iff.mp hcheck
    obtain ⟨-, hcheck⟩ := require_bind_ok_iff.mp hcheck
    obtain ⟨-, -, hcheck⟩ := bind_ok_iff.mp hcheck
    obtain ⟨Qj, hpoint, -⟩ := bind_ok_iff.mp hcheck
    cases hQi : (second j).Qi with
    | on P => rfl
    | foreign id =>
      rw [hQi] at hpoint
      cases hpoint

/-- After the rounds only the sum can fail. -/
theorem dkgInto_of_exchange {msgs : (Fin n → DkgMsg1 D) × (Fin n → DkgMsg2 E D R P)}
    {Qi : Fin n → E} (hx : dkgExchange o S i me in1 in2 = .ok msgs)
    (hpoints : (fun j => (msgs.2 j).Qi) = fun j => .on (Qi j)) (key : KeyObject q E) :
    dkgInto o S i me in1 in2 key = (sumQis (setQis S.job key.Qis fun j => .on (Qi j)) >>= fun Q =>
      .ok (⟨residue me.x, Q, setQis S.job key.Qis fun j => .on (Qi j), some S.curve, S.job.names i⟩,
          dkgSid o msgs.1)) := by
  rw [dkgInto, hx, ok_bind, hpoints]

/-- On an output without points this is `dkg`. -/
theorem dkgInto_eq {key : KeyObject q E} (hkey : key.Qis = .empty) :
    dkgInto o S i me in1 in2 key = (dkg o S i me in1 in2).map fun out =>
      (KeyObject.ofKey out.1, out.2) := by
  have hdkg : dkg o S i me in1 in2 = (dkgExchange o S i me in1 in2 >>= fun msgs =>
      .ok (⟨residue me.x, (dkgQis S msgs.2).values.sum, dkgQis S msgs.2, S.curve, S.job.names i⟩,
          dkgSid o msgs.1)) := by
    simp only [dkg, dkgExchange, bind_assoc, ok_bind]
  rw [hdkg]
  cases hx : dkgExchange o S i me in1 in2 with
  | error e => rw [dkgInto, hx, error_bind, error_bind, Except.map]
  | ok msgs =>
    obtain ⟨Qi, hpoints⟩ := dkgExchange_points hx
    have hpoint : ∀ j, (msgs.2 j).Qi = .on (Qi j) := fun j => congrFun hpoints j
    have honly : key.OnlyParties S.job := fun name h => by
      rw [hkey, OrderedMap.find_empty] at h
      cases h
    have hqis : setQis S.job key.Qis (fun l => .on (Qi l)) = (dkgQis S msgs.2).mapValues .on := by
      apply OrderedMap.ext_find
      intro name
      by_cases hname : name ∈ Set.range S.job.names
      · obtain ⟨l, rfl⟩ := hname
        rw [find_setQis, OrderedMap.find_mapValues, find_dkgQis, hpoint]
        rfl
      · have hkeys : name ∉ (List.finRange n).map S.job.names := fun h => hname (by simpa using h)
        rw [find_setQis_of_notMem _ hname, hkey, OrderedMap.find_mapValues, dkgQis,
          OrderedMap.find_insertEach_of_notMem _ _ _ hkeys]
        rfl
    have hsum : ∑ l, Qi l = (dkgQis S msgs.2).values.sum := by
      rw [sum_dkgQis]
      apply Finset.sum_congr rfl
      intro l _
      rw [hpoint]
      rfl
    rw [dkgInto_of_exchange hx hpoints, sumQis_of_onlyParties honly, ok_bind, hqis, hsum]
    rfl

/-- The contents make no difference exactly where nothing is left over, or the sum fails for
both. -/
theorem dkgInto_overwrites_iff (key key' : KeyObject q E) :
    Overwrites S.job (fun Qi => .ok (∑ l, Qi l)) (dkgInto o S i me in1 in2) key key' ↔
      ((∃ msgs, dkgExchange o S i me in1 in2 = .ok msgs) →
        (key.OnlyParties S.job ∧ key'.OnlyParties S.job) ∨
          (key.HoldsForeign S.job ∧ key'.HoldsForeign S.job)) := by
  cases hx : dkgExchange o S i me in1 in2 with
  | error e =>
    have herr : ∀ k, dkgInto o S i me in1 in2 k = .error e :=
      fun k => by rw [dkgInto, hx, error_bind]
    exact iff_of_true (.of_error (herr key) (herr key')) fun ⟨msgs, h⟩ => nomatch h
  | ok msgs =>
    obtain ⟨Qi, hpoints⟩ := dkgExchange_points hx
    have hrun := dkgInto_of_exchange hx hpoints
    have hforeign : ∀ k : KeyObject q E, k.HoldsForeign S.job →
        dkgInto o S i me in1 in2 k = throwing .assertionFailed := fun k hk => by
      rw [hrun, sumQis_of_holdsForeign hk]
      rfl
    have hok : ∀ k : KeyObject q E, ¬k.HoldsForeign S.job → ∃ out,
        dkgInto o S i me in1 in2 k = .ok out ∧
        out.1.Qis = setQis S.job k.Qis fun j => .on (Qi j) := fun k hk => by
      obtain ⟨Q, hQ⟩ : ∃ Q, sumQis (setQis S.job k.Qis fun j => .on (Qi j)) = .ok Q :=
        sumQis_of_not_holdsForeign hk
      rw [hrun, hQ]
      exact ⟨_, rfl, rfl⟩
    constructor
    · intro h _
      by_cases hf : key.HoldsForeign S.job <;> by_cases hf' : key'.HoldsForeign S.job
      · exact .inr ⟨hf, hf'⟩
      · obtain ⟨out, hout, -⟩ := hok key' hf'
        exact absurd ⟨hforeign key hf, hout⟩ h.not_error_ok.1
      · obtain ⟨out, hout, -⟩ := hok key hf
        exact absurd ⟨hout, hforeign key' hf'⟩ h.not_error_ok.2
      · obtain ⟨out, hout, hqis⟩ := hok key hf
        obtain ⟨out', hout', hqis'⟩ := hok key' hf'
        have hnames := h.names out (.inl hout)
        have hnames' := h.names out' (.inr hout')
        rw [hqis] at hnames
        rw [hqis'] at hnames'
        exact .inl ⟨onlyParties_iff_setQis.mpr hnames, onlyParties_iff_setQis.mpr hnames'⟩
    · intro h
      rcases h ⟨msgs, rfl⟩ with ⟨honly, honly'⟩ | ⟨hf, hf'⟩
      · have hout := hrun key
        have hout' := hrun key'
        rw [← setQis_eq honly honly'] at hout'
        rw [sumQis_of_onlyParties honly, ok_bind] at hout hout'
        exact .of_ok hout hout' (onlyParties_iff_setQis.mp honly) (find_setQis key.Qis) rfl rfl
      · exact .of_error (hforeign key hf) (hforeign key' hf')

end Dkg

section DkgAc

variable [Module (ZMod q) E] [DecidableEq E] [DecidableEq D] [Inhabited R] [Inhabited P]
variable {o : Oracles E D R P} {S : AcSession q E n} {i : Fin n} {me : AcParty q E R}
  {in0 : Inbox n Bytes} {in1 : Inbox n D} {in2 : Inbox n (ComBuf D)} {in3 : Inbox n (AcMsg E D R P)}

/-- `Q` is reconstructed from the points. -/
theorem acSums_reconstruct {sums : (E × ℤ) × (Fin n → E)}
    (h : acSums o S i me in0 in1 in2 in3 = .ok sums) :
    reconstructExponent q o.pid S.ac (qisMap S .empty sums.2) = .ok sums.1.1 := by
  obtain ⟨st, -, h⟩ := bind_ok_iff.mp h
  obtain ⟨ms, -, h⟩ := bind_ok_iff.mp h
  obtain ⟨-, -, h⟩ := bind_ok_iff.mp h
  obtain ⟨-, h⟩ := require_bind_ok_iff.mp h
  obtain ⟨acc, -, h⟩ := bind_ok_iff.mp h
  obtain ⟨Qis, -, h⟩ := bind_ok_iff.mp h
  obtain ⟨Q, hQ, h⟩ := bind_ok_iff.mp h
  obtain ⟨heq, h⟩ := require_bind_ok_iff.mp h
  obtain ⟨X, -, h⟩ := bind_ok_iff.mp h
  obtain ⟨-, h⟩ := require_bind_ok_iff.mp h
  cases h
  rw [hQ, of_decide_eq_true heq]

/-- On the party's own key this is `dkg_or_refresh_ac`. -/
theorem dkgAcInto_eq : (dkgAcInto o S i me in0 in1 in2 in3 (KeyObject.ofKey me.key)).map Prod.fst =
    (dkgOrRefreshAc o { S with isRefresh := false } i me in0 in1 in2 in3).map KeyObject.ofKey := by
  have hdkg : dkgOrRefreshAc o { S with isRefresh := false } i me in0 in1 in2 in3 =
      (acSums o { S with isRefresh := false } i me in0 in1 in2 in3 >>= fun sums =>
        .ok ⟨sums.1.2, sums.1.1, qisMap S me.key.Qis sums.2, S.curve, S.job.names i⟩) := by
    simp only [dkgOrRefreshAc, acOutput, acSums, bind_assoc, ok_bind]
    rfl
  rw [hdkg, dkgAcInto]
  cases acSums o { S with isRefresh := false } i me in0 in1 in2 in3 with
  | error e => rfl
  | ok sums =>
    have hqis : setQis S.job (KeyObject.ofKey me.key).Qis (fun j => .on (sums.2 j)) =
        (qisMap S me.key.Qis sums.2).mapValues .on := by
      apply OrderedMap.ext_find
      intro name
      by_cases hname : name ∈ Set.range S.job.names
      · obtain ⟨l, rfl⟩ := hname
        rw [find_setQis, OrderedMap.find_mapValues, qisMap,
          OrderedMap.find_insertEach _ S.job.names_injective _ (List.mem_finRange l)]
        rfl
      · have hkeys : name ∉ (List.finRange n).map S.job.names := fun h => hname (by simpa using h)
        rw [find_setQis_of_notMem _ hname, OrderedMap.find_mapValues, qisMap,
          OrderedMap.find_insertEach_of_notMem _ _ _ hkeys]
        exact OrderedMap.find_mapValues ..
    simp only [ok_bind, Except.map, hqis]
    rfl

theorem dkgAcInto_overwrites_iff (key key' : KeyObject q E) :
    Overwrites S.job (fun Qi => reconstructExponent q o.pid S.ac (qisMap S .empty Qi))
      (dkgAcInto o S i me in0 in1 in2 in3) key key' ↔
      ((∃ sums, acSums o { S with isRefresh := false } i me in0 in1 in2 in3 = .ok sums) →
        key.OnlyParties S.job ∧ key'.OnlyParties S.job) := by
  cases hx : acSums o { S with isRefresh := false } i me in0 in1 in2 in3 with
  | error e =>
    have herr : ∀ k, dkgAcInto o S i me in0 in1 in2 in3 k = .error e :=
      fun k => by rw [dkgAcInto, hx, error_bind]
    exact iff_of_true (.of_error (herr key) (herr key')) fun ⟨sums, h⟩ => nomatch h
  | ok sums =>
    have hrun : ∀ k : KeyObject q E, dkgAcInto o S i me in0 in1 in2 in3 k =
        .ok (⟨sums.1.2, .on sums.1.1, setQis S.job k.Qis fun j => .on (sums.2 j), some S.curve,
        S.job.names i⟩, ()) := fun k => by
      rw [dkgAcInto, hx, ok_bind]
    constructor
    · intro h _
      exact ⟨onlyParties_iff_setQis.mpr (h.names _ (.inl (hrun key))),
        onlyParties_iff_setQis.mpr (h.names _ (.inr (hrun key')))⟩
    · intro h
      obtain ⟨honly, honly'⟩ := h ⟨sums, rfl⟩
      have hout' := hrun key'
      rw [← setQis_eq honly honly'] at hout'
      have hnames : ∀ name, ((setQis S.job key.Qis fun j => .on (sums.2 j)).find name).isSome =
          true ↔ name ∈ Set.range S.job.names :=
        onlyParties_iff_setQis.mp honly
      have hQ := acSums_reconstruct hx
      have hmap : qisMap { S with isRefresh := false } .empty sums.2 = qisMap S .empty sums.2 := rfl
      rw [hmap] at hQ
      exact Overwrites.of_ok (hrun key) hout' hnames (find_setQis key.Qis) hQ rfl

end DkgAc

/-- Previous contents of the output make no difference to key generation exactly where no names of
other parties are left in it, among the runs that pass their checks. With an output that holds no
points this is `dkg`, and with the key that the party has it is `dkg_or_refresh_ac`. -/
theorem keyGeneration_overwrites_iff [Module (ZMod q) E] [DecidableEq E] [DecidableEq D]
    [Inhabited R] [Inhabited P] (o : Oracles E D R P) (key key' : KeyObject q E) :
    (∀ (S : DkgSession q E n) i me in1 in2,
      Overwrites S.job (fun Qi => .ok (∑ l, Qi l)) (dkgInto o S i me in1 in2) key key' ↔
        ((∃ msgs, dkgExchange o S i me in1 in2 = .ok msgs) →
          (key.OnlyParties S.job ∧ key'.OnlyParties S.job) ∨
            (key.HoldsForeign S.job ∧ key'.HoldsForeign S.job))) ∧
    (∀ (S : AcSession q E n) i me in0 in1 in2 in3,
      Overwrites S.job (fun Qi => reconstructExponent q o.pid S.ac (qisMap S .empty Qi))
        (dkgAcInto o S i me in0 in1 in2 in3) key key' ↔
        ((∃ sums, acSums o { S with isRefresh := false } i me in0 in1 in2 in3 = .ok sums) →
          key.OnlyParties S.job ∧ key'.OnlyParties S.job)) ∧
    (∀ (S : DkgSession q E n) i me in1 in2, key.Qis = .empty →
      dkgInto o S i me in1 in2 key = (dkg o S i me in1 in2).map fun out =>
        (KeyObject.ofKey out.1, out.2)) ∧
    ∀ (S : AcSession q E n) i me in0 in1 in2 in3,
      (dkgAcInto o S i me in0 in1 in2 in3 (KeyObject.ofKey me.key)).map Prod.fst =
        (dkgOrRefreshAc o { S with isRefresh := false } i me in0 in1 in2 in3).map KeyObject.ofKey :=
  ⟨fun _ _ _ _ _ => dkgInto_overwrites_iff key key', fun _ _ _ _ _ _ _ =>
    dkgAcInto_overwrites_iff key key',
    fun _ _ _ _ _ hkey => dkgInto_eq hkey, fun _ _ _ _ _ _ _ => dkgAcInto_eq⟩

/-- An output that holds the point `7` of a party that does not take part. -/
def leftoverKey : KeyObject 1009 (ZMod 1009) :=
  ⟨7, .on 7, OrderedMap.empty.insert [200] (.on 7), none, [200]⟩

def freshKey : KeyObject 1009 (ZMod 1009) := ⟨0, .on 0, .empty, none, []⟩

/-- What honest parties leave in the output. -/
def sampleDkgInto (key : KeyObject 1009 (ZMod 1009)) :
    Outcome (KeyObject 1009 (ZMod 1009) × Bytes) :=
  dkgInto sampleOracles sampleDkgSession 0 (sampleDkgParty 0)
    (.ok (honestFirst sampleOracles sampleDkgSession sampleDkgParty))
    (.ok (honestSecond sampleOracles sampleDkgSession sampleDkgParty)) key

/-- The points of honest parties with the share `5`. -/
theorem sampleDkgExchange : ∃ msgs, dkgExchange sampleOracles sampleDkgSession 0 (sampleDkgParty 0)
    (.ok (honestFirst sampleOracles sampleDkgSession sampleDkgParty))
      (.ok (honestSecond sampleOracles sampleDkgSession sampleDkgParty)) =
      .ok msgs ∧ (fun j => (msgs.2 j).Qi) = fun _ => .on 5 := by
  obtain ⟨first, hfirst, h⟩ := bind_ok_iff.mp (sampleDkg_ok 0)
  obtain ⟨second, hsecond, h⟩ := bind_ok_iff.mp h
  obtain ⟨u, hall, h⟩ := bind_ok_iff.mp h
  have hx : dkgExchange sampleOracles sampleDkgSession 0 (sampleDkgParty 0)
      (.ok (honestFirst sampleOracles sampleDkgSession sampleDkgParty))
        (.ok (honestSecond sampleOracles sampleDkgSession sampleDkgParty)) =
        .ok (first, second) := by
    refine bind_ok_iff.mpr ⟨first, hfirst,
      bind_ok_iff.mpr ⟨second, hsecond, bind_ok_iff.mpr ⟨u, hall, rfl⟩⟩⟩
  obtain ⟨Qi, hQi⟩ := dkgExchange_points hx
  have hqis : dkgQis sampleDkgSession second =
      (sharedKey sampleJob sampleCurve (fun _ => 5) 0).Qis :=
    congrArg (fun out => out.1.Qis) (Except.ok.inj h)
  refine ⟨(first, second), hx, funext fun j => ?_⟩
  have hfind := find_dkgQis (S := sampleDkgSession) second j
  have hshared : (sharedKey sampleJob sampleCurve (fun _ => 5) 0).Qis.find (sampleJob.names j) =
      some (5 • (1 : ZMod 1009)) :=
    OrderedMap.find_insertEach _ sampleJob.names_injective _ (List.mem_finRange j)
  have hpoint : (second j).Qi = .on (Qi j) := congrFun hQi j
  rw [hqis] at hfind
  have heq := Option.some.inj (hfind.symm.trans hshared)
  change (second j).Qi = _
  rw [hpoint] at heq ⊢
  change Qi j = _ at heq
  rw [heq]
  rfl

/-- The same run ends with another public key when the output holds the old point. -/
theorem leftoverKey_changes_Q : (sampleDkgInto freshKey).map (fun out => out.1.Q) = .ok (.on 25) ∧
    (sampleDkgInto leftoverKey).map (fun out => out.1.Q) = .ok (.on 32) := by
  obtain ⟨msgs, hx, hpoints⟩ := sampleDkgExchange
  have hfresh : sumQis (setQis sampleJob freshKey.Qis fun _ => .on 5) =
    .ok (.on 25) := by decide +kernel
  have hleft : sumQis (setQis sampleJob leftoverKey.Qis fun _ => .on 5) =
    .ok (.on 32) := by decide +kernel
  constructor
  · rw [sampleDkgInto, dkgInto_of_exchange hx hpoints]
    change Except.map _ (sumQis (setQis sampleJob freshKey.Qis fun _ => .on 5) >>= _) = _
    rw [hfresh]
    rfl
  · rw [sampleDkgInto, dkgInto_of_exchange hx hpoints]
    change Except.map _ (sumQis (setQis sampleJob leftoverKey.Qis fun _ => .on 5) >>= _) = _
    rw [hleft]
    rfl

end CbMpc
