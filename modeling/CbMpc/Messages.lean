import CbMpc.Sharing

/-!
# Jobs, hashes, commitments and rounds

A job names its parties, and a round of `plain_broadcast` gives each party either
an error or one message from every other party. Hash functions and proof systems
are parameters. A hash is applied to the list of its arguments; an argument is
tagged by its type, and whether distinct lists may collide is left open here.
-/
namespace CbMpc

abbrev Bytes := List (Fin 256)

/-- A job of `n` parties with different nonempty names, as `validate_job_mp` demands. -/
structure Job (n : ℕ) where
  names : Fin n → PName
  names_injective : Function.Injective names
  names_nonempty : ∀ i, names i ≠ []
  two_le : 2 ≤ n

/-- The bytes of a commitment: a hash alone, a hash followed by a local sid of the
right size, or a buffer of any other length. -/
inductive ComBuf (D : Type) where
  | hash : D → ComBuf D
  | hashSid : D → Bytes → ComBuf D
  | other : Bytes → ComBuf D
  deriving DecidableEq, Encodable

/-- An argument of a hash. -/
inductive Item (E D P : Type) where
  | bytes : Bytes → Item E D P
  | bytesList : List Bytes → Item E D P
  | pid : ℕ → Item E D P
  | pids : List ℕ → Item E D P
  | pidMap : List (ℕ × ℕ) → Item E D P
  | point : WirePoint E → Item E D P
  | points : List (WirePoint E) → Item E D P
  | pointMap : List (PName × E) → Item E D P
  | proof : P → Item E D P
  | proofs : List P → Item E D P
  | bufs : List (ComBuf D) → Item E D P
  | bufMap : List (ℕ × ComBuf D) → Item E D P
  deriving Encodable

/-- The hash functions and proof systems. `E` are points, `D` digests, `R` the
randomness of a commitment and `P` proofs. -/
structure Oracles (E D R P : Type) where
  /-- `sha256_t::hash`. -/
  sha256 : List (Item E D P) → D
  /-- `hmac_state_t`, keyed by the randomness of a commitment. -/
  hmac : R → List (Item E D P) → D
  /-- A digest as a buffer. -/
  digestBytes : D → Bytes
  /-- `pid_from_name`. -/
  pid : PName → ℕ
  /-- `uc_dl_t`, with the prover's coins; `verify` returns an error code or nothing. -/
  proveDl : ℕ → E → ℤ → Bytes → ℕ → P
  verifyDl : E → Bytes → ℕ → P → Option ErrorCode
  /-- `uc_batch_dl_t`. -/
  proveBatchDl : ℕ → List E → List ℤ → Bytes → ℕ → P
  verifyBatchDl : List E → Bytes → ℕ → P → Option ErrorCode

/-- Hashes and commitments are injective. -/
structure Oracles.Injective {E D R P : Type} (o : Oracles E D R P) : Prop where
  sha256_inj : ∀ a b, o.sha256 a = o.sha256 b → a = b
  hmac_inj : ∀ r s a b, o.hmac r a = o.hmac s b → r = s ∧ a = b

/-- Proofs made by the honest prover, for points other than infinity, verify. -/
structure Oracles.Complete {q : ℕ} {E D R P : Type} [AddCommGroup E] [Module (ZMod q) E]
    (o : Oracles E D R P) (curve : Curve q E) : Prop where
  dl : ∀ coins (w : ZMod q) sid aux, w ≠ 0 →
    o.verifyDl (w • curve.generator) sid aux
      (o.proveDl coins (w • curve.generator) (residue w) sid aux) = none
  batch : ∀ coins (ws : List (ZMod q)) sid aux, ws ≠ [] → (∀ w ∈ ws, w ≠ 0) →
    o.verifyBatchDl (ws.map (fun w => w • curve.generator)) sid aux
      (o.proveBatchDl coins (ws.map (fun w => w • curve.generator)) (ws.map residue) sid aux) = none

section Commitment

variable {E D R P : Type}

/-- `commitment_t::gen` for the session `sid` and sender `pid`. Without a session the
local sid is hashed in its place and sent along. -/
def comGen (o : Oracles E D R P) (sid : Bytes) (pid : ℕ) (rand : R) (localSid : Bytes)
    (args : List (Item E D P)) : ComBuf D :=
  if sid.isEmpty then .hashSid (o.hmac rand (args ++ [.bytes localSid, .pid pid])) localSid
  else .hash (o.hmac rand (args ++ [.bytes sid, .pid pid]))

/-- `commitment_t::open`. -/
def comOpen [DecidableEq D] (o : Oracles E D R P) (sid : Bytes) (pid : ℕ)
    (rand : R) (msg : ComBuf D) (args : List (Item E D P)) : Outcome Unit :=
  if sid.isEmpty then
    match msg with
    | .hashSid d localSid =>
      require (decide (o.hmac rand (args ++ [.bytes localSid, .pid pid]) = d)) .crypto
    | .hash _ | .other _ => fail .format
  else
    match msg with
    | .hash d => require (decide (o.hmac rand (args ++ [.bytes sid, .pid pid]) = d)) .crypto
    | .hashSid _ _ | .other _ => fail .format

variable [DecidableEq D]

theorem comOpen_comGen (o : Oracles E D R P) (sid : Bytes) (pid : ℕ) (rand : R) (localSid : Bytes)
    (args : List (Item E D P)) :
    comOpen o sid pid rand (comGen o sid pid rand localSid args) args = .ok () := by
  by_cases h : sid.isEmpty <;> simp [comOpen, comGen, h]

theorem returns_comOpen (o : Oracles E D R P) (sid : Bytes) (pid : ℕ) (rand : R) (msg : ComBuf D)
    (args : List (Item E D P)) : Returns (comOpen o sid pid rand msg args) := by
  unfold comOpen
  split <;> split <;> first | exact returns_require _ _ | exact returns_fail _

/-- A commitment opens in one way only. -/
theorem comOpen_binding {o : Oracles E D R P} (ho : o.Injective) {sid sid' : Bytes} {pid pid' : ℕ}
    {rand rand' : R} {msg : ComBuf D} {args args' : List (Item E D P)}
    (h : comOpen o sid pid rand msg args = .ok ())
    (h' : comOpen o sid' pid' rand' msg args' = .ok ()) :
    rand = rand' ∧ args = args' := by
  have hfin : ∀ {a b : List (Item E D P)} {x y u v : Item E D P},
      a ++ [x, y] = b ++ [u, v] → a = b :=
    fun he => (List.append_inj' he rfl).1
  cases msg with
  | other b =>
    unfold comOpen at h
    split at h <;> simp [fail] at h
  | hash d =>
    have hs : sid.isEmpty = false := by
      cases hc : sid.isEmpty with
      | false => rfl
      | true => simp [comOpen, hc, fail] at h
    have hs' : sid'.isEmpty = false := by
      cases hc : sid'.isEmpty with
      | false => rfl
      | true => simp [comOpen, hc, fail] at h'
    simp only [comOpen, hs, hs', Bool.false_eq_true, if_false, require_ok_iff,
      decide_eq_true_eq] at h h'
    obtain ⟨hr, ha⟩ := ho.hmac_inj _ _ _ _ (h.trans h'.symm)
    exact ⟨hr, hfin ha⟩
  | hashSid d s =>
    have hs : sid.isEmpty = true := by
      cases hc : sid.isEmpty with
      | true => rfl
      | false => simp [comOpen, hc, fail] at h
    have hs' : sid'.isEmpty = true := by
      cases hc : sid'.isEmpty with
      | true => rfl
      | false => simp [comOpen, hc, fail] at h'
    simp only [comOpen, hs, hs', if_true, require_ok_iff, decide_eq_true_eq] at h h'
    obtain ⟨hr, ha⟩ := ho.hmac_inj _ _ _ _ (h.trans h'.symm)
    exact ⟨hr, hfin ha⟩

end Commitment

section Rounds

variable {n : ℕ} {α : Type}

/-- What a broadcast gives to a party: an error, or a message from every party. -/
abbrev Inbox (n : ℕ) (α : Type) := Except ErrorCode (Fin n → α)

/-- `received(j)` for all `j`: the party's own message stands in its own slot. -/
def received (i : Fin n) (own : α) (inbox : Inbox n α) : Outcome (Fin n → α) :=
  match inbox with
  | .error rv => fail rv
  | .ok msgs => .ok (Function.update msgs i own)

theorem received_ok {i : Fin n} {own : α} {inbox : Inbox n α} {ms : Fin n → α}
    (h : received i own inbox = .ok ms) :
    ms i = own ∧ ∃ msgs, inbox = .ok msgs ∧ ∀ j, j ≠ i → ms j = msgs j := by
  cases inbox with
  | error rv => simp [received, fail] at h
  | ok msgs =>
    cases h
    exact ⟨Function.update_self i own msgs, msgs, rfl, fun j hj =>
      Function.update_of_ne hj own msgs⟩

/-- Between honest parties a round delivers what was sent, or fails at the receiver. -/
def Delivered (honest : Finset (Fin n)) (sent : Fin n → Fin n → Outcome α)
    (inbox : Fin n → Inbox n α) : Prop :=
  ∀ i ∈ honest, ∀ msgs, inbox i = .ok msgs → ∀ k ∈ honest, k ≠ i → sent k i = .ok (msgs k)

/-- Whether the message that a sender has ready arrives. -/
def arrives (deserializes : α → Bool) : Outcome α → Bool
  | .ok m => deserializes m
  | .error _ => false

/-- A round in which all parties are honest: it fails at a receiver when some sender
has stopped or a message does not deserialize, and delivers everything otherwise. -/
def honestInbox (sent : Fin n → Fin n → Outcome α) (deserializes : α → Bool) (rv : ErrorCode)
    (i : Fin n) (own : α) : Inbox n α :=
  if (List.finRange n).all (fun k => k = i || arrives deserializes (sent k i)) then
    .ok (fun k => match sent k i with
      | .ok m => m
      | .error _ => own)
  else .error rv

theorem honestInbox_ok {sent : Fin n → Fin n → Outcome α} {deserializes : α → Bool} {rv : ErrorCode}
    {i : Fin n} {own : α} {msgs : Fin n → α}
    (h : honestInbox sent deserializes rv i own = .ok msgs) :
    ∀ k, k ≠ i → sent k i = .ok (msgs k) ∧ deserializes (msgs k) = true := by
  intro k hk
  unfold honestInbox at h
  split at h
  · rename_i hall
    have hk' := List.all_eq_true.mp hall k (List.mem_finRange k)
    cases h
    cases hs : sent k i with
    | error e => simp [hk, hs, arrives] at hk'
    | ok m => simpa [hk, hs, arrives] using hk'
  · simp at h

theorem received_honestInbox (msgs : Fin n → α) {sent : Fin n → Fin n → Outcome α}
    {deserializes : α → Bool} {rv : ErrorCode} {i : Fin n} {own : α}
    (h : ∀ k, k ≠ i → sent k i = .ok (msgs k) ∧ deserializes (msgs k) = true) :
    received i (msgs i) (honestInbox sent deserializes rv i own) = .ok msgs := by
  have hall : (List.finRange n).all (fun k => k = i || arrives deserializes (sent k i)) = true := by
    refine List.all_eq_true.mpr fun k _ => ?_
    by_cases hk : k = i
    · simp [hk]
    · simp [hk, arrives, (h k hk).1, (h k hk).2]
  simp only [honestInbox, hall, if_true, received]
  congr 1
  funext k
  by_cases hk : k = i
  · simp [hk]
  · simp [hk, (h k hk).1]

theorem delivered_honestInbox {sent : Fin n → Fin n → Outcome α}
    {deserializes : α → Bool} {rv : ErrorCode} {own : Fin n → α} (honest : Finset (Fin n)) :
    Delivered honest sent (fun i => honestInbox sent deserializes rv i (own i)) :=
  fun _ _ _ h k _ hk => (honestInbox_ok h k hk).1

end Rounds

end CbMpc
