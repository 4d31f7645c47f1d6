import CbMpc.Schnorr
import CbMpc.Refresh

/-!
# Schnorr signing by n parties

`schnorrmp::sign_batch` at one party, as a function of its coins and of what its three rounds
deliver. All parties send their parts of the scalars to the receiver, which adds and checks them.
-/
namespace CbMpc

/-- The arguments that all parties are called with, apart from the keys. -/
structure SchnorrSession (q : ℕ) (E : Type) [AddCommGroup E] (n : ℕ) where
  job : Job n
  C : SchnorrCurve q E
  H : SchnorrHashes
  variant : SchnorrVariant
  msgs : List Bytes
  sigReceiver : Fin n

/-- The coins of a party, with one nonce for each message. -/
structure SchnorrParty (q : ℕ) (R : Type) where
  k : ℕ → ZMod q
  sid : Bytes
  sid_length : sid.length = sidBytes
  comRand : R
  localSid : Bytes
  proofCoins : ℕ

/-- The first message: `c`, `sid_i` and `h_consistency`. -/
structure SchnorrMsg1 (D : Type) where
  c : ComBuf D
  sid : Bytes
  hConsistency : D

/-- The second message: `sid`, `h`, `Ri`, `rho` and `pi`. -/
structure SchnorrMsg2 (E D R P : Type) where
  sid : Bytes
  h : D
  Ri : List (WirePoint E)
  rho : R
  pi : P

variable {q n : ℕ} [hq : Fact q.Prime] {E D R P : Type} [AddCommGroup E] [Module (ZMod q) E]
  [DecidableEq E] [DecidableEq D]

/-- A batch of nonces, one for each of `size` messages. -/
def SchnorrParty.ki (me : SchnorrParty q R) (size : ℕ) : List ℤ :=
  (List.range size).map fun l => residue (me.k l)

def SchnorrParty.Ri (me : SchnorrParty q R) (curve : Curve q E) (size : ℕ) : List E :=
  (List.range size).map fun l => me.k l • curve.generator

section Party

variable (o : Oracles E D R P) (S : SchnorrSession q E n)

/-- The checks of the key that the party brings. -/
def schnorrStart (i : Fin n) (key : KeyShareMp q E) : Outcome Unit := do
  require (decide (key.partyName = S.job.names i)) .badArg
  require (decide (key.Qis.size = n)) .badArg
  let X ← S.C.curve.mulToGenerator key.xShare
  let Qi ← mapAt key.Qis (S.job.names i)
  require (decide (X = Qi)) .badArg
  require (decide (key.Qis.values.sum = key.Q)) .badArg

def schnorrConsistency (key : KeyShareMp q E) : D :=
  o.sha256 [.bytesList S.msgs, .point (.on key.Q), .pointMap key.Qis.entries]

def schnorrFirst (i : Fin n) (key : KeyShareMp q E) (me : SchnorrParty q R) : SchnorrMsg1 D where
  c := comGen o me.sid (o.pid (S.job.names i)) me.comRand me.localSid
    [.points ((me.Ri S.C.curve S.msgs.length).map .on)]
  sid := me.sid
  hConsistency := schnorrConsistency o S key

/-- A party after the first round. -/
def schnorrExchanged (i : Fin n) (key : KeyShareMp q E) (me : SchnorrParty q R)
    (in1 : Inbox n (SchnorrMsg1 D)) :
    Outcome (Fin n → SchnorrMsg1 D) := do
  schnorrStart S i key
  let first ← received i (schnorrFirst o S i key me) in1
  forEach (fun j => require (decide (j = i ∨ (first j).hConsistency = schnorrConsistency o S key))
    .crypto) (List.finRange n)
  .ok first

def schnorrSid (first : Fin n → SchnorrMsg1 D) : Bytes :=
  o.digestBytes (o.sha256 [.bytesList ((List.finRange n).map fun j => (first j).sid)])

def schnorrHash (first : Fin n → SchnorrMsg1 D) : D :=
  o.sha256 [.bufs ((List.finRange n).map fun j => (first j).c)]

def schnorrSecond (i : Fin n) (me : SchnorrParty q R) (first : Fin n → SchnorrMsg1 D) :
    SchnorrMsg2 E D R P where
  sid := schnorrSid o first
  h := schnorrHash o first
  Ri := (me.Ri S.C.curve S.msgs.length).map .on
  rho := me.comRand
  pi := o.proveBatchDl me.proofCoins (me.Ri S.C.curve S.msgs.length)
    (me.ki S.msgs.length) (schnorrSid o first) i

/-- One turn of the loop over the second messages. -/
def schnorrCheck (i : Fin n) (first : Fin n → SchnorrMsg1 D)
    (second : Fin n → SchnorrMsg2 E D R P) (j : Fin n) :
    Outcome Unit :=
  if j = i then .ok () else do
    require (decide ((second j).sid = schnorrSid o first)) .crypto
    require (decide ((second j).h = schnorrHash o first)) .crypto
    require (decide ((second j).Ri.length = S.msgs.length)) .crypto
    let Rj ← (second j).Ri.mapM (curveCheck false)
    match o.verifyBatchDl Rj (schnorrSid o first) j (second j).pi with
    | some rv => fail rv
    | none =>
      comOpen o (first j).sid (o.pid (S.job.names j)) (second j).rho
        (first j).c [.points (second j).Ri]

/-- `R[l]`: the party's own point and those of the others. -/
def schnorrPoint (i : Fin n) (second : Fin n → SchnorrMsg2 E D R P) (l : ℕ) : E :=
  ((List.finRange n).filter (· ≠ i)).foldl (fun R j =>
    R + ((second j).Ri.getD l (.foreign 0)).point)
    ((second i).Ri.getD l (.foreign 0)).point

/-- `ssi`: the party's parts of the scalars. They are reduced as integers. -/
def schnorrParts (i : Fin n) (key : KeyShareMp q E) (me : SchnorrParty q R)
    (second : Fin n → SchnorrMsg2 E D R P) :
    Outcome (List ℤ) := do
  let es ← batchChallenges S.H S.C S.variant key.Q S.msgs (schnorrPoint i second)
    (fun l => residue (me.k l))
  es.mapM fun ke => modReduce q (ke.2 * key.xShare + ke.1)

/-- The receiver's sums of the parts. -/
def schnorrSums (ssi : Fin n → List ℤ) : Outcome (List ℤ) :=
  (List.finRange n).foldlM (fun ss j => do
    require (decide ((ssi j).length = S.msgs.length)) .crypto
    (ss.zip (ssi j)).mapM fun p => modAdd false q p.1 p.2) (List.replicate S.msgs.length 0)

/-- A party before the last round. -/
def schnorrSigning (i : Fin n) (key : KeyShareMp q E) (me : SchnorrParty q R)
    (in1 : Inbox n (SchnorrMsg1 D)) (in2 : Inbox n (SchnorrMsg2 E D R P)) :
    Outcome ((Fin n → SchnorrMsg2 E D R P) × List ℤ) := do
  let first ← schnorrExchanged o S i key me in1
  let second ← received i (schnorrSecond o S i me first) in2
  forEach (schnorrCheck o S i first second) (List.finRange n)
  let ssi ← schnorrParts S i key me second
  .ok (second, ssi)

/-- `schnorrmp::sign_batch` at party `i` up to the assignment of `sigs`. Only the receiver's
signatures are not empty. -/
def signBatchMp (i : Fin n) (key : KeyShareMp q E) (me : SchnorrParty q R)
    (in1 : Inbox n (SchnorrMsg1 D)) (in2 : Inbox n (SchnorrMsg2 E D R P)) (in3 : Inbox n (List ℤ)) :
    Outcome (List Bytes) := do
  let state ← schnorrSigning o S i key me in1 in2
  if i = S.sigReceiver then do
    let all ← received i state.2 in3
    let ss ← schnorrSums S all
    (S.msgs.zip ss).zipIdx.mapM fun m =>
      checkedSig S.H S.C key.Q (schnorrPoint i state.1 m.2) m.1.1 m.1.2
  else .ok (List.replicate S.msgs.length [])

end Party

section Run

variable (o : Oracles E D R P) (S : SchnorrSession q E n) (key : Fin n → KeyShareMp q E)
  (me : Fin n → SchnorrParty q R)

def schnorrSend1 (i _j : Fin n) : Outcome (SchnorrMsg1 D) := do
  schnorrStart S i (key i)
  .ok (schnorrFirst o S i (key i) (me i))

def schnorrSend2 (in1 : Fin n → Inbox n (SchnorrMsg1 D)) (i _j : Fin n) :
    Outcome (SchnorrMsg2 E D R P) := do
  let first ← schnorrExchanged o S i (key i) (me i) (in1 i)
  .ok (schnorrSecond o S i (me i) first)

def schnorrSend3 (in1 : Fin n → Inbox n (SchnorrMsg1 D))
    (in2 : Fin n → Inbox n (SchnorrMsg2 E D R P)) (i _j : Fin n) :
    Outcome (List ℤ) := do
  let state ← schnorrSigning o S i (key i) (me i) (in1 i) (in2 i)
  .ok state.2

/-- The points of a message deserialize unless one of them is infinity. -/
def SchnorrMsg2.deserializes (m : SchnorrMsg2 E D R P) : Bool :=
  m.Ri.all fun P => decide (P ≠ .on 0)

variable [Inhabited R] [Inhabited P] (rv : ErrorCode)

def schnorrIn1 (i : Fin n) : Inbox n (SchnorrMsg1 D) :=
  honestInbox (schnorrSend1 o S key me) (fun _ => true) rv i (schnorrFirst o S i (key i) (me i))

def schnorrIn2 (i : Fin n) : Inbox n (SchnorrMsg2 E D R P) :=
  honestInbox (schnorrSend2 o S key me (schnorrIn1 o S key me rv)) SchnorrMsg2.deserializes rv i
    ⟨[], schnorrConsistency o S (key i), [], default, default⟩

def schnorrIn3 (i : Fin n) : Inbox n (List ℤ) :=
  honestInbox (schnorrSend3 o S key me (schnorrIn1 o S key me rv) (schnorrIn2 o S key me rv))
    (fun _ => true) rv i []

/-- `schnorrmp::sign_batch` at party `i` among honest parties; `rv` is what a failed round
returns. -/
def schnorrMpResult (i : Fin n) : Outcome (List Bytes) :=
  signBatchMp o S i (key i) (me i) (schnorrIn1 o S key me rv i) (schnorrIn2 o S key me rv i)
    (schnorrIn3 o S key me rv i)

end Run

section Indices

theorem zipIdx_eq_map_range {α : Type} (l : List α) (d : α) :
    l.zipIdx = (List.range l.length).map fun i => (l.getD i d, i) := by
  refine List.ext_getElem (by simp) fun i h h' => ?_
  rw [List.length_zipIdx] at h
  simp [h]

theorem zip_map_range {α β : Type} (l : List α) (d : α) (f : ℕ → β) :
    l.zip ((List.range l.length).map f) = (List.range l.length).map fun i => (l.getD i d, f i) := by
  refine List.ext_getElem (by simp) fun i h h' => ?_
  have hi : i < l.length := by simpa using h
  simp [hi]

theorem foldl_add {ι M : Type} [AddCommMonoid M] (l : List ι) (f : ι → M) (a : M) :
    l.foldl (fun R j => R + f j) a = a + (l.map f).sum := by
  induction l generalizing a with
  | nil => simp
  | cons j l ih => rw [List.foldl_cons, ih, List.map_cons, List.sum_cons, add_assoc]

/-- A sum that begins with one index and goes on with the others. -/
theorem foldl_others {M : Type} [AddCommMonoid M] (f : Fin n → M) (i : Fin n) :
    ((List.finRange n).filter (· ≠ i)).foldl (fun R j => R + f j) (f i) = ∑ j, f j := by
  have hperm : (List.finRange n).Perm (i :: (List.finRange n).filter (· ≠ i)) := by
    have h := List.perm_cons_erase (List.mem_finRange i)
    rw [(List.nodup_finRange n).erase_eq_filter] at h
    refine h.trans (.cons _ (.of_eq (List.filter_congr fun j _ => ?_)))
    by_cases hj : j = i <;> simp [hj]
  rw [foldl_add, Fin.sum_univ_def, (hperm.map f).sum_eq, List.map_cons, List.sum_cons]

end Indices

section Honest

variable {o : Oracles E D R P} {S : SchnorrSession q E n} {x : Fin n → ZMod q}
  {me : Fin n → SchnorrParty q R}

/-- What the parties agree on before the last round: the inputs for which a signature comes out. -/
structure SchnorrInputs (S : SchnorrSession q E n) (x : Fin n → ZMod q)
    (me : Fin n → SchnorrParty q R) : Prop where
  lawful : S.C.Lawful S.H S.variant
  msgs_ne : S.msgs ≠ []
  msg_size : S.variant = .bip340 → ∀ msg ∈ S.msgs, msg.length = 32
  nonces : ∀ j, ∀ l < S.msgs.length, (me j).k l ≠ 0
  sums : ∀ l < S.msgs.length, ∑ j, (me j).k l ≠ 0
  challenges : ∀ l < S.msgs.length,
    schnorrChallenge (q := q) S.H S.C S.variant ((∑ j, x j) • S.C.curve.generator)
    ((∑ j, (me j).k l) • S.C.curve.generator) (S.msgs.getD l []) ≠ 0

variable (o S x me)

def honestSchnorrFirst (j : Fin n) : SchnorrMsg1 D :=
  schnorrFirst o S j (sharedKey S.job S.C.curve x j) (me j)

def honestSchnorrSecond (j : Fin n) : SchnorrMsg2 E D R P :=
  schnorrSecond o S j (me j) (honestSchnorrFirst o S x me)

/-- The sum of the nonces for a message. -/
def nonceSum (l : ℕ) : ZMod q := ∑ j, (me j).k l

/-- A party's part of the scalar for a message. -/
def schnorrPart (j : Fin n) (l : ℕ) : ZMod q :=
  turned S.C S.variant ((∑ j, x j) • S.C.curve.generator) (schnorrChallenge S.H S.C S.variant
      ((∑ j, x j) • S.C.curve.generator) (nonceSum me l • S.C.curve.generator) (S.msgs.getD l [])) *
        x j +
    turned S.C S.variant (nonceSum me l • S.C.curve.generator) ((me j).k l)

/-- The signature for a message. -/
def schnorrOutput (l : ℕ) : Bytes :=
  schnorrSig S.C S.variant (nonceSum me l • S.C.curve.generator)
    (schnorrScalar S.H S.C S.variant (∑ j, x j) (nonceSum me l) (S.msgs.getD l []))

variable {o S x me}

omit [DecidableEq E] in
theorem SchnorrInputs.length_msg (h : SchnorrInputs S x me) {l : ℕ} (hl : l < S.msgs.length)
    (hv : S.variant = .bip340) :
    (S.msgs.getD l []).length = 32 := by
  rw [List.getD_eq_getElem _ _ hl]
  exact h.msg_size hv _ (List.getElem_mem hl)

theorem schnorrStart_sharedKey (i : Fin n) :
    schnorrStart S i (sharedKey S.job S.C.curve x i) = .ok () := by
  have hsize : (sharedKey S.job S.C.curve x i).Qis.size = n := by
    rw [OrderedMap.size_of_find S.job.names (List.finRange n) (nodup_names S.job)
      (find_sharedKey_isSome S.job S.C.curve x i), List.length_finRange]
  have hmul : S.C.curve.mulToGenerator (sharedKey S.job S.C.curve x i).xShare =
      .ok (x i • S.C.curve.generator) :=
    mulToGenerator_residue S.C.curve (x i)
  simp only [schnorrStart, show (sharedKey S.job S.C.curve x i).partyName = S.job.names i from rfl,
    hsize, hmul, mapAt_eq (find_sharedKey S.job S.C.curve x i i), sum_sharedKey, decide_true,
    require_true, ok_bind]
  exact congrArg (require · .badArg) (decide_eq_true rfl)

omit [DecidableEq E] in
/-- The parts of all parties add up to the scalar of the signature. -/
theorem sum_schnorrPart (l : ℕ) : ∑ j, schnorrPart S x me j l =
    schnorrScalar S.H S.C S.variant (∑ j, x j) (nonceSum me l) (S.msgs.getD l []) := by
  simp only [schnorrPart, Finset.sum_add_distrib, ← Finset.mul_sum, ← turned_sum]
  rfl

omit [DecidableEq E] in
theorem getD_Ri (party : SchnorrParty q R) (curve : Curve q E) {size l : ℕ} (hl : l < size) :
    (((party.Ri curve size).map WirePoint.on).getD l (.foreign 0)).point =
      party.k l • curve.generator := by
  rw [SchnorrParty.Ri, List.map_map, getD_map_range _ _ hl]
  rfl

omit [DecidableEq D] [DecidableEq E] in
theorem schnorrPoint_honest (i : Fin n) {l : ℕ} (hl : l < S.msgs.length) :
    schnorrPoint i (honestSchnorrSecond o S x me) l = nonceSum me l • S.C.curve.generator := by
  have hpt : ∀ j, ((honestSchnorrSecond o S x me j).Ri.getD l (.foreign 0)).point =
      (me j).k l • S.C.curve.generator :=
    fun j => getD_Ri (me j) S.C.curve hl
  simp only [schnorrPoint, hpt]
  rw [foldl_others, ← Finset.sum_smul]
  rfl

omit [DecidableEq E] in
theorem length_Ri (party : SchnorrParty q R) (curve : Curve q E) (size : ℕ) :
    (party.Ri curve size).length = size := by
  rw [SchnorrParty.Ri, List.length_map, List.length_range]

/-- The points of an honest party deserialize. -/
theorem SchnorrInputs.deserializes (h : SchnorrInputs S x me) (j : Fin n) :
    (((me j).Ri S.C.curve S.msgs.length).map WirePoint.on).all (fun P =>
      decide (P ≠ .on 0)) = true := by
  refine List.all_eq_true.mpr fun P hP => ?_
  obtain ⟨P', hP', rfl⟩ := List.mem_map.mp hP
  obtain ⟨l, hl, rfl⟩ := List.mem_map.mp hP'
  exact decide_eq_true fun hz =>
    h.nonces j l (List.mem_range.mp hl)
      ((smul_generator_eq_zero S.C.curve).mp (WirePoint.on.inj hz))

theorem SchnorrInputs.curveChecks (h : SchnorrInputs S x me) (j : Fin n) :
    (((me j).Ri S.C.curve S.msgs.length).map WirePoint.on).mapM (curveCheck false) =
      Except.ok (ε := Failure) ((me j).Ri S.C.curve S.msgs.length) := by
  rw [List.mapM_map]
  refine (mapM_ok (g := id) fun P hP => ?_).trans (by rw [List.map_id])
  obtain ⟨l, hl, rfl⟩ := List.mem_map.mp hP
  exact curveCheck_smul_generator S.C.curve false (h.nonces j l (List.mem_range.mp hl))

omit [DecidableEq E] [DecidableEq D] in
/-- The proof of an honest party verifies. -/
theorem SchnorrInputs.verifyBatchDl (ho : o.Complete S.C.curve) (h : SchnorrInputs S x me)
    (j : Fin n) (sid : Bytes) (aux : ℕ) :
    o.verifyBatchDl ((me j).Ri S.C.curve S.msgs.length) sid aux (o.proveBatchDl (me j).proofCoins
      ((me j).Ri S.C.curve S.msgs.length) ((me j).ki S.msgs.length) sid aux) = none := by
  have hsize : 0 < S.msgs.length := List.length_pos_iff.mpr h.msgs_ne
  have hproof := ho.batch (me j).proofCoins ((List.range S.msgs.length).map (me j).k) sid aux
    (by simpa using hsize.ne') (by simpa using h.nonces j)
  rw [List.map_map, List.map_map] at hproof
  exact hproof

theorem schnorrCheck_honest (ho : o.Complete S.C.curve) (h : SchnorrInputs S x me) (i j : Fin n) :
    schnorrCheck o S i (honestSchnorrFirst o S x me) (honestSchnorrSecond o S x me) j = .ok () := by
  have hproof : o.verifyBatchDl ((me j).Ri S.C.curve S.msgs.length)
      (schnorrSid o (honestSchnorrFirst o S x me)) j
      (honestSchnorrSecond o S x me j).pi = none := h.verifyBatchDl ho j _ _
  have hopen : comOpen o (me j).sid (o.pid (S.job.names j)) (me j).comRand
      (honestSchnorrFirst o S x me j).c
      [.points (((me j).Ri S.C.curve S.msgs.length).map .on)] = .ok () := comOpen_comGen o _ _ _ _ _
  rw [schnorrCheck]
  split
  · rfl
  · rw [show (honestSchnorrSecond o S x me j).sid =
      schnorrSid o (honestSchnorrFirst o S x me) from rfl,
      show (honestSchnorrSecond o S x me j).h =
        schnorrHash o (honestSchnorrFirst o S x me) from rfl,
      show (honestSchnorrSecond o S x me j).Ri =
        ((me j).Ri S.C.curve S.msgs.length).map .on from rfl, h.curveChecks,
      List.length_map, length_Ri]
    simp only [decide_true, require_true, ok_bind, hproof]
    exact hopen

omit [DecidableEq E] in
theorem SchnorrCurve.Lawful.order_le {H : SchnorrHashes} {C : SchnorrCurve q E}
    {variant : SchnorrVariant} (hC : C.Lawful H variant) : q ≤ 256 ^ 32 := by
  cases variant with
  | eddsa => exact SchnorrCurve.Ed25519.order_le hC
  | bip340 => exact SchnorrCurve.Secp256k1.order_le hC

omit [DecidableEq E] in
theorem SchnorrCurve.Lawful.type_eq {H : SchnorrHashes} {C : SchnorrCurve q E}
    {variant : SchnorrVariant} (hC : C.Lawful H variant) : C.curve.type = variant.curveType := by
  cases variant with
  | eddsa => exact SchnorrCurve.Ed25519.type hC
  | bip340 => exact SchnorrCurve.Secp256k1.type hC

/-- The reduction of a part, which is computed with integers. -/
theorem modReduce_part (hle : q ≤ 256 ^ 32) (e x k : ZMod q) :
    modReduce q (residue e * residue x + residue k) = .ok (residue (e * x + k)) := by
  have he := (isInRange_iff _).mp (isInRange_residue e)
  have hx := (isInRange_iff _).mp (isInRange_residue x)
  have hk := (isInRange_iff _).mp (isInRange_residue k)
  have hq256 : (q : ℤ) ≤ 256 ^ 32 := by exact_mod_cast hle
  have hmul : residue e * residue x ≤ 256 ^ 32 * 256 ^ 32 :=
    mul_le_mul (by omega) (by omega) hx.1 (by norm_num)
  have hone : (1 : ℤ) ≤ 256 ^ 32 := one_le_pow₀ (by norm_num)
  have hlt : residue e * residue x + residue k < 2 ^ 4096 :=
    calc residue e * residue x + residue k < 256 ^ 32 * 256 ^ 32 + 256 ^ 32 := by omega
      _ ≤ 256 ^ 32 * 256 ^ 32 * 2 := by nlinarith
      _ = 2 ^ (8 * 32 + 8 * 32 + 1) := by
        rw [show (256 : ℤ) = 2 ^ 8 by norm_num, ← pow_mul, ← pow_add, ← pow_succ]
      _ < 2 ^ 4096 := pow_lt_pow_right₀ (by norm_num) (by norm_num)
  rw [modReduce_eq_emod hq.out.two_le (add_nonneg (mul_nonneg he.1 hx.1) hk.1) hlt, emod_eq_residue]
  push_cast
  rw [cast_residue, cast_residue, cast_residue]

/-- The nonces and challenges of a batch, from the points and the nonces of one party. -/
theorem batchChallenges_eq {H : SchnorrHashes} {C : SchnorrCurve q E} {variant : SchnorrVariant}
    (hC : C.Lawful H variant) {msgs : List Bytes}
    (hmsg : variant = .bip340 → ∀ msg ∈ msgs, msg.length = 32) {Q : E} {R : ℕ → E} {k : ℕ → ZMod q}
    (hk : ∀ l < msgs.length, k l ≠ 0)
    (he : ∀ l < msgs.length, schnorrChallenge (q := q) H C variant Q (R l) (msgs.getD l []) ≠ 0) :
    batchChallenges H C variant Q msgs R (fun l => residue (k l)) =
      .ok ((List.range msgs.length).map fun l =>
      (residue (turned C variant (R l) (k l)),
        residue (turned C variant Q (schnorrChallenge H C variant Q (R l) (msgs.getD l []))))) := by
  rw [batchChallenges, decide_eq_true hC.type_eq, require_true, ok_bind,
    zipIdx_eq_map_range msgs [], List.mapM_map]
  refine mapM_ok fun l hl => ?_
  have hl := List.mem_range.mp hl
  refine nonceAndChallenge_eq hC (fun hv => ?_) (hk l hl) (he l hl)
  have hget : msgs.getD l [] ∈ msgs := by
    rw [List.getD_eq_getElem _ _ hl]
    exact List.getElem_mem hl
  exact hmsg hv _ hget

omit [DecidableEq D] in
theorem schnorrParts_honest (h : SchnorrInputs S x me) (i : Fin n) :
    schnorrParts S i (sharedKey S.job S.C.curve x i) (me i) (honestSchnorrSecond o S x me) =
      .ok ((List.range S.msgs.length).map fun l => residue (schnorrPart S x me i l)) := by
  have hR : ∀ l < S.msgs.length,
      schnorrPoint i (honestSchnorrSecond o S x me) l = nonceSum me l • S.C.curve.generator :=
    fun l hl => schnorrPoint_honest i hl
  have hbatch := batchChallenges_eq h.lawful h.msg_size (Q := (∑ j, x j) • S.C.curve.generator)
    (R := schnorrPoint i (honestSchnorrSecond o S x me)) (h.nonces i) fun l hl => by
      rw [hR l hl]
      exact h.challenges l hl
  rw [schnorrParts, show (sharedKey S.job S.C.curve x i).Q =
    (∑ j, x j) • S.C.curve.generator from rfl, hbatch, ok_bind, List.mapM_map]
  refine mapM_ok fun l hl => ?_
  have hl := List.mem_range.mp hl
  rw [show (sharedKey S.job S.C.curve x i).xShare = residue (x i) from rfl]
  simp only [Function.comp_apply, modReduce_part h.lawful.order_le, hR l hl]
  rfl

omit [Module (ZMod q) E] [DecidableEq E] in
/-- The sums after some of the parties. -/
theorem schnorrSums_foldlM (part : Fin n → ℕ → ZMod q) (js : List (Fin n)) (acc : ℕ → ZMod q) :
    js.foldlM (fun ss j => do
      require (decide (((List.range S.msgs.length).map fun l => residue (part j l)).length =
        S.msgs.length)) .crypto
      (ss.zip ((List.range S.msgs.length).map fun l => residue (part j l))).mapM fun p =>
        modAdd false q p.1 p.2)
        ((List.range S.msgs.length).map fun l => residue (acc l)) =
      Except.ok (ε := Failure) ((List.range S.msgs.length).map fun l =>
          residue (acc l + (js.map (part · l)).sum)) := by
  induction js generalizing acc with
  | nil => simp [pure, Except.pure]
  | cons j js ih =>
    have hadd :
        (((List.range S.msgs.length).map fun l => residue (acc l)).zip
          ((List.range S.msgs.length).map fun l =>
        residue (part j l))).mapM (fun p => modAdd false q p.1 p.2) =
        .ok ((List.range S.msgs.length).map fun l => residue (acc l + part j l)) := by
      rw [List.zip_map', List.mapM_map]
      exact mapM_ok fun l _ => modAdd_residue false _ _
    rw [List.foldlM_cons, List.length_map, List.length_range, decide_eq_true rfl, require_true,
      ok_bind, hadd, ok_bind, ih]
    simp only [List.map_cons, List.sum_cons, add_assoc]

omit [DecidableEq E] in
theorem schnorrSums_honest :
    schnorrSums S (fun j => (List.range S.msgs.length).map fun l =>
      residue (schnorrPart S x me j l)) =
      .ok ((List.range S.msgs.length).map fun l =>
        residue (schnorrScalar S.H S.C S.variant (∑ j, x j) (nonceSum me l)
            (S.msgs.getD l []))) := by
  have hzero : List.replicate S.msgs.length (0 : ℤ) = (List.range S.msgs.length).map fun _ =>
      residue (0 : ZMod q) := by
    rw [residue_zero, List.map_const', List.length_range]
  rw [schnorrSums, hzero, schnorrSums_foldlM]
  simp only [zero_add, ← Fin.sum_univ_def, sum_schnorrPart]

variable [Inhabited R] [Inhabited P] {rv : ErrorCode}

omit [DecidableEq D] [Inhabited R] [Inhabited P] in
theorem schnorrIn1_honest (i : Fin n) :
    received i (schnorrFirst o S i (sharedKey S.job S.C.curve x i) (me i))
    (schnorrIn1 o S (sharedKey S.job S.C.curve x) me rv i) = .ok (honestSchnorrFirst o S x me) :=
  received_honestInbox (honestSchnorrFirst o S x me) fun k _ =>
    ⟨by rw [schnorrSend1, schnorrStart_sharedKey]; rfl, rfl⟩

omit [Inhabited R] [Inhabited P] in
theorem schnorrExchanged_in1 (i : Fin n) :
    schnorrExchanged o S i (sharedKey S.job S.C.curve x i) (me i)
      (schnorrIn1 o S (sharedKey S.job S.C.curve x) me rv i) =
      .ok (honestSchnorrFirst o S x me) := by
  have hloop : forEach (fun j =>
      require (decide (j = i ∨ (honestSchnorrFirst o S x me j).hConsistency =
      schnorrConsistency o S (sharedKey S.job S.C.curve x i))) .crypto)
        (List.finRange n) = .ok () :=
    forEach_ok_iff.mpr fun j _ => by
      simp [honestSchnorrFirst, schnorrFirst, schnorrConsistency, sharedKey]
  rw [schnorrExchanged, schnorrStart_sharedKey, ok_bind, schnorrIn1_honest, ok_bind, hloop, ok_bind]

theorem schnorrSigning_honest (ho : o.Complete S.C.curve) (h : SchnorrInputs S x me) (i : Fin n) :
    schnorrSigning o S i (sharedKey S.job S.C.curve x i) (me i)
      (schnorrIn1 o S (sharedKey S.job S.C.curve x) me rv i)
      (schnorrIn2 o S (sharedKey S.job S.C.curve x) me rv i) = .ok (honestSchnorrSecond o S x me,
        (List.range S.msgs.length).map fun l => residue (schnorrPart S x me i l)) := by
  have hrecv : received i (schnorrSecond o S i (me i) (honestSchnorrFirst o S x me))
      (schnorrIn2 o S (sharedKey S.job S.C.curve x) me rv i) =
        .ok (honestSchnorrSecond o S x me) := by
    refine received_honestInbox (honestSchnorrSecond o S x me) fun j _ => ⟨?_, ?_⟩
    · rw [schnorrSend2, schnorrExchanged_in1]
      rfl
    · exact h.deserializes j
  have hchecks :
      forEach (schnorrCheck o S i (honestSchnorrFirst o S x me) (honestSchnorrSecond o S x me))
        (List.finRange n) =
      .ok () := forEach_ok_iff.mpr fun j _ => schnorrCheck_honest ho h i j
  rw [schnorrSigning, schnorrExchanged_in1, ok_bind, hrecv, ok_bind, hchecks, ok_bind,
    schnorrParts_honest h, ok_bind]

theorem schnorrIn3_honest (ho : o.Complete S.C.curve) (h : SchnorrInputs S x me) (i : Fin n) :
    received i ((List.range S.msgs.length).map fun l => residue (schnorrPart S x me i l))
      (schnorrIn3 o S (sharedKey S.job S.C.curve x) me rv i) =
        .ok (fun j => (List.range S.msgs.length).map fun l => residue (schnorrPart S x me j l)) :=
  received_honestInbox (fun j => (List.range S.msgs.length).map fun l =>
      residue (schnorrPart S x me j l)) fun j _ =>
    ⟨by rw [schnorrSend3, schnorrSigning_honest ho h]; rfl, rfl⟩

/-- The receiver ends up with signatures that have been verified, and the others with empty
buffers. -/
theorem schnorrMp_honest (ho : o.Complete S.C.curve) (h : SchnorrInputs S x me)
    (hx : S.variant = .bip340 → ∑ j, x j ≠ 0) (i : Fin n) :
    schnorrMpResult o S (sharedKey S.job S.C.curve x) me rv i =
      .ok (if i = S.sigReceiver then (List.range S.msgs.length).map (schnorrOutput S x me)
        else List.replicate S.msgs.length []) := by
  rw [schnorrMpResult, signBatchMp, schnorrSigning_honest ho h, ok_bind]
  split
  · rw [schnorrIn3_honest ho h, ok_bind, schnorrSums_honest, ok_bind, zip_map_range S.msgs [],
      zipIdx_eq_map_range _ ([], 0), List.length_map, List.length_range, List.mapM_map]
    refine mapM_ok fun l hl => ?_
    have hl := List.mem_range.mp hl
    have hsig := checkedSig_schnorrScalar h.lawful (x := ∑ j, x j) (k := nonceSum me l)
      (h.length_msg hl) hx (h.sums l hl)
    simp only [Function.comp_apply, getD_map_range _ _ hl, schnorrPoint_honest i hl]
    exact hsig
  · rfl

/-- Under a key at infinity no BIP340 signature comes out. -/
theorem schnorrMp_infinity (ho : o.Complete S.C.curve) (h : SchnorrInputs S x me)
    (hv : S.variant = .bip340) (hx : ∑ j, x j = 0) :
    schnorrMpResult o S (sharedKey S.job S.C.curve x) me rv S.sigReceiver = fail .crypto := by
  have hC : S.C.Secp256k1 := by
    have hlaw := h.lawful
    rwa [hv] at hlaw
  have hQ : (sharedKey S.job S.C.curve x S.sigReceiver).Q = 0 := by
    change (∑ j, x j) • S.C.curve.generator = 0
    rw [hx, zero_smul]
  obtain ⟨size, hsize⟩ : ∃ size, S.msgs.length = size + 1 := Nat.exists_eq_succ_of_ne_zero
    (List.length_pos_iff.mpr h.msgs_ne).ne'
  have hsig : ∀ {s : ZMod q},
    checkedSig S.H S.C 0 (nonceSum me 0 • S.C.curve.generator) (S.msgs.getD 0 []) (residue s) =
      fail .crypto := fun {s} =>
    checkedSig_infinity hC (fun hz =>
      h.sums 0 (by omega) ((smul_generator_eq_zero S.C.curve).mp hz)) (h.length_msg (by omega) hv)
  rw [schnorrMpResult, signBatchMp, schnorrSigning_honest ho h, ok_bind, if_pos rfl,
    schnorrIn3_honest ho h, ok_bind, schnorrSums_honest, ok_bind,
    zip_map_range S.msgs [], zipIdx_eq_map_range _ ([], 0), List.length_map, List.length_range,
    List.mapM_map, hsize, List.range_succ_eq_map, List.mapM_cons]
  simp only [Function.comp_apply, hQ,
    schnorrPoint_honest S.sigReceiver (by omega : 0 < S.msgs.length), List.map_cons,
    List.getD_cons_zero, hsig]
  rfl

end Honest

end CbMpc
