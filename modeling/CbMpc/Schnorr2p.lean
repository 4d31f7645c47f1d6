import CbMpc.SchnorrMp

/-!
# Schnorr signing by two parties

`schnorr2p::sign_batch` at either party. The first party commits to its points, learns those of the
second one and puts the signatures together; its arithmetic asserts that the operands are reduced.
-/
namespace CbMpc

/-- `key_share_2p_t` without the role and the curve. -/
structure SchnorrKey2p (E : Type) where
  Q : E
  xShare : ℤ

/-- The arguments that both parties are called with, apart from the keys, and the pid of the first
one. -/
structure SchnorrSession2p (q : ℕ) (E : Type) [AddCommGroup E] where
  pid1 : ℕ
  C : SchnorrCurve q E
  H : SchnorrHashes
  variant : SchnorrVariant
  msgs : List Bytes

/-- `R2`, `zk_dl2` and `sid2`. -/
structure Schnorr2pMsg2 (E P : Type) where
  R2 : List (WirePoint E)
  zkDl2 : P
  sid2 : Bytes

/-- `zk_dl1`, `R1` and `com.rand`. -/
structure Schnorr2pMsg3 (E R P : Type) where
  zkDl1 : P
  R1 : List (WirePoint E)
  rand : R

/-- A message of the other party, or the error of the transport. -/
def arrived {α : Type} (inbox : Except ErrorCode α) : Outcome α :=
  match inbox with
  | .ok m => .ok m
  | .error rv => fail rv

variable {q : ℕ} [hq : Fact q.Prime] {E D R P : Type} [AddCommGroup E] [Module (ZMod q) E]
  [DecidableEq E] [DecidableEq D]

section Party

variable (o : Oracles E D R P) (S : SchnorrSession2p q E)

/-- `sid` of the proofs. -/
def schnorrSid2p (sid1 sid2 : Bytes) : Bytes := o.digestBytes (o.sha256 [.bytes sid1, .bytes sid2])

def schnorrVerify (Rs : List E) (sid : Bytes) (aux : ℕ) (pi : P) : Outcome Unit :=
  match o.verifyBatchDl Rs sid aux pi with
  | some rv => fail rv
  | none => .ok ()

/-- `e[i] * key.x_share + k[i]` inside `MODULO(q)`. -/
def schnorrPart2p (x : ℤ) (ke : ℤ × ℤ) : Outcome ℤ := do
  let ex ← modMul false q ke.2 x
  modAdd false q ex ke.1

/-- `sid1` and `com.msg`. -/
def schnorr2pFirst (me1 : SchnorrParty q R) : Outcome (Bytes × ComBuf D) := do
  require (decide (S.msgs ≠ [])) .badArg
  .ok (me1.sid, comGen o me1.sid S.pid1 me1.comRand me1.localSid
    [.points ((me1.Ri S.C.curve S.msgs.length).map .on)])

def schnorr2pSecond (me2 : SchnorrParty q R) (in1 : Except ErrorCode (Bytes × ComBuf D)) :
    Outcome (Schnorr2pMsg2 E P) := do
  require (decide (S.msgs ≠ [])) .badArg
  let m1 ← arrived in1
  .ok ⟨(me2.Ri S.C.curve S.msgs.length).map .on,
    o.proveBatchDl me2.proofCoins (me2.Ri S.C.curve S.msgs.length)
    (me2.ki S.msgs.length) (schnorrSid2p o m1.1 me2.sid) 2, me2.sid⟩

/-- The first party's third message, and the second party's points. -/
def schnorr2pThird (me1 : SchnorrParty q R) (in2 : Except ErrorCode (Schnorr2pMsg2 E P)) :
    Outcome (Schnorr2pMsg3 E R P × List E) := do
  require (decide (S.msgs ≠ [])) .badArg
  let m2 ← arrived in2
  require (decide (m2.R2.length = S.msgs.length)) .crypto
  let sid := schnorrSid2p o me1.sid m2.sid2
  let R2 ← m2.R2.mapM (curveCheck false)
  schnorrVerify o R2 sid 2 m2.zkDl2
  .ok (⟨o.proveBatchDl me1.proofCoins (me1.Ri S.C.curve S.msgs.length) (me1.ki S.msgs.length) sid 1,
    (me1.Ri S.C.curve S.msgs.length).map .on, me1.comRand⟩, R2)

/-- The second party's part of the scalars. -/
def schnorr2pFourth (key : SchnorrKey2p E) (me2 : SchnorrParty q R)
    (in1 : Except ErrorCode (Bytes × ComBuf D)) (in3 : Except ErrorCode (Schnorr2pMsg3 E R P)) :
    Outcome (List ℤ) := do
  require (decide (S.msgs ≠ [])) .badArg
  let m1 ← arrived in1
  let m3 ← arrived in3
  require (decide (m3.R1.length = S.msgs.length)) .crypto
  comOpen o m1.1 S.pid1 m3.rand m1.2 [.points m3.R1]
  let R1 ← m3.R1.mapM (curveCheck false)
  schnorrVerify o R1 (schnorrSid2p o m1.1 me2.sid) 1 m3.zkDl1
  let es ← batchChallenges S.H S.C S.variant key.Q S.msgs (fun l =>
    R1.getD l 0 + me2.k l • S.C.curve.generator)
    (fun l => residue (me2.k l))
  es.mapM (schnorrPart2p (q := q) key.xShare)

/-- `schnorr2p::sign_batch` at the first party up to the assignment of `sigs`. -/
def signBatch2pP1 (key : SchnorrKey2p E) (me1 : SchnorrParty q R)
    (in2 : Except ErrorCode (Schnorr2pMsg2 E P)) (in4 : Except ErrorCode (List ℤ)) :
    Outcome (List Bytes) := do
  let state ← schnorr2pThird o S me1 in2
  let point := fun l => me1.k l • S.C.curve.generator + state.2.getD l 0
  let es ← batchChallenges S.H S.C S.variant key.Q S.msgs point (fun l => residue (me1.k l))
  let s2 ← arrived in4
  require (decide (s2.length = S.msgs.length)) .crypto
  (S.msgs.zip (es.zip s2)).zipIdx.mapM fun m => do
    let s1 ← schnorrPart2p (q := q) key.xShare m.1.2.1
    let s ← modAdd false q s1 m.1.2.2
    checkedSig S.H S.C key.Q (point m.2) m.1.1 s

/-- `schnorr2p::sign_batch` at the second party. -/
def signBatch2pP2 (key : SchnorrKey2p E) (me2 : SchnorrParty q R)
    (in1 : Except ErrorCode (Bytes × ComBuf D)) (in3 : Except ErrorCode (Schnorr2pMsg3 E R P)) :
    Outcome (List Bytes) := do
  let _ ← schnorr2pFourth o S key me2 in1 in3
  .ok (List.replicate S.msgs.length [])

end Party

section Run

variable (o : Oracles E D R P) (S : SchnorrSession2p q E) (key1 key2 : SchnorrKey2p E)
  (me1 me2 : SchnorrParty q R) (rv : ErrorCode)

/-- What an honest sender's message is at the receiver; `rv` is what a failed transfer returns. -/
def transfer {α : Type} (deserializes : α → Bool) (sent : Outcome α) : Except ErrorCode α :=
  match sent with
  | .ok m => if deserializes m then .ok m else .error rv
  | .error _ => .error rv

def schnorr2pIn1 : Except ErrorCode (Bytes × ComBuf D) :=
  transfer rv (fun _ => true) (schnorr2pFirst o S me1)

def schnorr2pIn2 : Except ErrorCode (Schnorr2pMsg2 E P) :=
  transfer rv (fun m => m.R2.all fun P => decide (P ≠ .on 0))
    (schnorr2pSecond o S me2 (schnorr2pIn1 o S me1 rv))

def schnorr2pIn3 : Except ErrorCode (Schnorr2pMsg3 E R P) :=
  transfer rv (fun m => m.R1.all fun P => decide (P ≠ .on 0)) do
    let state ← schnorr2pThird o S me1 (schnorr2pIn2 o S me1 me2 rv)
    .ok state.1

def schnorr2pIn4 : Except ErrorCode (List ℤ) :=
  transfer rv (fun _ => true)
    (schnorr2pFourth o S key2 me2 (schnorr2pIn1 o S me1 rv) (schnorr2pIn3 o S me1 me2 rv))

/-- `schnorr2p::sign_batch` at the two parties, when both are honest. -/
def schnorr2pResult : Outcome (List Bytes) × Outcome (List Bytes) :=
  (signBatch2pP1 o S key1 me1 (schnorr2pIn2 o S me1 me2 rv) (schnorr2pIn4 o S key2 me1 me2 rv),
    signBatch2pP2 o S key2 me2 (schnorr2pIn1 o S me1 rv) (schnorr2pIn3 o S me1 me2 rv))

end Run

/-- The two-party session with the curve, the variant and the messages of a session for two of n
parties. -/
def SchnorrSession.session2p (S : SchnorrSession q E 2) (pid1 : ℕ) : SchnorrSession2p q E :=
  ⟨pid1, S.C, S.H, S.variant, S.msgs⟩

/-- The two-party key with the share of a key share. -/
def KeyShareMp.key2p (key : KeyShareMp q E) : SchnorrKey2p E := ⟨key.Q, key.xShare⟩

section Honest

variable {o : Oracles E D R P} {S : SchnorrSession q E 2} {x : Fin 2 → ZMod q}
  {me : Fin 2 → SchnorrParty q R} {pid1 : ℕ} {rv : ErrorCode}

theorem transfer_ok {α : Type} {deserializes : α → Bool} {m : α} (h : deserializes m = true) :
    transfer rv deserializes (.ok m) = .ok m := if_pos h

theorem schnorrPart2p_eq (x e k : ZMod q) :
    schnorrPart2p (q := q) (residue x) (residue k, residue e) =
    .ok (residue (e * x + k)) := by
  rw [schnorrPart2p, modMul_residue, ok_bind, modAdd_residue]

variable (o S x me pid1) in
/-- The second party's second message and the first party's third one. -/
def honestSchnorr2pMsgs : Schnorr2pMsg2 E P × Schnorr2pMsg3 E R P :=
  let size := S.msgs.length
  let sid := schnorrSid2p o (me 0).sid (me 1).sid
  (⟨((me 1).Ri S.C.curve size).map .on,
      o.proveBatchDl (me 1).proofCoins ((me 1).Ri S.C.curve size) ((me 1).ki size) sid 2,
      (me 1).sid⟩,
      ⟨o.proveBatchDl (me 0).proofCoins ((me 0).Ri S.C.curve size) ((me 0).ki size) sid 1,
      ((me 0).Ri S.C.curve size).map .on, (me 0).comRand⟩)

omit [DecidableEq E] [DecidableEq D] in
theorem schnorr2pFirst_honest (h : SchnorrInputs S x me) :
    schnorr2pIn1 o (S.session2p pid1) (me 0) rv =
    .ok ((me 0).sid, comGen o (me 0).sid pid1 (me 0).comRand (me 0).localSid
      [.points (((me 0).Ri S.C.curve S.msgs.length).map .on)]) := by
  have hne : (S.session2p pid1).msgs ≠ [] := h.msgs_ne
  rw [schnorr2pIn1, schnorr2pFirst, decide_eq_true hne]
  rfl

section

omit [DecidableEq D]

theorem schnorr2pSecond_honest (h : SchnorrInputs S x me) :
    schnorr2pIn2 o (S.session2p pid1) (me 0) (me 1) rv = .ok (honestSchnorr2pMsgs o S me).1 := by
  have hne : (S.session2p pid1).msgs ≠ [] := h.msgs_ne
  rw [schnorr2pIn2, schnorr2pFirst_honest h, schnorr2pSecond, decide_eq_true hne]
  exact transfer_ok (h.deserializes 1)

theorem schnorr2pThird_honest (ho : o.Complete S.C.curve) (h : SchnorrInputs S x me) :
    schnorr2pThird o (S.session2p pid1) (me 0) (.ok (honestSchnorr2pMsgs o S me).1) =
      .ok ((honestSchnorr2pMsgs o S me).2, (me 1).Ri S.C.curve S.msgs.length) := by
  have hne : (S.session2p pid1).msgs ≠ [] := h.msgs_ne
  have hpts := h.curveChecks 1
  have hproof := h.verifyBatchDl ho 1 (schnorrSid2p o (me 0).sid (me 1).sid) 2
  have hlen : ((honestSchnorr2pMsgs o S me).1.R2).length = S.msgs.length := by
    rw [honestSchnorr2pMsgs, List.length_map, length_Ri]
  simp only [schnorr2pThird, decide_eq_true hne, require_true, ok_bind, arrived]
  rw [show (S.session2p pid1).msgs.length = S.msgs.length from rfl, hlen, decide_eq_true rfl,
    require_true, ok_bind]
  simp only [honestSchnorr2pMsgs, hpts, ok_bind, schnorrVerify, hproof]
  rfl

theorem schnorr2pIn3_honest (ho : o.Complete S.C.curve) (h : SchnorrInputs S x me) :
    schnorr2pIn3 o (S.session2p pid1) (me 0) (me 1) rv = .ok (honestSchnorr2pMsgs o S me).2 := by
  rw [schnorr2pIn3, schnorr2pSecond_honest h, schnorr2pThird_honest ho h]
  exact transfer_ok (h.deserializes 0)

end

/-- The scalar that a party adds, for the point of both parties. -/
theorem schnorr2p_challenges (h : SchnorrInputs S x me) (j : Fin 2) {point : ℕ → E}
    (hpoint : ∀ l < S.msgs.length, point l = nonceSum me l • S.C.curve.generator) :
    batchChallenges S.H S.C S.variant ((∑ j, x j) • S.C.curve.generator) S.msgs point
      (fun l => residue ((me j).k l)) =
      .ok ((List.range S.msgs.length).map fun l =>
        (residue (turned S.C S.variant (point l) ((me j).k l)),
        residue (turned S.C S.variant ((∑ j, x j) • S.C.curve.generator)
        (schnorrChallenge S.H S.C S.variant
          ((∑ j, x j) • S.C.curve.generator) (point l) (S.msgs.getD l []))))) :=
  batchChallenges_eq h.lawful h.msg_size (h.nonces j) fun l hl => by
    rw [hpoint l hl]
    exact h.challenges l hl

omit [DecidableEq E] in
theorem getD_points (party : SchnorrParty q R) (curve : Curve q E) {size l : ℕ} (hl : l < size) :
    (party.Ri curve size).getD l 0 = party.k l • curve.generator := getD_map_range _ 0 hl

theorem schnorr2pFourth_honest (ho : o.Complete S.C.curve) (h : SchnorrInputs S x me) :
    schnorr2pFourth o (S.session2p pid1) (sharedKey S.job S.C.curve x 1).key2p (me 1)
      (schnorr2pIn1 o (S.session2p pid1) (me 0) rv) (.ok (honestSchnorr2pMsgs o S me).2) =
        .ok ((List.range S.msgs.length).map fun l => residue (schnorrPart S x me 1 l)) := by
  have hne : (S.session2p pid1).msgs ≠ [] := h.msgs_ne
  have hpts := h.curveChecks 0
  have hproof := h.verifyBatchDl ho 0 (schnorrSid2p o (me 0).sid (me 1).sid) 1
  have hopen : comOpen o (me 0).sid pid1 (me 0).comRand
      (comGen o (me 0).sid pid1 (me 0).comRand (me 0).localSid
      [.points (((me 0).Ri S.C.curve S.msgs.length).map .on)])
        [.points (((me 0).Ri S.C.curve S.msgs.length).map .on)] = .ok () :=
    comOpen_comGen o _ _ _ _ _
  have hlen : ((honestSchnorr2pMsgs o S me).2.R1).length = S.msgs.length := by
    rw [honestSchnorr2pMsgs, List.length_map, length_Ri]
  have hpoint : ∀ l < S.msgs.length,
      ((me 0).Ri S.C.curve S.msgs.length).getD l 0 + (me 1).k l • S.C.curve.generator =
      nonceSum me l • S.C.curve.generator := fun l hl => by
    rw [getD_points _ _ hl, nonceSum, Fin.sum_univ_two, add_smul]
  have hbatch := schnorr2p_challenges h 1 hpoint
  rw [schnorr2pFourth, schnorr2pFirst_honest h]
  simp only [decide_eq_true hne, require_true, ok_bind, arrived]
  rw [show (S.session2p pid1).msgs.length = S.msgs.length from rfl, hlen, decide_eq_true rfl,
    require_true, ok_bind]
  simp only [honestSchnorr2pMsgs, SchnorrSession.session2p, hopen, hpts, ok_bind,
    schnorrVerify, hproof,
    show (sharedKey S.job S.C.curve x 1).key2p.Q = (∑ j, x j) • S.C.curve.generator from rfl,
      hbatch, List.mapM_map]
  refine mapM_ok fun l hl => ?_
  have hl := List.mem_range.mp hl
  rw [Function.comp_apply, show (sharedKey S.job S.C.curve x 1).key2p.xShare =
    residue (x 1) from rfl, schnorrPart2p_eq, hpoint l hl]
  rfl

/-- Two honest parties: the first one ends up with the signatures that n parties would make. -/
theorem schnorr2p_honest (ho : o.Complete S.C.curve) (h : SchnorrInputs S x me)
    (hx : S.variant = .bip340 → ∑ j, x j ≠ 0) :
    schnorr2pResult o (S.session2p pid1) (sharedKey S.job S.C.curve x 0).key2p
      (sharedKey S.job S.C.curve x 1).key2p
      (me 0) (me 1) rv =
        (.ok ((List.range S.msgs.length).map (schnorrOutput S x me)),
          .ok (List.replicate S.msgs.length [])) := by
  have hpoint : ∀ l < S.msgs.length,
      (me 0).k l • S.C.curve.generator + ((me 1).Ri S.C.curve S.msgs.length).getD l 0 =
      nonceSum me l • S.C.curve.generator := fun l hl => by
    rw [getD_points _ _ hl, nonceSum, Fin.sum_univ_two, add_smul]
  have hbatch := schnorr2p_challenges h 0 hpoint
  have hin4 : schnorr2pIn4 o (S.session2p pid1)
      (sharedKey S.job S.C.curve x 1).key2p (me 0) (me 1) rv =
      .ok ((List.range S.msgs.length).map fun l => residue (schnorrPart S x me 1 l)) := by
    rw [schnorr2pIn4, schnorr2pIn3_honest ho h, schnorr2pFourth_honest ho h]
    rfl
  rw [schnorr2pResult, schnorr2pSecond_honest h, hin4, schnorr2pIn3_honest ho h, signBatch2pP2,
    schnorr2pFourth_honest ho h]
  refine Prod.ext_iff.mpr ⟨?_, rfl⟩
  rw [signBatch2pP1, schnorr2pThird_honest ho h, ok_bind]
  simp only [SchnorrSession.session2p,
    show (sharedKey S.job S.C.curve x 0).key2p.Q = (∑ j, x j) • S.C.curve.generator from rfl,
    hbatch, arrived, ok_bind, List.length_map, List.length_range, decide_true, require_true]
  rw [List.zip_map', zip_map_range S.msgs [], zipIdx_eq_map_range _ ([], (0, 0), 0),
    List.length_map, List.length_range, List.mapM_map]
  refine mapM_ok fun l hl => ?_
  have hl := List.mem_range.mp hl
  have hsig := checkedSig_schnorrScalar h.lawful (x := ∑ j, x j) (k := nonceSum me l)
    (h.length_msg hl) hx (h.sums l hl)
  have hsum : schnorrPart S x me 0 l + schnorrPart S x me 1 l =
      schnorrScalar S.H S.C S.variant (∑ j, x j) (nonceSum me l) (S.msgs.getD l []) := by
    rw [← sum_schnorrPart, Fin.sum_univ_two]
  have hpart : schnorrPart2p (q := q) (residue (x 0))
      (residue (turned S.C S.variant (nonceSum me l • S.C.curve.generator)
      ((me 0).k l)),
      residue (turned S.C S.variant ((∑ j, x j) • S.C.curve.generator)
        (schnorrChallenge S.H S.C S.variant
        ((∑ j, x j) • S.C.curve.generator)
          (nonceSum me l • S.C.curve.generator) (S.msgs.getD l [])))) =
      .ok (residue (schnorrPart S x me 0 l)) := schnorrPart2p_eq _ _ _
  simp only [Function.comp_apply, getD_map_range _ _ hl,
    show (sharedKey S.job S.C.curve x 0).key2p.xShare = residue (x 0) from rfl,
    hpoint l hl, hpart, modAdd_residue, ok_bind, hsum, hsig]
  rfl

end Honest

section Signatures

variable {n : ℕ} {o : Oracles E D R P} [Inhabited R] [Inhabited P]

/-- The signature equation of a variant. BIP340 reads the points as those with their x-coordinates
and even y-coordinates. -/
def SchnorrEquation (H : SchnorrHashes) (C : SchnorrCurve q E) (variant : SchnorrVariant) (Q R : E)
    (msg : Bytes) (s : ZMod q) :
    Prop :=
  match variant with
  | .eddsa => s • C.curve.generator = R + schnorrChallenge (q := q) H C .eddsa Q R msg • Q
  | .bip340 => ∃ liftR liftQ, C.fromBin (2 :: binPad 32 (C.getX R).natAbs) = .ok liftR ∧
      C.fromBin (2 :: binPad 32 (C.getX Q).natAbs) = .ok liftQ ∧
      s • C.curve.generator = liftR + schnorrChallenge (q := q) H C .bip340 Q R msg • liftQ

omit [DecidableEq E] in
theorem schnorrEquation_schnorrScalar {H : SchnorrHashes} {C : SchnorrCurve q E}
    {variant : SchnorrVariant} (hC : C.Lawful H variant) {x k : ZMod q}
    (hx : variant = .bip340 → x ≠ 0) (hk : k ≠ 0) (msg : Bytes) :
    SchnorrEquation H C variant (x • C.curve.generator) (k • C.curve.generator) msg
      (schnorrScalar H C variant x k msg) := by
  have hne : ∀ {w : ZMod q}, w ≠ 0 → w • C.curve.generator ≠ 0 := fun hw h =>
    hw ((smul_generator_eq_zero C.curve).mp h)
  cases variant with
  | eddsa => exact schnorrScalar_eddsa x k msg
  | bip340 =>
    exact ⟨_, _, SchnorrCurve.Secp256k1.lift_x hC (hne hk),
      SchnorrCurve.Secp256k1.lift_x hC (hne (hx rfl)), schnorrScalar_bip340 x k msg⟩

theorem verifySig_of_checkedSig {H : SchnorrHashes} {C : SchnorrCurve q E} {Q R : E}
    {msg sig : Bytes} {s : ℤ} (h : checkedSig H C Q R msg s = .ok sig) :
    verifySig H C Q msg sig = .ok () := by
  obtain ⟨sig', -, h⟩ := bind_ok_iff.mp h
  obtain ⟨u, hver, h⟩ := bind_ok_iff.mp h
  cases h
  exact hver

theorem clearedUntilDone_error {sigs : List Bytes} {body : Outcome (List Bytes)} {e : Failure}
    (h : (clearedUntilDone sigs body).2 = .error e) : (clearedUntilDone sigs body).1 = [] := by
  cases body with
  | ok out => cases h
  | error e' => rfl

/-- Honest parties sign: every signature at the receiver satisfies the equation of its variant and
verifies, the two-party protocol gives out the same signatures, and a call that fails leaves none
behind. -/
theorem schnorr_signatures {S : SchnorrSession q E n} {key : Fin n → KeyShareMp q E}
    {me : Fin n → SchnorrParty q R} (ho : o.Complete S.C.curve)
    (hkey : ConsistentKeys S.job S.C.curve key)
    (h : SchnorrInputs S (fun i => ((key i).xShare : ZMod q)) me)
    (hQ : S.variant = .bip340 → ∀ i, (key i).Q ≠ 0) (rv : ErrorCode) (sigs : List Bytes) :
    (∃ (point : ℕ → E) (s : ℕ → ZMod q), (∀ l, point l = (∑ j, (me j).k l) • S.C.curve.generator) ∧
      (∀ i, ∀ l < S.msgs.length,
        SchnorrEquation S.H S.C S.variant (key i).Q (point l) (S.msgs.getD l []) (s l) ∧
        verifySig S.H S.C (key i).Q (S.msgs.getD l [])
          (schnorrSig S.C S.variant (point l) (s l)) = .ok ()) ∧
      ∀ i, clearedUntilDone sigs (schnorrMpResult o S key me rv i) =
        (if i = S.sigReceiver then
          (List.range S.msgs.length).map (fun l => schnorrSig S.C S.variant (point l) (s l))
          else List.replicate S.msgs.length [], .ok ())) ∧
    (∀ (T : SchnorrSession q E 2) (keyT : Fin 2 → KeyShareMp q E) (meT : Fin 2 →
      SchnorrParty q R) (pid1 : ℕ), o.Complete T.C.curve → ConsistentKeys T.job T.C.curve keyT →
      SchnorrInputs T (fun i => ((keyT i).xShare : ZMod q)) meT →
        (T.variant = .bip340 → ∀ i, (keyT i).Q ≠ 0) →
      schnorr2pResult o (T.session2p pid1) (keyT 0).key2p (keyT 1).key2p (meT 0) (meT 1) rv =
        (schnorrMpResult o T keyT meT rv T.sigReceiver, .ok (List.replicate T.msgs.length []))) ∧
    (∀ (i : Fin n) (key' : KeyShareMp q E) (me' : SchnorrParty q R) in1 in2 in3 e,
      (clearedUntilDone sigs (signBatchMp o S i key' me' in1 in2 in3)).2 = .error e →
        (clearedUntilDone sigs (signBatchMp o S i key' me' in1 in2 in3)).1 = []) ∧
    (∀ (T : SchnorrSession2p q E) (key' : SchnorrKey2p E)
      (me' : SchnorrParty q R) in1 in2 in3 in4 e,
      ((clearedUntilDone sigs (signBatch2pP1 o T key' me' in2 in4)).2 = .error e →
        (clearedUntilDone sigs (signBatch2pP1 o T key' me' in2 in4)).1 = []) ∧
      ((clearedUntilDone sigs (signBatch2pP2 o T key' me' in1 in3)).2 = .error e →
        (clearedUntilDone sigs (signBatch2pP2 o T key' me' in1 in3)).1 = [])) := by
  have hsum : ∀ {m : ℕ} {T : SchnorrSession q E m} {keyT : Fin m →
      KeyShareMp q E} {y : Fin m → ZMod q},
      (∀ i, keyT i = sharedKey T.job T.C.curve y i) → (∀ i, (keyT i).Q ≠ 0) → 0 < m → ∑ j,
        y j ≠ 0 := by
    intro m T keyT y hy hne hm hzero
    refine hne ⟨0, hm⟩ ?_
    rw [hy]
    change (∑ j, y j) • T.C.curve.generator = 0
    rw [hzero, zero_smul]
  refine ⟨?_, fun T keyT meT pid1 hoT hkeyT hT hQT => ?_,
    fun i key' me' in1 in2 in3 e => clearedUntilDone_error,
    fun T key' me' in1 in2 in3 in4 e => ⟨clearedUntilDone_error, clearedUntilDone_error⟩⟩
  · obtain ⟨x, hx⟩ := consistentKeys_iff.mp hkey
    have hshare : (fun i => ((key i).xShare : ZMod q)) = x := by
      funext i
      rw [hx i]
      exact cast_residue (x i)
    rw [hshare] at h
    have hx0 : S.variant = .bip340 → ∑ j, x j ≠ 0 := fun hv =>
      hsum hx (hQ hv) (by have := S.job.two_le; omega)
    have hkeyEq : key = sharedKey S.job S.C.curve x := funext hx
    refine ⟨fun l => nonceSum me l • S.C.curve.generator, fun l =>
      schnorrScalar S.H S.C S.variant (∑ j, x j) (nonceSum me l) (S.msgs.getD l []), fun l => rfl,
        fun i l hl => ?_, fun i => ?_⟩
    · rw [hx i]
      exact ⟨schnorrEquation_schnorrScalar h.lawful hx0 (h.sums l hl) _,
        verifySig_of_checkedSig (checkedSig_schnorrScalar h.lawful
          (h.length_msg hl) hx0 (h.sums l hl))⟩
    · rw [hkeyEq, schnorrMp_honest ho h hx0 i]
      rfl
  · obtain ⟨x, hx⟩ := consistentKeys_iff.mp hkeyT
    have hshare : (fun i => ((keyT i).xShare : ZMod q)) = x := by
      funext i
      rw [hx i]
      exact cast_residue (x i)
    rw [hshare] at hT
    have hx0 : T.variant = .bip340 → ∑ j, x j ≠ 0 := fun hv => hsum hx (hQT hv) two_pos
    have hkeyEq : keyT = sharedKey T.job T.C.curve x := funext hx
    rw [hkeyEq, schnorr2p_honest hoT hT hx0, schnorrMp_honest hoT hT hx0, if_pos rfl]

end Signatures

section Examples

/-- The smaller one of a scalar and its negation, in the place of an x-coordinate. -/
def sampleX (P : ZMod 1009) : ℕ := min P.val (1009 - P.val)

/-- The point with an x-coordinate and the parity that a tag asks for. -/
def sampleLift (odd : Bool) (x : ℕ) : Outcome (ZMod 1009) :=
  if x = 0 ∨ 504 < x then fail .crypto else .ok (if isOdd x = odd then x else -x)

/-- The scalars as a curve whose points have their own value for a y-coordinate. -/
def sampleSecp256k1 : SchnorrCurve 1009 (ZMod 1009) where
  curve := sampleCtCurve
  p := 1009
  getX P := sampleX P
  getY P := P.val
  toCompressedBin P := if P = 0 then List.replicate 33 0 else
    (if isOdd P.val then 3 else 2) :: binPad 32 (sampleX P)
  fromBin bytes := if bytes.isEmpty then fail .crypto else
    sampleLift (decide (bytes.head? = some 3)) (fromBin bytes.tail)

theorem val_neg_of_ne_zero {P : ZMod 1009} (hP : P ≠ 0) :
    (-P).val = 1009 - P.val := by rw [ZMod.neg_val, if_neg hP]

theorem sampleLift_sampleX {P : ZMod 1009} (hP : P ≠ 0) (heven : isOdd P.val = false) :
    sampleLift false (sampleX P) = .ok P := by
  have hlt := P.val_lt
  have hpos := ZMod.val_pos.mpr hP
  have heven := of_decide_eq_false heven
  have hrange : ¬(sampleX P = 0 ∨ 504 < sampleX P) := by
    rw [sampleX]
    omega
  rw [sampleLift, if_neg hrange]
  rcases le_total P.val (1009 - P.val) with hle | hle
  · have hX : sampleX P = P.val := min_eq_left hle
    rw [hX, isOdd, decide_eq_false heven, if_pos rfl, ZMod.natCast_zmod_val]
  · have hX : sampleX P = 1009 - P.val := min_eq_right hle
    have hodd : ((1009 - P.val : ℕ) : ℤ) % 2 = 1 := by omega
    have hcast : ((1009 - P.val : ℕ) : ZMod 1009) = -P := by
      rw [← val_neg_of_ne_zero hP, ZMod.natCast_zmod_val]
    rw [hX, isOdd, decide_eq_true hodd, if_neg (by decide), hcast, neg_neg]

theorem sampleSecp256k1_lawful : sampleSecp256k1.Secp256k1 where
  type := rfl
  p_odd := rfl
  p_le := by norm_num [sampleSecp256k1]
  order_le := by norm_num
  getX_range P hP := by
    have hlt := P.val_lt
    have hpos := ZMod.val_pos.mpr hP
    simp only [sampleSecp256k1, sampleX]
    omega
  getX_zero := rfl
  getY_zero := rfl
  getX_neg P := by
    by_cases hP : P = 0
    · rw [hP, neg_zero]
    · have hlt := P.val_lt
      simp only [sampleSecp256k1, sampleX, val_neg_of_ne_zero hP]
      omega
  getY_neg P hP := by
    have hlt := P.val_lt
    simp only [sampleSecp256k1, val_neg_of_ne_zero hP]
    omega
  compressed P hP := if_neg hP
  compressed_zero := rfl
  fromBin_even P hP heven := by
    have hlt : sampleX P < 256 ^ 32 :=
      lt_of_le_of_lt (min_le_left _ _) (P.val_lt.trans (by norm_num))
    simp only [sampleSecp256k1, Int.natAbs_natCast, List.isEmpty_cons, List.head?_cons,
      List.tail_cons, Bool.false_eq_true, if_false, fromBin_binPad hlt]
    exact sampleLift_sampleX hP heven
  fromBin_zero := by decide

/-- Hash functions of the right sizes. -/
def sampleSchnorrHashes : SchnorrHashes where
  sha256 m := binPad 32 (fromBin m % 251 + 1)
  sha512 m := binPad 64 (fromBin m % 251 + 1)
  ed25519Verify _ _ _ := false
  length_sha256 _ := length_binPad _ _
  length_sha512 _ := length_binPad _ _

/-- Five parties and one message of 32 bytes. -/
def sampleSchnorrSession : SchnorrSession 1009 (ZMod 1009) 5 where
  job := sampleJob
  C := sampleSecp256k1
  H := sampleSchnorrHashes
  variant := .bip340
  msgs := [List.replicate 32 7]
  sigReceiver := 3

def sampleSchnorrParty (i : Fin 5) : SchnorrParty 1009 ℕ where
  k _ := i.val + 2
  sid := List.replicate 16 0
  sid_length := length_sampleSid
  comRand := i
  localSid := []
  proofCoins := 0

/-- Shares of a key. -/
def sampleShares (first : ZMod 1009) (i : Fin 5) : ZMod 1009 := if i = 0 then first else i.val

theorem sampleSecp256k1_complete : sampleOracles.Complete sampleSecp256k1.curve :=
  ⟨sampleOracles_complete.dl, sampleOracles_complete.batch⟩

theorem sampleSchnorr_inputs {first : ZMod 1009} (hfirst : first = 2 ∨ first = -10) :
    SchnorrInputs sampleSchnorrSession (sampleShares first) sampleSchnorrParty where
  lawful := sampleSecp256k1_lawful
  msgs_ne := by decide
  msg_size _ := by decide
  nonces j _ _ := (by decide : ∀ j : Fin 5, (sampleSchnorrParty j).k 0 ≠ 0) j
  sums l _ := by
    change ∑ j, (sampleSchnorrParty j).k 0 ≠ 0
    decide
  challenges l hl := by
    obtain rfl : l = 0 := by
      change l < 1 at hl
      omega
    rcases hfirst with rfl | rfl <;> decide +kernel

/-- The key of party `i`. -/
def sampleSchnorrKey (first : ZMod 1009) (i : Fin 5) : KeyShareMp 1009 (ZMod 1009) :=
  sharedKey sampleJob sampleSecp256k1.curve (sampleShares first) i

theorem sampleSchnorrKey_consistent (first : ZMod 1009) :
    ConsistentKeys sampleJob sampleSecp256k1.curve (sampleSchnorrKey first) :=
  consistentKeys_iff.mpr ⟨sampleShares first, fun _ => rfl⟩

theorem cast_sampleSchnorrKey (first : ZMod 1009) :
    (fun i => ((sampleSchnorrKey first i).xShare : ZMod 1009)) = sampleShares first := by
  funext i
  exact cast_residue _

theorem schnorr_signatures_sample : ∃ sig : Bytes,
    schnorrMpResult sampleOracles sampleSchnorrSession (sampleSchnorrKey 2) sampleSchnorrParty
      .netGeneral 3 = .ok [sig] ∧
      bip340Verify sampleSchnorrHashes sampleSecp256k1
        ((12 : ZMod 1009) • sampleSecp256k1.curve.generator)
        (List.replicate 32 7) sig = .ok () := by
  have hinputs : SchnorrInputs sampleSchnorrSession (fun i =>
      ((sampleSchnorrKey 2 i).xShare : ZMod 1009)) sampleSchnorrParty := by
    rw [cast_sampleSchnorrKey]
    exact sampleSchnorr_inputs (.inl rfl)
  have hQ : ∀ i, (sampleSchnorrKey 2 i).Q =
    (12 : ZMod 1009) • sampleSecp256k1.curve.generator := by decide +kernel
  obtain ⟨⟨point, s, -, hver, hout⟩, -⟩ :=
    schnorr_signatures sampleSecp256k1_complete (S := sampleSchnorrSession)
    (sampleSchnorrKey_consistent 2) hinputs (fun _ i => by rw [hQ i]; decide) .netGeneral []
  have hver := (hver 3 0 (by decide)).2
  have hout := hout 3
  rw [hQ 3] at hver
  refine ⟨schnorrSig sampleSecp256k1 .bip340 (point 0) (s 0), ?_, hver⟩
  generalize schnorrMpResult sampleOracles sampleSchnorrSession (sampleSchnorrKey 2)
    sampleSchnorrParty .netGeneral 3 = result
    at hout ⊢
  cases result with
  | ok sigs => exact congrArg Except.ok (Prod.mk.inj hout).1
  | error e => cases (Prod.mk.inj hout).2

/-- Shares of zero: the parties hold consistent keys at infinity, and the receiver's call fails. -/
theorem schnorr_infinity_fails :
    ConsistentKeys sampleSchnorrSession.job sampleSchnorrSession.C.curve (sampleSchnorrKey (-10)) ∧
    SchnorrInputs sampleSchnorrSession (fun i =>
      ((sampleSchnorrKey (-10) i).xShare : ZMod 1009)) sampleSchnorrParty ∧
    schnorrMpResult sampleOracles sampleSchnorrSession (sampleSchnorrKey (-10))
      sampleSchnorrParty .netGeneral 3 =
      fail .crypto := by
  rw [cast_sampleSchnorrKey]
  exact ⟨sampleSchnorrKey_consistent (-10), sampleSchnorr_inputs (.inr rfl),
    schnorrMp_infinity sampleSecp256k1_complete (sampleSchnorr_inputs (.inr rfl)) rfl (by decide)⟩

end Examples

end CbMpc
