import CbMpc.AdditiveShare
import CbMpc.OtExtension
import CbMpc.Received
import CbMpc.UcProofsSound

/-!
# Base transfers and the whole transfer protocol

In `base_ot_protocol_pvw_ctx_t` the receiver sends a pair of points for each of its bits, and the
sender masks its two messages with points that the pair determines, one to each of two pairs of
bases. `ot_protocol_pvw_ctx_t` runs the OT extension on these transfers with the roles exchanged.
-/
namespace CbMpc

open BitString

/-- What the base transfers take from elsewhere besides: `ro::hash_curve` of the session and a
number, and the bytes of a point that are hashed. -/
structure BaseOtOracles (E : Type) extends OtOracles where
  hashCurve : List Byte → ℕ → E
  pointBytes : E → List Byte

/-- `base_ot_protocol_pvw_ctx_t::l`. -/
def baseOtL : ℕ := 128

/-- `A` and `B`. -/
structure BaseOtMsg1 (E : Type) where
  A : List E
  B : List E

/-- `U0`, `V0`, `U1` and `V1`. -/
structure BaseOtMsg2 (E : Type) where
  U0 : List E
  V0 : List (List Byte)
  U1 : List E
  V1 : List (List Byte)

/-- The random numbers for one of the two messages of a transfer, with those that `weighted_sum`
draws. -/
structure BranchCoins (q : ℕ) where
  s : ZMod q
  t : ZMod q
  biasU : ZMod q
  biasX : ZMod q

section Model

variable {q : ℕ} [hq : Fact q.Prime] {E : Type} [AddCommGroup E] [Module (ZMod q) E] [DecidableEq E]

/-- `G[b]` and `H[b]`. -/
def otBases (O : BaseOtOracles E) (curve : Curve q E) (sid : List Byte) (b : Bool) : E × E :=
  if b then (O.hashCurve sid 2, O.hashCurve sid 3) else (curve.generator, O.hashCurve sid 1)

/-- `base_ot_protocol_pvw_ctx_t::step1_R2S`. -/
def baseStep1R2S (O : BaseOtOracles E) (curve : Curve q E) (sid : List Byte) (b : Bits)
    (r : ℕ → ZMod q) : Outcome (BaseOtMsg1 E) := do
  cbAssert (decide (sid ≠ []))
  let AB ← (List.range b.count).mapM fun i => do
    let A ← curve.mul (residue (r i)) (otBases O curve sid (b.get i)).1
    let B ← curve.mul (residue (r i)) (otBases O curve sid (b.get i)).2
    Except.ok (A, B)
  .ok ⟨AB.map Prod.fst, AB.map Prod.snd⟩

/-- One of the two messages in a turn of `step2_S2R`. -/
def maskBranch (O : BaseOtOracles E) (curve : Curve q E) (sid : List Byte) (b : Bool) (A B : E)
    (x : List Byte) (ω : BranchCoins q) :
    Outcome (E × List Byte) := do
  let bases := otBases O curve sid b
  let U ← if b then weightedSum curve (residue ω.biasU) (residue ω.s) bases.1 (residue ω.t) bases.2
    else curve.mulAdd (residue ω.s) bases.2 (residue ω.t)
  let X ← weightedSum curve (residue ω.biasX) (residue ω.s) A (residue ω.t) B
  let pad ← bitlen O.toOtOracles [O.pointBytes X] baseOtL
  let V ← xorBuf pad x
  .ok (U, V)

/-- A turn of the second loop of `step2_S2R`. -/
def maskPair (O : BaseOtOracles E) (curve : Curve q E) (sid : List Byte) (A B : E)
    (x0 x1 : List Byte) (ω : Bool → BranchCoins q) :
    Outcome ((E × List Byte) × E × List Byte) := do
  checkPoint A
  checkPoint B
  let UV0 ← maskBranch O curve sid false A B x0 (ω false)
  let UV1 ← maskBranch O curve sid true A B x1 (ω true)
  .ok (UV0, UV1)

/-- `base_ot_protocol_pvw_ctx_t::step2_S2R`. -/
def baseStep2S2R (O : BaseOtOracles E) (curve : Curve q E) (sid : List Byte)
    (x0 x1 : List (List Byte)) (msg : BaseOtMsg1 E) (ω : ℕ → Bool → BranchCoins q) :
    Outcome (BaseOtMsg2 E) := do
  cbAssert (decide (sid ≠ []))
  require (decide (x0.length = x1.length)) .badArg
  require (decide (x0.length = msg.A.length)) .badArg
  require (decide (x0.length = msg.B.length)) .badArg
  forEach (fun i =>
    require (decide (8 * (x0.getD i []).length = baseOtL ∧ 8 * (x1.getD i []).length = baseOtL))
      .badArg)
    (List.range x0.length)
  let UV ← (List.range x0.length).mapM fun i =>
    maskPair O curve sid (msg.A.getD i 0) (msg.B.getD i 0) (x0.getD i []) (x1.getD i []) (ω i)
  .ok ⟨UV.map fun t => t.1.1, UV.map fun t => t.1.2, UV.map fun t => t.2.1, UV.map fun t => t.2.2⟩

/-- The masked message that the receiver takes. The families with a `cnd_copy_point` select in
constant time. -/
def selectMasked (curve : Curve q E) (b : Bool) (V1 V0 : List Byte) : Outcome (List Byte) :=
  if curve.type = .ossl then .ok (if b then V1 else V0) else ctSelectBuf b V1 V0

/-- A turn of `base_ot_protocol_pvw_ctx_t::output_R`. -/
def unmask (O : BaseOtOracles E) (curve : Curve q E) (b : Bool) (r : ZMod q) (U0 : E)
    (V0 : List Byte) (U1 : E) (V1 : List Byte) :
    Outcome (List Byte) := do
  require (decide (8 * V0.length = baseOtL ∧ 8 * V1.length = baseOtL)) .format
  checkPoint U0
  checkPoint U1
  let Vbi ← selectMasked curve b V1 V0
  let X ← curve.mul (residue r) (if b then U1 else U0)
  let pad ← bitlen O.toOtOracles [O.pointBytes X] baseOtL
  xorBuf pad Vbi

/-- `base_ot_protocol_pvw_ctx_t::output_R`. -/
def baseOutputR (O : BaseOtOracles E) (curve : Curve q E) (b : Bits) (r : ℕ → ZMod q)
    (msg : BaseOtMsg2 E) : Outcome (List (List Byte)) := do
  require (decide (b.count = msg.U0.length)) .badArg
  require (decide (b.count = msg.U1.length)) .badArg
  require (decide (b.count = msg.V0.length)) .badArg
  require (decide (b.count = msg.V1.length)) .badArg
  (List.range b.count).mapM fun i =>
    unmask O curve (b.get i) (r i) (msg.U0.getD i 0) (msg.V0.getD i [])
      (msg.U1.getD i 0) (msg.V1.getD i [])

/-- The messages and what the parties keep until the last step of `ot_protocol_pvw_ctx_t`. -/
structure PvwOt (E : Type) where
  s : Bits
  msg1 : BaseOtMsg1 E
  msg2 : BaseOtMsg2 E
  receiver : OtReceiver

/-- The random values of `ot_protocol_pvw_ctx_t`, of the sender (`s`, `r`) and of the receiver. -/
structure PvwCoins (q : ℕ) where
  s : ℕ → Byte
  r : ℕ → ZMod q
  sigma : Fin otU → Bool → List.Vector Byte 16
  base : ℕ → Bool → BranchCoins q
  pad : ℕ → Byte

/-- The seeds of `ot_protocol_pvw_ctx_t::step2_R2S`. -/
def PvwCoins.seeds (ω : PvwCoins q) (b : Bool) : List (List Byte) :=
  (List.finRange otU).map fun i => (ω.sigma i b).toList

/-- `step1_S2R` at the sender and `step2_R2S` at the receiver of `ot_protocol_pvw_ctx_t`. -/
def pvwExchange (O : BaseOtOracles E) (curve : Curve q E) (sid : List Byte) (rr : Bits)
    (l : ℕ) (ω : PvwCoins q) :
    Outcome (PvwOt E) := do
  let s := genRandomBits otU ω.s
  let msg1 ← baseStep1R2S O curve sid s ω.r
  let msg2 ← baseStep2S2R O curve sid (ω.seeds false) (ω.seeds true) msg1 ω.base
  let R ← step1R2S O.toOtOracles sid (ω.seeds false) (ω.seeds true) rr l ω.pad
  .ok ⟨s, msg1, msg2, R⟩

/-- `ot_protocol_pvw_ctx_t::step3_S2R`, of buffers or of differences. -/
def pvwStep3S2R (O : BaseOtOracles E) (curve : Curve q E) (sid : List Byte) (input : OtInput)
    (ω : PvwCoins q) (P : PvwOt E) :
    Outcome OtOutput := do
  match input with
  | .messages x0 x1 => cbAssert (decide (x0.length = x1.length))
  | .differences _ _ => .ok ()
  let sigma ← baseOutputR O curve P.s ω.r P.msg2
  step2S2RHelper O.toOtOracles sid P.s sigma input P.receiver.msg

/-- `ot_protocol_pvw_ctx_t::step3_S2R` of integers. -/
def pvwStep3S2RBn (O : BaseOtOracles E) (curve : Curve q E) (sid : List Byte) (x0 x1 : List ℤ)
    (l : ℕ) (ω : PvwCoins q) (P : PvwOt E) :
    Outcome OtOutput := do
  cbAssert (decide (x0.length = x1.length))
  let bins ← (x0.zip x1).mapM fun x => do
    let b0 ← bnToBytes x.1 (bitsToBytes l)
    let b1 ← bnToBytes x.2 (bitsToBytes l)
    Except.ok (b0, b1)
  pvwStep3S2R O curve sid (.messages (bins.map Prod.fst) (bins.map Prod.snd)) ω P

/-- `ot_protocol_pvw_ctx_t::output_R` of buffers. -/
def pvwOutputR (O : BaseOtOracles E) (P : PvwOt E) (m : ℕ) (out : OtOutput) :
    Outcome (List (List Byte)) :=
  outputR O.toOtOracles P.receiver m out.w0 out.w1

/-- `ot_protocol_pvw_ctx_t::output_R` of integers. -/
def pvwOutputRBn (O : BaseOtOracles E) (P : PvwOt E) (m : ℕ)
    (out : OtOutput) : Outcome (List ℤ) := do
  let x ← pvwOutputR O P m out
  .ok (x.map bytesToBn)

end Model

section Failing

variable {α β : Type}

/-- A loop whose turns fail with one code fails with it when some turn does. -/
theorem mapM_fail {f : α → Outcome β} {c : ErrorCode} {l : List α}
    (h : ∀ a ∈ l, (∃ b, f a = .ok b) ∨ f a = fail c)
    (hex : ∃ a ∈ l, f a = fail c) : l.mapM f = fail c := by
  induction l with
  | nil =>
    obtain ⟨a, ha, -⟩ := hex
    exact absurd ha List.not_mem_nil
  | cons a l ih =>
    rw [List.mapM_cons]
    rcases h a List.mem_cons_self with ⟨b, hb⟩ | hfail
    · have hrest : ∃ a ∈ l, f a = fail c := by
        obtain ⟨a', ha', hf⟩ := hex
        rcases List.mem_cons.mp ha' with rfl | hmem
        · rw [hb] at hf
          cases hf
        · exact ⟨a', hmem, hf⟩
      rw [hb, ok_bind, ih (fun a' ha' => h a' (List.mem_cons_of_mem a ha')) hrest]
      rfl
    · rw [hfail]
      rfl

end Failing

section Transfers

variable {q : ℕ} [hq : Fact q.Prime] {E : Type} [AddCommGroup E] [Module (ZMod q) E]
  [DecidableEq E] {O : BaseOtOracles E} {curve : Curve q E} {sid : List Byte}

/-- The point that is sent for a message. -/
def branchPoint (O : BaseOtOracles E) (curve : Curve q E) (sid : List Byte) (b : Bool)
    (ω : BranchCoins q) : E :=
  ω.s • (otBases O curve sid b).1 + ω.t • (otBases O curve sid b).2

/-- What masks a message, for the point that both parties know. -/
def pointPad (O : BaseOtOracles E) (X : E) : List Byte :=
  hashBits O.toOtOracles [O.pointBytes X] baseOtL

omit [AddCommGroup E] [DecidableEq E] in
theorem length_pointPad (X : E) : (pointPad O X).length = 16 := length_hashBits _ _ _

theorem checkPoint_fail {P : E} (h : P = 0) : checkPoint P = fail .crypto := by
  simp only [checkPoint, curveCheck, h, Bool.not_false, decide_true, Bool.and_self, if_true]
  rfl

theorem checkPoint_ok {P : E} (h : P ≠ 0) : checkPoint P = .ok () := checkPoint_ok_iff.mpr h

omit [DecidableEq E] in
theorem maskBranch_eq (b : Bool) (A B : E) {x : List Byte}
    (hx : x.length = 16) (ω : BranchCoins q) :
    maskBranch O curve sid b A B x ω =
      .ok (branchPoint O curve sid b ω, xor (pointPad O (ω.s • A + ω.t • B)) x) := by
  have hlen : (pointPad O (ω.s • A + ω.t • B)).length = x.length :=
    (length_pointPad _).trans hx.symm
  rw [pointPad] at hlen
  cases b with
  | false =>
    simp only [maskBranch, Bool.false_eq_true, if_false, mulAdd_residue,
      weightedSum_residue, ok_bind, bitlen_eq O.toOtOracles _ (by decide : 0 < baseOtL),
      xorBuf_eq hlen]
    rfl
  | true =>
    simp only [maskBranch, if_true, weightedSum_residue, ok_bind,
      bitlen_eq O.toOtOracles _ (by decide : 0 < baseOtL), xorBuf_eq hlen]
    rfl

/-- The points that the receiver sends for bit `i`. -/
def choicePoints (O : BaseOtOracles E) (curve : Curve q E) (sid : List Byte) (b : Bits)
    (r : ℕ → ZMod q) (i : ℕ) : E × E :=
  (r i • (otBases O curve sid (b.get i)).1, r i • (otBases O curve sid (b.get i)).2)

omit [DecidableEq E] in
theorem baseStep1R2S_eq (hsid : sid ≠ []) (b : Bits) (r : ℕ → ZMod q) :
    baseStep1R2S O curve sid b r =
    .ok ⟨(List.range b.count).map fun i => (choicePoints O curve sid b r i).1,
      (List.range b.count).map fun i => (choicePoints O curve sid b r i).2⟩ := by
  rw [baseStep1R2S, decide_eq_true hsid, cbAssert_true, ok_bind]
  simp only [mul_residue, ok_bind]
  rw [mapM_ok fun i _ => rfl, ok_bind, List.map_map, List.map_map]
  rfl

variable {b : Bits} {r : ℕ → ZMod q} {x0 x1 : List (List Byte)} {ω : ℕ → Bool → BranchCoins q}

/-- The messages of a transfer are as long as the code wants them. -/
structure TransferInputs (count : ℕ) (x0 x1 : List (List Byte)) : Prop where
  length0 : x0.length = count
  length1 : x1.length = count
  size0 : ∀ i < count, (x0.getD i []).length = 16
  size1 : ∀ i < count, (x1.getD i []).length = 16

/-- The second message for an honest first one. -/
def honestMsg2 (O : BaseOtOracles E) (curve : Curve q E) (sid : List Byte) (b : Bits)
    (r : ℕ → ZMod q) (x0 x1 : List (List Byte)) (ω : ℕ → Bool → BranchCoins q) : BaseOtMsg2 E where
  U0 := (List.range b.count).map fun i => branchPoint O curve sid false (ω i false)
  V0 := (List.range b.count).map fun i =>
    xor (pointPad O ((ω i false).s • (choicePoints O curve sid b r i).1 +
    (ω i false).t • (choicePoints O curve sid b r i).2)) (x0.getD i [])
  U1 := (List.range b.count).map fun i => branchPoint O curve sid true (ω i true)
  V1 := (List.range b.count).map fun i =>
    xor (pointPad O ((ω i true).s • (choicePoints O curve sid b r i).1 +
    (ω i true).t • (choicePoints O curve sid b r i).2)) (x1.getD i [])

theorem maskPair_eq {A B : E} (hA : A ≠ 0) (hB : B ≠ 0) {x0 x1 : List Byte}
    (h0 : x0.length = 16) (h1 : x1.length = 16) (ω : Bool → BranchCoins q) :
    maskPair O curve sid A B x0 x1 ω =
    .ok ((branchPoint O curve sid false (ω false),
      xor (pointPad O ((ω false).s • A + (ω false).t • B)) x0),
      branchPoint O curve sid true (ω true),
      xor (pointPad O ((ω true).s • A + (ω true).t • B)) x1) := by
  rw [maskPair, checkPoint_ok hA, ok_bind, checkPoint_ok hB, ok_bind,
    maskBranch_eq false A B h0, ok_bind, maskBranch_eq true A B h1, ok_bind]

theorem maskPair_fail {A B : E} (h : ¬(A ≠ 0 ∧ B ≠ 0)) (x0 x1 : List Byte)
    (ω : Bool → BranchCoins q) :
    maskPair O curve sid A B x0 x1 ω = fail .crypto := by
  rw [maskPair]
  by_cases hA : A = 0
  · rw [checkPoint_fail hA]
    rfl
  · have hB : B = 0 := by
      by_contra hB
      exact h ⟨hA, hB⟩
    rw [checkPoint_ok hA, ok_bind, checkPoint_fail hB]
    rfl

/-- The checks in front of the loop of `step2_S2R` pass. -/
theorem baseStep2S2R_loop (hsid : sid ≠ []) (hx : TransferInputs b.count x0 x1) {msg : BaseOtMsg1 E}
    (hA : msg.A.length = b.count) (hB : msg.B.length = b.count) :
    baseStep2S2R O curve sid x0 x1 msg ω = (do
      let UV ← (List.range b.count).mapM fun i =>
        maskPair O curve sid (msg.A.getD i 0) (msg.B.getD i 0) (x0.getD i []) (x1.getD i []) (ω i)
      .ok ⟨UV.map fun t => t.1.1, UV.map fun t => t.1.2, UV.map fun t => t.2.1,
          UV.map fun t => t.2.2⟩) := by
  have hsizes : forEach (fun i =>
      require (decide (8 * (x0.getD i []).length = baseOtL ∧ 8 * (x1.getD i []).length = baseOtL))
        .badArg)
      (List.range b.count) = .ok () := by
    refine forEach_ok_iff.mpr fun i hi => ?_
    rw [hx.size0 i (List.mem_range.mp hi), hx.size1 i (List.mem_range.mp hi)]
    rfl
  rw [baseStep2S2R, decide_eq_true hsid, cbAssert_true, ok_bind, hx.length0, hx.length1, hA, hB]
  simp only [decide_true, require_true, ok_bind, hsizes]

/-- Neither point of the receiver's is at infinity. -/
def FiniteChoice (O : BaseOtOracles E) (curve : Curve q E) (sid : List Byte) (b : Bits)
    (r : ℕ → ZMod q) : Prop :=
  ∀ i < b.count, (choicePoints O curve sid b r i).1 ≠ 0 ∧ (choicePoints O curve sid b r i).2 ≠ 0

theorem baseStep2S2R_eq (hsid : sid ≠ []) (hx : TransferInputs b.count x0 x1) {msg : BaseOtMsg1 E}
    (hmsg : baseStep1R2S O curve sid b r = .ok msg) (hfinite : FiniteChoice O curve sid b r) :
    baseStep2S2R O curve sid x0 x1 msg ω = .ok (honestMsg2 O curve sid b r x0 x1 ω) := by
  rw [baseStep1R2S_eq hsid] at hmsg
  obtain rfl := Except.ok.inj hmsg
  rw [baseStep2S2R_loop hsid hx (by simp) (by simp), mapM_ok fun i hi => by
    have hlt := List.mem_range.mp hi
    rw [getD_map_range _ _ hlt, getD_map_range _ _ hlt,
      maskPair_eq (hfinite i hlt).1 (hfinite i hlt).2 (hx.size0 i hlt) (hx.size1 i hlt)]]
  simp only [ok_bind, List.map_map]
  rfl

theorem baseStep2S2R_fail (hsid : sid ≠ []) (hx : TransferInputs b.count x0 x1) {msg : BaseOtMsg1 E}
    (hmsg : baseStep1R2S O curve sid b r = .ok msg) (hfinite : ¬FiniteChoice O curve sid b r) :
    baseStep2S2R O curve sid x0 x1 msg ω = fail .crypto := by
  rw [baseStep1R2S_eq hsid] at hmsg
  obtain rfl := Except.ok.inj hmsg
  rw [baseStep2S2R_loop hsid hx (by simp) (by simp), mapM_fail (c := .crypto)]
  · rfl
  · intro i hi
    have hlt := List.mem_range.mp hi
    rw [getD_map_range _ _ hlt, getD_map_range _ _ hlt]
    by_cases hi' : (choicePoints O curve sid b r i).1 ≠ 0 ∧ (choicePoints O curve sid b r i).2 ≠ 0
    · exact .inl ⟨_, maskPair_eq hi'.1 hi'.2 (hx.size0 i hlt) (hx.size1 i hlt) _⟩
    · exact .inr (maskPair_fail hi' _ _ _)
  · obtain ⟨i, hi⟩ := not_forall.mp hfinite
    obtain ⟨hlt, hi⟩ := Classical.not_imp.mp hi
    refine ⟨i, List.mem_range.mpr hlt, ?_⟩
    rw [getD_map_range _ _ hlt, getD_map_range _ _ hlt]
    exact maskPair_fail hi _ _ _

/-- No point of the sender's is at infinity. -/
def FinitePoints (O : BaseOtOracles E) (curve : Curve q E) (sid : List Byte) (count : ℕ)
    (ω : ℕ → Bool → BranchCoins q) : Prop :=
  ∀ i < count, branchPoint O curve sid false (ω i false) ≠ 0 ∧
    branchPoint O curve sid true (ω i true) ≠ 0

omit [DecidableEq E] in
/-- The receiver knows the point that masks the message it chose. -/
theorem chosenPoint_eq (b : Bits) (r : ℕ → ZMod q) (i : ℕ) (ω : BranchCoins q) :
    r i • branchPoint O curve sid (b.get i) ω =
      ω.s • (choicePoints O curve sid b r i).1 + ω.t • (choicePoints O curve sid b r i).2 := by
  rw [branchPoint, choicePoints, smul_add, smul_comm (r i), smul_comm (r i)]

theorem unmask_eq (c : Bool) (r : ZMod q) {U0 U1 : E} (h0 : U0 ≠ 0) (h1 : U1 ≠ 0)
    {V0 V1 : List Byte} (hV0 : V0.length = 16) (hV1 : V1.length = 16) :
    unmask O curve c r U0 V0 U1 V1 =
      .ok (xor (pointPad O (r • if c then U1 else U0)) (if c then V1 else V0)) := by
  have hsizes : 8 * V0.length = baseOtL ∧ 8 * V1.length = baseOtL := by
    rw [hV0, hV1]
    exact ⟨rfl, rfl⟩
  have hselect : selectMasked curve c V1 V0 = .ok (if c then V1 else V0) := by
    rw [selectMasked]
    split
    · rfl
    · rw [ctSelectBuf, select_eq (hV1.trans hV0.symm), hV0, hV1]
      rfl
  have hlen : (pointPad O (r • if c then U1 else U0)).length = (if c then V1 else V0).length := by
    rw [length_pointPad]
    split
    · exact hV1.symm
    · exact hV0.symm
  rw [unmask, decide_eq_true hsizes, require_true, ok_bind, checkPoint_ok h0, ok_bind,
    checkPoint_ok h1, ok_bind, hselect, ok_bind, mul_residue, ok_bind,
    bitlen_eq _ _ (by decide : 0 < baseOtL), ok_bind]
  exact xorBuf_eq hlen

theorem unmask_fail (c : Bool) (r : ZMod q) {U0 U1 : E} (h : ¬(U0 ≠ 0 ∧ U1 ≠ 0))
    {V0 V1 : List Byte} (hV0 : V0.length = 16) (hV1 : V1.length = 16) :
    unmask O curve c r U0 V0 U1 V1 = fail .crypto := by
  have hsizes : 8 * V0.length = baseOtL ∧ 8 * V1.length = baseOtL := by
    rw [hV0, hV1]
    exact ⟨rfl, rfl⟩
  rw [unmask, decide_eq_true hsizes, require_true, ok_bind]
  by_cases h0 : U0 = 0
  · rw [checkPoint_fail h0]
    rfl
  · have h1 : U1 = 0 := by
      by_contra h1
      exact h ⟨h0, h1⟩
    rw [checkPoint_ok h0, ok_bind, checkPoint_fail h1]
    rfl

omit [AddCommGroup E] [DecidableEq E] in
theorem length_honestV (X : E) {x : List Byte} (hx : x.length = 16) :
    (xor (pointPad O X) x).length = 16 := by
  rw [length_xor, length_pointPad, hx, min_self]

theorem baseOutputR_loop (msg : BaseOtMsg2 E) (hmsg : msg = honestMsg2 O curve sid b r x0 x1 ω) :
    baseOutputR O curve b r msg = (List.range b.count).mapM fun i =>
      unmask O curve (b.get i) (r i) (msg.U0.getD i 0) (msg.V0.getD i []) (msg.U1.getD i 0)
          (msg.V1.getD i []) := by
  subst hmsg
  simp only [baseOutputR, honestMsg2, List.length_map, List.length_range, decide_true,
    require_true, ok_bind]

/-- The receiver of the base transfers gets the messages that it chose. -/
theorem baseOutputR_eq (hx : TransferInputs b.count x0 x1)
    (hfinite : FinitePoints O curve sid b.count ω) :
    baseOutputR O curve b r (honestMsg2 O curve sid b r x0 x1 ω) =
      .ok ((List.range b.count).map fun i => if b.get i then x1.getD i [] else x0.getD i []) := by
  rw [baseOutputR_loop _ rfl]
  refine mapM_ok fun i hi => ?_
  have hlt := List.mem_range.mp hi
  simp only [honestMsg2, getD_map_range _ _ hlt]
  rw [unmask_eq _ _ (hfinite i hlt).1 (hfinite i hlt).2 (length_honestV _ (hx.size0 i hlt))
    (length_honestV _ (hx.size1 i hlt))]
  have hpoint := @chosenPoint_eq q hq E _ _ O curve sid b r i
  cases hc : b.get i with
  | false =>
    rw [hc] at hpoint
    simp only [Bool.false_eq_true, if_false]
    rw [hpoint, xor_xor_cancel ((length_pointPad _).trans (hx.size0 i hlt).symm)]
  | true =>
    rw [hc] at hpoint
    simp only [if_true]
    rw [hpoint, xor_xor_cancel ((length_pointPad _).trans (hx.size1 i hlt).symm)]

theorem baseOutputR_fail (hx : TransferInputs b.count x0 x1)
    (hfinite : ¬FinitePoints O curve sid b.count ω) :
    baseOutputR O curve b r (honestMsg2 O curve sid b r x0 x1 ω) = fail .crypto := by
  rw [baseOutputR_loop _ rfl]
  apply mapM_fail
  · intro i hi
    have hlt := List.mem_range.mp hi
    simp only [honestMsg2, getD_map_range _ _ hlt]
    by_cases hi' : branchPoint O curve sid false (ω i false) ≠ 0 ∧
      branchPoint O curve sid true (ω i true) ≠ 0
    · exact .inl ⟨_, unmask_eq _ _ hi'.1 hi'.2 (length_honestV _ (hx.size0 i hlt))
        (length_honestV _ (hx.size1 i hlt))⟩
    · exact .inr (unmask_fail _ _ hi' (length_honestV _ (hx.size0 i hlt))
        (length_honestV _ (hx.size1 i hlt)))
  · obtain ⟨i, hi⟩ := not_forall.mp hfinite
    obtain ⟨hlt, hi⟩ := Classical.not_imp.mp hi
    refine ⟨i, List.mem_range.mpr hlt, ?_⟩
    simp only [honestMsg2, getD_map_range _ _ hlt]
    exact unmask_fail _ _ hi (length_honestV _ (hx.size0 i hlt)) (length_honestV _ (hx.size1 i hlt))

end Transfers

section Protocol

variable {q : ℕ} [hq : Fact q.Prime] {E : Type} [AddCommGroup E] [Module (ZMod q) E]
  [DecidableEq E] {O : BaseOtOracles E} {curve : Curve q E} {sid : List Byte} {rr : Bits}
  {l : ℕ} {ω : PvwCoins q}

section

omit hq

theorem PvwCoins.length_seeds (ω : PvwCoins q) (b : Bool) : (ω.seeds b).length = otU := by
  rw [seeds, List.length_map, List.length_finRange]

theorem PvwCoins.seed_size (ω : PvwCoins q) (b : Bool) {i : ℕ} (hi : i < otU) :
    ((ω.seeds b).getD i []).length = 16 := by
  have hmem : (ω.seeds b).getD i [] ∈ ω.seeds b := by
    rw [List.getD_eq_getElem _ _ (by rwa [ω.length_seeds])]
    exact List.getElem_mem _
  obtain ⟨j, -, hj⟩ := List.mem_map.mp hmem
  rw [← hj]
  exact List.Vector.toList_length _

theorem PvwCoins.inputs (ω : PvwCoins q) : TransferInputs otU (ω.seeds false) (ω.seeds true) where
  length0 := ω.length_seeds false
  length1 := ω.length_seeds true
  size0 _ hi := ω.seed_size false hi
  size1 _ hi := ω.seed_size true hi

end

/-- The seeds that the sender has chosen. -/
def PvwCoins.chosen (ω : PvwCoins q) : List (List Byte) := (List.range otU).map fun i =>
  if (genRandomBits otU ω.s).get i then (ω.seeds true).getD i [] else (ω.seeds false).getD i []

omit hq in
theorem PvwCoins.baseOt (ω : PvwCoins q) :
    BaseOt (genRandomBits otU ω.s) (ω.seeds false) (ω.seeds true) ω.chosen where
  count := rfl
  length0 := ω.length_seeds false
  length1 := ω.length_seeds true
  length := by rw [chosen, List.length_map, List.length_range]
  seed0 i hi := by rw [ω.seed_size false hi]
  seed1 i hi := by rw [ω.seed_size true hi]
  chosen i hi := getD_map_range _ _ hi

/-- No point that is checked in a run is at infinity. -/
structure FiniteRun (O : BaseOtOracles E) (curve : Curve q E) (sid : List Byte)
    (ω : PvwCoins q) : Prop where
  choice : FiniteChoice O curve sid (genRandomBits otU ω.s) ω.r
  points : FinitePoints O curve sid otU ω.base

/-- What has been sent when the sender's inputs are needed. -/
def honestPvw (O : BaseOtOracles E) (curve : Curve q E) (sid : List Byte) (rr : Bits) (l : ℕ)
    (ω : PvwCoins q) : PvwOt E where
  s := genRandomBits otU ω.s
  msg1 := ⟨(List.range otU).map fun i => (choicePoints O curve sid (genRandomBits otU ω.s) ω.r i).1,
    (List.range otU).map fun i => (choicePoints O curve sid (genRandomBits otU ω.s) ω.r i).2⟩
  msg2 := honestMsg2 O curve sid (genRandomBits otU ω.s) ω.r (ω.seeds false) (ω.seeds true) ω.base
  receiver := honestReceiver O.toOtOracles sid (ω.seeds false) (ω.seeds true) rr l ω.pad

theorem pvwExchange_eq (hsid : sid ≠ [])
    (hchoice : FiniteChoice O curve sid (genRandomBits otU ω.s) ω.r) :
    pvwExchange O curve sid rr l ω = .ok (honestPvw O curve sid rr l ω) := by
  rw [pvwExchange, baseStep1R2S_eq hsid, ok_bind,
    baseStep2S2R_eq hsid ω.inputs (baseStep1R2S_eq hsid _ _) hchoice, ok_bind,
    step1R2S_eq ω.baseOt, ok_bind]
  rfl

theorem pvwExchange_fail (hsid : sid ≠ [])
    (hchoice : ¬FiniteChoice O curve sid (genRandomBits otU ω.s) ω.r) :
    pvwExchange O curve sid rr l ω = fail .crypto := by
  rw [pvwExchange, baseStep1R2S_eq hsid, ok_bind,
    baseStep2S2R_fail hsid ω.inputs (baseStep1R2S_eq hsid _ _) hchoice]
  rfl

/-- Messages come in pairs. -/
def OtInput.Paired : OtInput → Prop
  | .messages x0 x1 => x0.length = x1.length
  | .differences _ _ => True

theorem pvwStep3S2R_base {input : OtInput} (h : input.Paired) (P : PvwOt E) :
    pvwStep3S2R O curve sid input ω P = (do
    let sigma ← baseOutputR O curve P.s ω.r P.msg2
    step2S2RHelper O.toOtOracles sid P.s sigma input P.receiver.msg) := by
  cases input with
  | messages x0 x1 =>
    have hlen : x0.length = x1.length := h
    simp only [pvwStep3S2R, decide_eq_true hlen, cbAssert_true, ok_bind]
  | differences delta p => rfl

/-- With the base transfers done the protocol is the OT extension. -/
theorem pvwStep3S2R_eq {input : OtInput} (h : input.Paired)
    (hpoints : FinitePoints O curve sid otU ω.base) :
    pvwStep3S2R O curve sid input ω (honestPvw O curve sid rr l ω) =
      step2S2RHelper O.toOtOracles sid (genRandomBits otU ω.s) ω.chosen
      input (honestReceiver O.toOtOracles sid (ω.seeds false) (ω.seeds true) rr l ω.pad).msg := by
  rw [pvwStep3S2R_base h]
  simp only [honestPvw, baseOutputR_eq (b := genRandomBits otU ω.s) ω.inputs hpoints, ok_bind]
  rfl

theorem pvwStep3S2R_fail {input : OtInput} (h : input.Paired)
    (hpoints : ¬FinitePoints O curve sid otU ω.base) :
    pvwStep3S2R O curve sid input ω (honestPvw O curve sid rr l ω) = fail .crypto := by
  rw [pvwStep3S2R_base h]
  simp only [honestPvw, baseOutputR_fail (b := genRandomBits otU ω.s) ω.inputs hpoints]
  rfl

/-- What the receiver gets: the message that it chose. -/
def chosenOf {α : Type} (rr : Bits) (x0 x1 : List α) (d : α) : List α :=
  (List.range rr.count).map fun i => if rr.get i then x1.getD i d else x0.getD i d

theorem bnToBytes_eq {v : ℤ} {size : ℕ} (h0 : 0 ≤ v) (hv : v < 256 ^ size) :
    bnToBytes v size = .ok ((binPad size v.natAbs).map BitVec.ofFin) ∧
    bytesToBn ((binPad size v.natAbs).map BitVec.ofFin) = v := by
  have hcast : (v.natAbs : ℤ) = v := Int.natAbs_of_nonneg h0
  have hfit : v.natAbs < 256 ^ size := by
    rw [← hcast] at hv
    exact_mod_cast hv
  have hsize : getBinSize v ≤ size := getBinSize_le_of_natAbs_lt hfit
  constructor
  · rw [bnToBytes, toBin, decide_eq_true hsize]
    rfl
  · rw [bytesToBn_ofFin, fromBin_binPad hfit, hcast]

theorem pvw_messages (hm : 0 < rr.count) (hl : 0 < l)
    (hpoints : FinitePoints O curve sid otU ω.base) {x0 x1 : List (List Byte)}
    (h0 : x0.length = rr.count) (h1 : x1.length = rr.count)
    (hs0 : ∀ x ∈ x0, x.length = bitsToBytes l) (hs1 : ∀ x ∈ x1, x.length = bitsToBytes l) :
    ∃ out, pvwStep3S2R O curve sid (.messages x0 x1) ω (honestPvw O curve sid rr l ω) = .ok out ∧
      pvwOutputR O (honestPvw O curve sid rr l ω) rr.count out = .ok (chosenOf rr x0 x1 []) := by
  obtain ⟨out, hout, hx⟩ :=
    delivers_messages (O := O.toOtOracles) ω.baseOt sid hm hl ω.pad h0 h1 hs0 hs1
  have hpaired : (OtInput.messages x0 x1).Paired := h0.trans h1.symm
  exact ⟨out, (pvwStep3S2R_eq hpaired hpoints).trans hout, hx⟩

theorem length_integerBytes (size : ℕ) (v : ℤ) :
    ((binPad size v.natAbs).map BitVec.ofFin : List Byte).length = size := by
  rw [List.length_map, length_binPad]

theorem pvw_integers (hm : 0 < rr.count) (hl : 0 < l)
    (hpoints : FinitePoints O curve sid otU ω.base) {x0 x1 : List ℤ} (h0 : x0.length = rr.count)
    (h1 : x1.length = rr.count) (hs0 : ∀ v ∈ x0, 0 ≤ v ∧ v < 256 ^ bitsToBytes l)
    (hs1 : ∀ v ∈ x1, 0 ≤ v ∧ v < 256 ^ bitsToBytes l) :
    ∃ out, pvwStep3S2RBn O curve sid x0 x1 l ω (honestPvw O curve sid rr l ω) = .ok out ∧
      pvwOutputRBn O (honestPvw O curve sid rr l ω) rr.count out = .ok (chosenOf rr x0 x1 0) := by
  let bytes : ℤ → List Byte := fun v => (binPad (bitsToBytes l) v.natAbs).map BitVec.ofFin
  have hback : ∀ {x : List ℤ}, (∀ v ∈ x, 0 ≤ v ∧ v < 256 ^ bitsToBytes l) → ∀ i < x.length,
      bytesToBn ((x.map bytes).getD i []) = x.getD i 0 := by
    intro x hx i hi
    obtain ⟨hv0, hv⟩ := hx _ (List.getElem_mem hi)
    rw [List.getD_eq_getElem _ _ (by rwa [List.length_map]), List.getD_eq_getElem _ _ hi,
      List.getElem_map]
    exact (bnToBytes_eq hv0 hv).2
  have hbins : ((x0.zip x1).mapM fun x => do
      let b0 ← bnToBytes x.1 (bitsToBytes l)
      let b1 ← bnToBytes x.2 (bitsToBytes l)
      Except.ok (b0, b1)) = .ok ((x0.zip x1).map fun x => (bytes x.1, bytes x.2)) := by
    refine mapM_ok fun x hx => ?_
    obtain ⟨hx0, hx1⟩ := List.of_mem_zip hx
    rw [(bnToBytes_eq (hs0 _ hx0).1 (hs0 _ hx0).2).1, ok_bind,
      (bnToBytes_eq (hs1 _ hx1).1 (hs1 _ hx1).2).1, ok_bind]
  have hsizes : ∀ (x : List ℤ), ∀ y ∈ x.map bytes, y.length = bitsToBytes l := by
    intro x y hy
    obtain ⟨v, -, rfl⟩ := List.mem_map.mp hy
    exact length_integerBytes _ _
  obtain ⟨out, hout, hx⟩ :=
    pvw_messages hm hl hpoints ((List.length_map _).trans h0)
      ((List.length_map _).trans h1) (hsizes x0) (hsizes x1)
  have hfst : ((x0.zip x1).map fun x => (bytes x.1, bytes x.2)).map Prod.fst = x0.map bytes := by
    rw [List.map_map]
    exact (List.map_map (f := Prod.fst) (g := bytes)).symm.trans
      (congrArg _ (List.map_fst_zip (by rw [h0, h1])))
  have hsnd : ((x0.zip x1).map fun x => (bytes x.1, bytes x.2)).map Prod.snd = x1.map bytes := by
    rw [List.map_map]
    exact (List.map_map (f := Prod.snd) (g := bytes)).symm.trans
      (congrArg _ (List.map_snd_zip (by rw [h0, h1])))
  refine ⟨out, ?_, ?_⟩
  · rw [pvwStep3S2RBn, decide_eq_true (h0.trans h1.symm), cbAssert_true, ok_bind, hbins, ok_bind,
      hfst, hsnd, hout]
  · rw [pvwOutputRBn, hx, ok_bind, chosenOf, List.map_map]
    refine congrArg Except.ok (List.map_congr_left fun i hi => ?_)
    have hlt := List.mem_range.mp hi
    rw [Function.comp_apply, apply_ite bytesToBn, hback hs0 i (by omega), hback hs1 i (by omega)]

theorem pvw_differences (hl : 0 < l) (hpoints : FinitePoints O curve sid otU ω.base)
    {delta : List ℤ} {p : ℕ} (hd : delta.length = rr.count) (hp : getBinSize p = bitsToBytes l) :
    NoCode (pvwStep3S2R O curve sid (.differences delta p) ω (honestPvw O curve sid rr l ω)) ∧
      ∀ out, pvwStep3S2R O curve sid (.differences delta p) ω
        (honestPvw O curve sid rr l ω) = .ok out →
        ∃ x, pvwOutputRBn O (honestPvw O curve sid rr l ω) rr.count out = .ok x ∧ ∀ i < rr.count,
          out.x1Out.getD i 0 = (out.x0Out.getD i 0 + delta.getD i 0) % p ∧
            x.getD i 0 = if rr.get i then out.x1Out.getD i 0 else out.x0Out.getD i 0 := by
  obtain ⟨hcode, hout⟩ := delivers_differences (O := O.toOtOracles) ω.baseOt sid hl hp ω.pad hd
  have hpaired : (OtInput.differences delta p).Paired := trivial
  rw [pvwStep3S2R_eq hpaired hpoints]
  refine ⟨hcode, fun out h => ?_⟩
  obtain ⟨x, hx, hvalue⟩ := hout out h
  refine ⟨x.map bytesToBn, ?_, fun i hi => ?_⟩
  · rw [pvwOutputRBn, pvwOutputR]
    exact congrArg (· >>= fun x : List (List Byte) => .ok (x.map bytesToBn)) hx
  · obtain ⟨hsum, hchosen⟩ := hvalue i hi
    refine ⟨hsum, ?_⟩
    rw [← hchosen]
    exact List.getD_map x [] bytesToBn

/-- In a run of the whole protocol the receiver gets what it chose, unless one of the random points
is at infinity. Then a check fails on one of the two sides. -/
theorem pvwOt_delivers (O : BaseOtOracles E) (curve : Curve q E) (hsid : sid ≠ [])
    (hm : 0 < rr.count) (hl : 0 < l) (ω : PvwCoins q) :
    (FiniteRun O curve sid ω → ∃ P, pvwExchange O curve sid rr l ω = .ok P ∧
      (∀ x0 x1 : List (List Byte), x0.length = rr.count → x1.length = rr.count →
        (∀ x ∈ x0, x.length = bitsToBytes l) →
        (∀ x ∈ x1, x.length = bitsToBytes l) → ∃ out,
          pvwStep3S2R O curve sid (.messages x0 x1) ω P = .ok out ∧
          pvwOutputR O P rr.count out = .ok (chosenOf rr x0 x1 [])) ∧
      (∀ x0 x1 : List ℤ, x0.length = rr.count → x1.length = rr.count →
        (∀ v ∈ x0, 0 ≤ v ∧ v < 256 ^ bitsToBytes l) →
        (∀ v ∈ x1, 0 ≤ v ∧ v < 256 ^ bitsToBytes l) → ∃ out,
          pvwStep3S2RBn O curve sid x0 x1 l ω P = .ok out ∧
          pvwOutputRBn O P rr.count out = .ok (chosenOf rr x0 x1 0)) ∧
      ∀ (delta : List ℤ) (p : ℕ), delta.length = rr.count → getBinSize p = bitsToBytes l →
        NoCode (pvwStep3S2R O curve sid (.differences delta p) ω P) ∧
          ∀ out, pvwStep3S2R O curve sid (.differences delta p) ω P = .ok out →
            ∃ x, pvwOutputRBn O P rr.count out = .ok x ∧ ∀ i < rr.count,
              out.x1Out.getD i 0 = (out.x0Out.getD i 0 + delta.getD i 0) % p ∧
                x.getD i 0 = if rr.get i then out.x1Out.getD i 0 else out.x0Out.getD i 0) ∧
    (¬FiniteRun O curve sid ω → pvwExchange O curve sid rr l ω = fail .crypto ∨ ∃ P,
      pvwExchange O curve sid rr l ω = .ok P ∧
      ∀ input : OtInput, input.Paired → pvwStep3S2R O curve sid input ω P = fail .crypto) := by
  constructor
  · intro hfinite
    refine ⟨_, pvwExchange_eq hsid hfinite.choice, ?_, ?_, ?_⟩
    · intro x0 x1 h0 h1 hs0 hs1
      exact pvw_messages hm hl hfinite.points h0 h1 hs0 hs1
    · intro x0 x1 h0 h1 hs0 hs1
      exact pvw_integers hm hl hfinite.points h0 h1 hs0 hs1
    · intro delta p hd hp
      exact pvw_differences hl hfinite.points hd hp
  · intro hfinite
    by_cases hchoice : FiniteChoice O curve sid (genRandomBits otU ω.s) ω.r
    · have hpoints : ¬FinitePoints O curve sid otU ω.base := fun h => hfinite ⟨hchoice, h⟩
      exact .inr ⟨_, pvwExchange_eq hsid hchoice, fun input hpaired =>
        pvwStep3S2R_fail hpaired hpoints⟩
    · exact .inl (pvwExchange_fail hsid hchoice)

end Protocol

/-- Bases whose logarithms are one, two and three. -/
def samplePvwOracles : BaseOtOracles (ZMod 1009) where
  toOtOracles := sampleOtOracles
  hashCurve _ i := i
  pointBytes X := [BitVec.ofNat 8 X.val]

def samplePvwCoins : PvwCoins 1009 where
  s _ := 0
  r _ := 1
  sigma _ _ := List.Vector.replicate 16 5
  base _ _ := ⟨1, 1, 0, 0⟩
  pad _ := 7

theorem samplePvw_finite : FiniteRun samplePvwOracles sampleCurve [1] samplePvwCoins where
  choice i _ := by
    have hbases : ∀ b, (otBases samplePvwOracles sampleCurve [1] b).1 ≠ 0 ∧
        (otBases samplePvwOracles sampleCurve [1] b).2 ≠ 0 := by
      decide
    have hi := hbases ((genRandomBits otU samplePvwCoins.s).get i)
    exact ⟨smul_ne_zero one_ne_zero hi.1, smul_ne_zero one_ne_zero hi.2⟩
  points _ _ := (by decide : branchPoint samplePvwOracles sampleCurve [1] false ⟨1, 1, 0, 0⟩ ≠ 0 ∧
    branchPoint samplePvwOracles sampleCurve [1] true ⟨1, 1, 0, 0⟩ ≠ 0)

theorem pvwOt_delivers_sample : ∃ P out,
    pvwExchange samplePvwOracles sampleCurve [1] ⟨3, [5], rfl⟩ 12 samplePvwCoins = .ok P ∧
      pvwStep3S2R samplePvwOracles sampleCurve [1]
        (.messages [[1, 1], [2, 2], [3, 3]] [[4, 4], [5, 5], [6, 6]]) samplePvwCoins P =
        .ok out ∧ pvwOutputR samplePvwOracles P 3 out = .ok [[4, 4], [2, 2], [6, 6]] := by
  obtain ⟨hruns, -⟩ := @pvwOt_delivers 1009 _ (ZMod 1009) _ _ _ [1] ⟨3, [5], rfl⟩ 12
    samplePvwOracles sampleCurve (by decide) (by decide)
    (by decide) samplePvwCoins
  obtain ⟨P, hP, hmessages, -⟩ := hruns samplePvw_finite
  obtain ⟨out, hout, hx⟩ :=
    hmessages [[1, 1], [2, 2], [3, 3]] [[4, 4], [5, 5], [6, 6]] rfl rfl (by decide) (by decide)
  exact ⟨P, out, hP, hout, hx⟩

section Privacy

variable {q : ℕ} [hq : Fact q.Prime] {E : Type} [AddCommGroup E]
  [Module (ZMod q) E] {O : BaseOtOracles E} {curve : Curve q E} {sid : List Byte}

/-- Two linear forms in two unknowns that are not proportional take each pair of values once. -/
theorem exists_unique_coins {g h a b : ZMod q} (hdet : g * b - h * a ≠ 0) (u x : ZMod q) :
    ∃! st : ZMod q × ZMod q, st.1 * g + st.2 * h = u ∧ st.1 * a + st.2 * b = x := by
  refine ⟨((u * b - x * h) / (g * b - h * a), (x * g - u * a) / (g * b - h * a)), ⟨?_, ?_⟩, ?_⟩
  · rw [div_mul_eq_mul_div, div_mul_eq_mul_div, ← add_div, div_eq_iff hdet]
    ring
  · rw [div_mul_eq_mul_div, div_mul_eq_mul_div, ← add_div, div_eq_iff hdet]
    ring
  · rintro ⟨s, t⟩ ⟨hu, hx⟩
    apply Prod.ext
    · rw [eq_div_iff hdet, ← hu, ← hx]
      ring
    · rw [eq_div_iff hdet, ← hu, ← hx]
      ring

/-- For every first message of a receiver one of the two messages stays hidden, if the bases are no
Diffie-Hellman tuple: to each point that is sent and each point that masks the message there is one
pair of the sender's random numbers. -/
theorem baseOt_hides (hgen : ∀ P : E, ∃ a : ZMod q, P = a • curve.generator)
    (hdh : ∀ w : ZMod q, ¬((otBases O curve sid false).2 = w • (otBases O curve sid false).1 ∧
      (otBases O curve sid true).2 = w • (otBases O curve sid true).1)) {A B : E} (hA : A ≠ 0) :
    ∃ b : Bool, ∀ U X : E, ∃! st : ZMod q × ZMod q, st.1 • A + st.2 • B = X ∧
    ∀ (x : List Byte) (biasU biasX : ZMod q), x.length = 16 →
      maskBranch O curve sid b A B x ⟨st.1, st.2, biasU, biasX⟩ =
        .ok (U, xor (pointPad O X) x) := by
  obtain ⟨α, rfl⟩ := hgen A
  obtain ⟨β, rfl⟩ := hgen B
  have hα : α ≠ 0 := fun h => hA (by rw [h, zero_smul])
  have hinj := smul_left_injective (ZMod q) curve.generator_ne_zero
  choose g hg using fun b => hgen (otBases O curve sid b).1
  choose h hh using fun b => hgen (otBases O curve sid b).2
  have hexists : ∃ b, g b * β - h b * α ≠ 0 := by
    by_contra hall
    have hratio : ∀ b, (otBases O curve sid b).2 = (β / α) • (otBases O curve sid b).1 := by
      intro b
      have hzero : g b * β - h b * α = 0 := by
        by_contra hb
        exact hall ⟨b, hb⟩
      have hquot : h b = β / α * g b := by
        rw [div_mul_eq_mul_div, eq_div_iff hα, mul_comm β]
        exact (sub_eq_zero.mp hzero).symm
      rw [hh b, hg b, smul_smul, ← hquot]
    exact hdh (β / α) ⟨hratio false, hratio true⟩
  obtain ⟨b, hdet⟩ := hexists
  refine ⟨b, fun U X => ?_⟩
  obtain ⟨u, rfl⟩ := hgen U
  obtain ⟨y, rfl⟩ := hgen X
  have hpoint : ∀ st : ZMod q × ZMod q, ∀ biasU biasX : ZMod q,
      branchPoint O curve sid b ⟨st.1, st.2, biasU, biasX⟩ =
      (st.1 * g b + st.2 * h b) • curve.generator := by
    intro st biasU biasX
    rw [branchPoint, hg b, hh b, smul_smul, smul_smul, ← add_smul]
  have hkey : ∀ st : ZMod q × ZMod q, st.1 • α • curve.generator + st.2 • β • curve.generator =
      (st.1 * α + st.2 * β) • curve.generator := by
    intro st
    rw [smul_smul, smul_smul, ← add_smul]
  obtain ⟨st, ⟨hu, hy⟩, hunique⟩ := exists_unique_coins hdet u y
  refine ⟨st, ⟨by rw [hkey, hy], fun x biasU biasX hx => ?_⟩, ?_⟩
  · rw [maskBranch_eq b _ _ hx, hpoint, hkey, hu, hy]
  · rintro st' ⟨hy', hmask⟩
    have hzero := hmask (List.replicate 16 0) 0 0 List.length_replicate
    rw [maskBranch_eq b _ _ List.length_replicate, hpoint] at hzero
    have hu' := hinj (Prod.mk.inj (Except.ok.inj hzero)).1
    rw [hkey] at hy'
    exact hunique st' ⟨hu', hinj hy'⟩

theorem baseOt_hides_sample : ∃ b : Bool, ∀ U X : ZMod 1009, ∃! st : ZMod 1009 × ZMod 1009,
      st.1 • (5 : ZMod 1009) + st.2 • (3 : ZMod 1009) = X ∧
    ∀ (x : List Byte) (biasU biasX : ZMod 1009), x.length = 16 →
      maskBranch samplePvwOracles sampleCurve [1] b 5 3 x ⟨st.1, st.2, biasU, biasX⟩ =
        .ok (U, xor (pointPad samplePvwOracles X) x) := by
  apply @baseOt_hides 1009 _ (ZMod 1009) _ _ samplePvwOracles sampleCurve [1]
  · intro P
    exact ⟨P, (mul_one P).symm⟩
  · rintro w ⟨hfirst, hsecond⟩
    have hw : w = 1 := (hfirst.trans (mul_one w)).symm
    rw [hw] at hsecond
    exact absurd hsecond (by decide)
  · decide

end Privacy

end CbMpc
