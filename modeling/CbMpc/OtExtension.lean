import CbMpc.BitMatrix
import CbMpc.ModArith

/-!
# The OT extension

The receiver masks its choice bits with the expanded seeds of 256 base transfers, the
sender checks rows against each other, and the columns of the two matrices are hashed
into pads. The sender's inputs decide in which of the modes the pads are used.
-/
namespace CbMpc

open BitString

/-- `hmac_state_t`, `sha256_t` and `drbg_aes_ctr_t`, with the sizes of their outputs. -/
structure OtOracles where
  hmac : List (List Byte) → List Byte
  hmac_length : ∀ args, (hmac args).length = 32
  sha256 : List (List Byte) → List Byte
  sha256_length : ∀ args, (sha256 args).length = 32
  drbg : List Byte → ℕ → List Byte
  drbg_length : ∀ seed size, (drbg seed size).length = size

/-- `u`, `d` and `kappa`. -/
def otU : ℕ := 256
def otD : ℕ := 3
def otKappa : ℕ := 128

/-- An integer as a hash reads it, in four bytes. -/
def intBytes (v : ℕ) : List Byte := (binPad 4 v).map BitVec.ofFin

/-- `bn_t::from_bin` and `bn_t::to_bin` on buffers of bytes. -/
def bytesToBn (s : List Byte) : ℤ := fromBin (s.map BitVec.toFin)

def bnToBytes (x : ℤ) (size : ℕ) : Outcome (List Byte) := do
  let bin ← toBin x size
  .ok (bin.map BitVec.ofFin)

/-- `operator^` of two buffers. -/
def xorBuf (s t : List Byte) : Outcome (List Byte) := do
  cbAssert (decide (s.length = t.length))
  .ok (xor s t)

/-- `ct_select_buf`. -/
def ctSelectBuf (flag : Bool) (y z : List Byte) : Outcome (List Byte) := do
  cbAssert (decide (y.length = z.length))
  .ok (select flag y z)

/-- `drbg_sample_string`. -/
def drbgSampleString (O : OtOracles) (seed : List Byte) (bits : ℕ) : Outcome (List Byte) := do
  cbAssert (decide (0 < bits))
  cbAssert (decide (128 ≤ 8 * seed.length))
  .ok (O.drbg seed (bitsToBytes bits))

/-- `hash_string_t::bitlen`. -/
def bitlen (O : OtOracles) (args : List (List Byte)) (bits : ℕ) : Outcome (List Byte) := do
  cbAssert (decide (0 < bits))
  let h := O.hmac args
  if bitsToBytes bits ≤ 32 then .ok (h.take (bitsToBytes bits)) else drbgSampleString O h bits

/-- `hash_matrix_line`. -/
def hashMatrixLine (O : OtOracles) (index : ℕ) (line : List Byte) (l : ℕ) : Outcome (List Byte) :=
  if l = 256 then .ok (O.sha256 [intBytes index, line]) else bitlen O [intBytes index, line] l

/-- What fills the last 128 columns. -/
def otPad (m : ℕ) : ℕ := if m % 128 ≠ 0 then 128 - m % 128 else 0

def otCols (m : ℕ) : ℕ := m + otKappa + otPad m

/-- `gen_random_bits`. -/
def genRandomBits (count : ℕ) (coins : ℕ → Byte) : Bits where
  count := count
  data := (List.range (bitsToBytes count)).map coins
  size_eq := by simp

/-- The first message: `U`, `v0` and `v1`. -/
structure OtMsg1 where
  U : List (List Byte)
  v0 : List (List Byte)
  v1 : List (List Byte)

/-- What the receiver keeps. -/
structure OtReceiver where
  l : ℕ
  r : Bits
  T : List (List Byte)
  msg : OtMsg1

/-- One row of `U` and of the receiver's own matrix. -/
def receiverRow (O : OtOracles) (cols : ℕ) (r : Bits) (seed0 seed1 : List Byte) :
    Outcome (List Byte × List Byte) := do
  let sigmaTag0 ← drbgSampleString O seed0 cols
  let sigmaTag1 ← drbgSampleString O seed1 cols
  let x ← xorBuf sigmaTag0 sigmaTag1
  let Ui ← xorBuf x r.toBin
  -- `set_row`
  cbAssert (decide (Ui.length = bitsToBytes cols))
  cbAssert (decide (sigmaTag0.length = bitsToBytes cols))
  .ok (Ui, sigmaTag0)

/-- The two values against which the sender checks a pair of rows. -/
def checkValues (O : OtOracles) (r : Bits) (rowAlpha rowBeta : List Byte) :
    Outcome (List Byte × List Byte) := do
  let x ← xorBuf rowAlpha rowBeta
  let v0 ← bitlen O [x] otKappa
  let y ← xorBuf x r.toBin
  let v1 ← bitlen O [y] otKappa
  .ok (v0, v1)

/-- `step1_R2S`. -/
def step1R2S (O : OtOracles) (sid : List Byte)
    (sigma0 sigma1 : List (List Byte)) (rr : Bits) (l : ℕ) (coins : ℕ → Byte) :
    Outcome OtReceiver := do
  require (decide (sigma0.length = otU)) .badArg
  require (decide (sigma1.length = otU)) .badArg
  let m := rr.count
  let r := rr.append (genRandomBits (otKappa + otPad m) coins)
  let rows ← (List.range otU).mapM fun i =>
    receiverRow O (otCols m) r (sigma0.getD i []) (sigma1.getD i [])
  let U := rows.map Prod.fst
  let table := rows.map Prod.snd
  let e ← bitlen O [sid, U.flatten] (8 * (otU * otD))
  let v ← (List.range (otU * otD)).mapM fun index =>
    checkValues O r (table.getD (index / otD) []) (table.getD (e.getD index 0).toNat [])
  .ok ⟨8 * bitsToBytes l, r, otMatrixTranspose (otCols m) table,
    ⟨U, v.map Prod.fst, v.map Prod.snd⟩⟩

/-- What the sender puts in: messages, or differences modulo `q` with the mode in which
the first message is random. -/
inductive OtInput where
  | messages : List (List Byte) → List (List Byte) → OtInput
  | differences : List ℤ → ℕ → OtInput

/-- The second message, and in the random mode the sender's outputs. -/
structure OtOutput where
  w0 : List (List Byte)
  w1 : List (List Byte)
  x0Out : List ℤ
  x1Out : List ℤ

/-- The row that the sender computes from its seed and the row of `U`. -/
def senderRow (O : OtOracles) (cols : ℕ) (s : Bool) (seed Ui : List Byte) :
    Outcome (List Byte) := do
  let sigmaTag ← drbgSampleString O seed cols
  let row := xorMasked s sigmaTag Ui
  cbAssert (decide (row.length = bitsToBytes cols))
  .ok row

/-- One comparison of the consistency check. -/
def rowsConsistent (O : OtOracles) (b : Bool) (v0 v1 rowAlpha rowBeta : List Byte) :
    Outcome Bool := do
  let vbz := select b v1 v0
  let x ← xorBuf rowAlpha rowBeta
  let t := (O.hmac [x]).take 16
  .ok (decide (t = vbz))

/-- The matrix of the sender, when the rows are consistent. `sameSize` says that there
are as many first messages as second ones. -/
def senderMatrix (O : OtOracles) (sid : List Byte) (s : Bits) (sigma : List (List Byte))
    (sameSize : Bool) (m : ℕ) (msg : OtMsg1) : Outcome (List (List Byte)) := do
  require (decide (msg.v0.length = otU * otD)) .badArg
  require (decide (msg.v1.length = otU * otD)) .badArg
  cbAssert (decide (s.count = otU))
  require (decide (sigma.length = s.count)) .badArg
  require sameSize .badArg
  require (decide (8 * (msg.U.flatten.length / 256) = otCols m)) .badArg
  let rows ← (List.range otU).mapM fun i =>
    senderRow O (otCols m) (s.get i) (sigma.getD i []) (msg.U.getD i [])
  let e ← bitlen O [sid, msg.U.flatten] (8 * otU * otD)
  let good ← (List.range (otU * otD)).mapM fun index =>
    let alpha := index / otD
    let beta := (e.getD index 0).toNat
    rowsConsistent O (s.get alpha ^^ s.get beta) (msg.v0.getD index []) (msg.v1.getD index [])
      (rows.getD alpha []) (rows.getD beta [])
  require (decide (good.all id = true)) .crypto
  .ok (otMatrixTranspose (otCols m) rows)

/-- `s_buf`. -/
def senderBits (s : Bits) : List Byte := ofBits 32 s.get

/-- The pads of transfer `i`. -/
def senderPads (O : OtOracles) (s : Bits) (Q : List (List Byte)) (l i : ℕ) :
    Outcome (List Byte × List Byte) := do
  let w0 ← hashMatrixLine O i (Q.getD i []) l
  let line ← xorBuf (Q.getD i []) (senderBits s)
  let w1 ← hashMatrixLine O i line l
  .ok (w0, w1)

/-- One transfer of two messages. -/
def maskMessages (l : ℕ) (pads : List Byte × List Byte) (x0 x1 : List Byte) :
    Outcome (List Byte × List Byte) := do
  require (decide (8 * x0.length = l)) .badArg
  require (decide (8 * x1.length = l)) .badArg
  let w0 ← xorBuf pads.1 x0
  let w1 ← xorBuf pads.2 x1
  .ok (w0, w1)

/-- One transfer of a difference: the first pad is itself the message `x0_out`. -/
def maskDifference (q l : ℕ) (pads : List Byte × List Byte) (delta : ℤ) :
    Outcome (List Byte × ℤ × ℤ) := do
  let x0 := bytesToBn pads.1
  let x1 ← modAdd false q x0 delta
  let bin ← bnToBytes x1 (bitsToBytes l)
  let w1 ← xorBuf pads.2 bin
  .ok (w1, x0, x1)

/-- `step2_S2R_helper`. -/
def step2S2RHelper (O : OtOracles) (sid : List Byte) (s : Bits)
    (sigma : List (List Byte)) (input : OtInput) (msg : OtMsg1) : Outcome OtOutput :=
  match input with
  | .messages x0 x1 => do
    require (decide (x0 ≠ [])) .badArg
    let l := 8 * (x0.headD []).length
    let Q ← senderMatrix O sid s sigma (decide (x0.length = x1.length)) x0.length msg
    let w ← (List.range x0.length).mapM fun i => do
      let pads ← senderPads O s Q l i
      maskMessages l pads (x0.getD i []) (x1.getD i [])
    .ok ⟨w.map Prod.fst, w.map Prod.snd, [], []⟩
  | .differences delta q => do
    let l := 8 * getBinSize q
    let Q ← senderMatrix O sid s sigma true delta.length msg
    let w ← (List.range delta.length).mapM fun i => do
      let pads ← senderPads O s Q l i
      maskDifference q l pads (delta.getD i 0)
    .ok ⟨[], w.map Prod.fst, w.map (fun t => t.2.1), w.map (fun t => t.2.2)⟩

/-- One turn of `output_R`. -/
def outputTurn (O : OtOracles) (R : OtReceiver) (w0 w1 : List (List Byte)) (i : ℕ) :
    Outcome (List Byte) := do
  let x ← hashMatrixLine O i (R.T.getD i []) R.l
  if w0 = [] then do
    require (decide (8 * (w1.getD i []).length = R.l)) .badArg
    let w ← ctSelectBuf (R.r.get i) (w1.getD i []) (List.replicate (bitsToBytes R.l) 0)
    xorBuf x w
  else do
    require (decide (8 * (w0.getD i []).length = R.l ∧ 8 * (w1.getD i []).length = R.l)) .badArg
    let w ← ctSelectBuf (R.r.get i) (w1.getD i []) (w0.getD i [])
    xorBuf x w

/-- `output_R`. -/
def outputR (O : OtOracles) (R : OtReceiver) (m : ℕ) (w0 w1 : List (List Byte)) :
    Outcome (List (List Byte)) := do
  require (decide (w0 = [] ∨ m = w0.length)) .format
  require (decide (m = w1.length)) .format
  (List.range m).mapM fun i => outputTurn O R w0 w1 i

def zeroes (m l : ℕ) : List (List Byte) := List.replicate m (List.replicate (bitsToBytes l) 0)

/-- `sender_random_step1_R2S`. -/
def senderRandomStep1R2S (O : OtOracles) (sid : List Byte)
    (sigma0 sigma1 : List (List Byte)) (r : Bits) (l : ℕ) (coins : ℕ → Byte) :
    Outcome (OtReceiver × List (List Byte)) := do
  let R ← step1R2S O sid sigma0 sigma1 r l coins
  let x ← outputR O R r.count (zeroes r.count l) (zeroes r.count l)
  .ok (R, x)

/-- `sender_random_output_S`. -/
def senderRandomOutputS (O : OtOracles) (sid : List Byte) (s : Bits)
    (sigma : List (List Byte)) (m l : ℕ) (msg : OtMsg1) :
    Outcome (List (List Byte) × List (List Byte)) := do
  let out ← step2S2RHelper O sid s sigma (.messages (zeroes m l) (zeroes m l)) msg
  .ok (out.w0, out.w1)

/-- The output of the base transfers: of each pair of seeds the sender has the one it chose. -/
structure BaseOt (s : Bits) (sigma0 sigma1 sigma : List (List Byte)) : Prop where
  count : s.count = otU
  length0 : sigma0.length = otU
  length1 : sigma1.length = otU
  length : sigma.length = otU
  seed0 : ∀ i < otU, 128 ≤ 8 * (sigma0.getD i []).length
  seed1 : ∀ i < otU, 128 ≤ 8 * (sigma1.getD i []).length
  chosen : ∀ i < otU, sigma.getD i [] = if s.get i then sigma1.getD i [] else sigma0.getD i []

section Oracles

variable (O : OtOracles)

/-- The value of `hash_string_t::bitlen` and of `hash_matrix_line` for a positive length. -/
def hashBits (args : List (List Byte)) (bits : ℕ) : List Byte :=
  if bitsToBytes bits ≤ 32 then (O.hmac args).take (bitsToBytes bits) else
    O.drbg (O.hmac args) (bitsToBytes bits)

def lineHash (index : ℕ) (line : List Byte) (l : ℕ) : List Byte :=
  if l = 256 then O.sha256 [intBytes index, line] else hashBits O [intBytes index, line] l

theorem bitlen_eq (args : List (List Byte)) {bits : ℕ} (h : 0 < bits) :
    bitlen O args bits = .ok (hashBits O args bits) := by
  simp only [bitlen, h, decide_true, cbAssert_true, ok_bind, hashBits]
  split
  · rfl
  · simp [drbgSampleString, h, O.hmac_length]

@[simp] theorem length_hashBits (args : List (List Byte)) (bits : ℕ) :
    (hashBits O args bits).length = bitsToBytes bits := by
  unfold hashBits
  split
  · rename_i hle
    rw [List.length_take, O.hmac_length]
    exact min_eq_left hle
  · exact O.drbg_length _ _

theorem hashMatrixLine_eq (index : ℕ) (line : List Byte) {l : ℕ} (h : 0 < l) :
    hashMatrixLine O index line l = .ok (lineHash O index line l) := by
  simp only [hashMatrixLine, lineHash]
  split
  · rfl
  · exact bitlen_eq O _ h

@[simp] theorem length_lineHash (index : ℕ) (line : List Byte) (l : ℕ) :
    (lineHash O index line l).length = bitsToBytes l := by
  unfold lineHash
  split
  · rename_i h
    rw [O.sha256_length, h]
    rfl
  · exact length_hashBits O _ _

theorem drbgSampleString_eq {seed : List Byte} {bits : ℕ} (hbits : 0 < bits)
    (hseed : 128 ≤ 8 * seed.length) :
    drbgSampleString O seed bits = .ok (O.drbg seed (bitsToBytes bits)) := by
  simp [drbgSampleString, hbits, hseed]

end Oracles

theorem xorBuf_eq {s t : List Byte} (h : s.length = t.length) : xorBuf s t = .ok (xor s t) := by
  simp [xorBuf, h]

theorem otCols_pos (m : ℕ) : 0 < otCols m := by
  simp only [otCols, otKappa]
  omega

/-- The full blocks cover every transfer, whether or not the columns fill the last one. -/
theorem le_otCols_blocks (m : ℕ) : m ≤ 256 * (otCols m / 256) := by
  simp only [otCols, otKappa, otPad]
  split <;> omega

theorem otCols_bytes (m : ℕ) : 8 * bitsToBytes (otCols m) = otCols m := by
  simp only [otCols, otKappa, otPad, bitsToBytes]
  split <;> omega

section Honest

variable {O : OtOracles} {s : Bits} {sigma0 sigma1 sigma : List (List Byte)} {rr : Bits}

/-- The receiver's choice bits with the filling. -/
def paddedBits (rr : Bits) (coins : ℕ → Byte) : Bits :=
  rr.append (genRandomBits (otKappa + otPad rr.count) coins)

theorem paddedBits_count (rr : Bits) (coins : ℕ → Byte) :
    (paddedBits rr coins).count = otCols rr.count := by
  simp only [paddedBits, Bits.append, genRandomBits, otCols]
  omega

theorem paddedBits_get (rr : Bits) (coins : ℕ → Byte) {i : ℕ} (h : i < rr.count) :
    (paddedBits rr coins).get i = rr.get i := by
  rw [paddedBits, append_get _ _ (by omega), if_pos h]

/-- The expanded seed of row `i`. -/
def tagRow (O : OtOracles) (m : ℕ) (sigma : List (List Byte)) (i : ℕ) : List Byte :=
  O.drbg (sigma.getD i []) (bitsToBytes (otCols m))

/-- The row of the sender's matrix. -/
def choiceRow (r : Bits) (s : Bits) (tag : ℕ → List Byte) (i : ℕ) : List Byte :=
  if s.get i then xor (tag i) r.toBin else tag i

@[simp] theorem length_tagRow (m : ℕ) (sigma : List (List Byte)) (i : ℕ) :
    (tagRow O m sigma i).length = bitsToBytes (otCols m) := O.drbg_length _ _

theorem length_choiceRow {r : Bits} {m : ℕ} (hr : r.count = otCols m) (s : Bits)
    (sigma : List (List Byte)) (i : ℕ) :
    (choiceRow r s (tagRow O m sigma) i).length = bitsToBytes (otCols m) := by
  rw [choiceRow]
  split <;> simp [hr]

theorem bit_choiceRow {r : Bits} {m : ℕ} (hr : r.count = otCols m) (s : Bits)
    (sigma : List (List Byte)) (i k : ℕ) :
    bit (choiceRow r s (tagRow O m sigma) i) k =
      (bit (tagRow O m sigma i) k ^^ (s.get i && bit r.toBin k)) := by
  rw [choiceRow]
  split
  · rename_i h
    rw [bit_xor (by simp [hr]), h, Bool.true_and]
  · rename_i h
    simp [h]

theorem receiverRow_eq (hb : BaseOt s sigma0 sigma1 sigma) {r : Bits}
    (hr : r.count = otCols rr.count) {i : ℕ} (hi : i < otU) :
    receiverRow O (otCols rr.count) r (sigma0.getD i []) (sigma1.getD i []) =
      .ok (xor (xor (tagRow O rr.count sigma0 i) (tagRow O rr.count sigma1 i)) r.toBin,
        tagRow O rr.count sigma0 i) := by
  have h0 : (tagRow O rr.count sigma0 i).length = (tagRow O rr.count sigma1 i).length := by simp
  have h1 : (xor (tagRow O rr.count sigma0 i) (tagRow O rr.count sigma1 i)).length =
    r.toBin.length := by simp [hr]
  rw [receiverRow, drbgSampleString_eq O (otCols_pos rr.count) (hb.seed0 i hi), ok_bind,
    drbgSampleString_eq O (otCols_pos rr.count) (hb.seed1 i hi), ok_bind, ← tagRow, ← tagRow,
    xorBuf_eq h0, ok_bind, xorBuf_eq h1, ok_bind]
  simp [hr]

/-- Unmasking a row of `U` leaves the receiver's row, with the choice bits added where
the sender chose the second seed. -/
theorem senderRow_eq (hb : BaseOt s sigma0 sigma1 sigma) {r : Bits} (hr : r.count = otCols rr.count)
    {i : ℕ} (hi : i < otU) :
    senderRow O (otCols rr.count) (s.get i) (sigma.getD i [])
        (xor (xor (tagRow O rr.count sigma0 i) (tagRow O rr.count sigma1 i)) r.toBin) =
      .ok (choiceRow r s (tagRow O rr.count sigma0) i) := by
  have hseed : 128 ≤ 8 * (sigma.getD i []).length := by
    rw [hb.chosen i hi]
    split
    · exact hb.seed1 i hi
    · exact hb.seed0 i hi
  have hU : (xor (xor (tagRow O rr.count sigma0 i) (tagRow O rr.count sigma1 i)) r.toBin).length =
      bitsToBytes (otCols rr.count) := by
    simp [hr]
  rw [senderRow, drbgSampleString_eq O (otCols_pos rr.count) hseed, ok_bind]
  have hlen : (O.drbg (sigma.getD i []) (bitsToBytes (otCols rr.count))).length =
      (xor (xor (tagRow O rr.count sigma0 i) (tagRow O rr.count sigma1 i)) r.toBin).length := by
    rw [hU]
    exact O.drbg_length _ _
  have hrow : xorMasked (s.get i) (O.drbg (sigma.getD i []) (bitsToBytes (otCols rr.count)))
      (xor (xor (tagRow O rr.count sigma0 i) (tagRow O rr.count sigma1 i)) r.toBin) =
      choiceRow r s (tagRow O rr.count sigma0) i := by
    rw [xorMasked_eq hlen, choiceRow, hb.chosen i hi]
    cases s.get i with
    | false => rfl
    | true =>
      rw [if_pos rfl, if_pos rfl, if_pos rfl, ← tagRow]
      apply eq_of_bit
      · simp [hr]
      · intro k _
        rw [bit_xor (by simp [hr]), bit_xor (by simp [hr]), bit_xor (by simp),
          bit_xor (by simp [hr])]
        cases bit (tagRow O rr.count sigma1 i) k <;> simp
  rw [hrow]
  simp [length_choiceRow hr]

/-- Two rows differ by the choice bits exactly when the sender's bits differ. -/
theorem xor_choiceRow {r : Bits} {m : ℕ} (hr : r.count = otCols m) (s : Bits) (i j : ℕ) :
    xor (choiceRow r s (tagRow O m sigma0) i) (choiceRow r s (tagRow O m sigma0) j) =
      if s.get i ^^ s.get j then xor (xor (tagRow O m sigma0 i) (tagRow O m sigma0 j)) r.toBin
      else xor (tagRow O m sigma0 i) (tagRow O m sigma0 j) := by
  apply eq_of_bit
  · split <;> simp [length_choiceRow hr, hr]
  · intro k _
    rw [bit_xor (by simp [length_choiceRow hr]), bit_choiceRow hr, bit_choiceRow hr]
    cases s.get i <;> cases s.get j
    · simp [bit_xor]
    · simp [bit_xor, hr]
    · simp only [Bool.xor_false, if_true, Bool.true_and, Bool.false_and]
      rw [bit_xor (by simp [hr]), bit_xor (by simp), Bool.xor_right_comm]
    · simp only [Bool.xor_self, Bool.false_eq_true, if_false, Bool.true_and]
      rw [bit_xor (by simp)]
      cases bit r.toBin k <;> simp

theorem take_hmac (args : List (List Byte)) : (O.hmac args).take 16 = hashBits O args otKappa := by
  simp [hashBits, otKappa, bitsToBytes]

theorem checkValues_eq {r : Bits} {m : ℕ} (hr : r.count = otCols m) (i j : ℕ) :
    checkValues O r (tagRow O m sigma0 i) (tagRow O m sigma0 j) =
      .ok (hashBits O [xor (tagRow O m sigma0 i) (tagRow O m sigma0 j)] otKappa,
        hashBits O [xor (xor (tagRow O m sigma0 i) (tagRow O m sigma0 j)) r.toBin] otKappa) := by
  have hxor : (xor (tagRow O m sigma0 i) (tagRow O m sigma0 j)).length =
    r.toBin.length := by simp [hr]
  rw [checkValues, xorBuf_eq (by simp), ok_bind, bitlen_eq O _ (by decide), ok_bind,
    xorBuf_eq hxor, ok_bind, bitlen_eq O _ (by decide), ok_bind]

/-- An honest receiver's values pass the comparison. -/
theorem rowsConsistent_eq {r : Bits} {m : ℕ} (hr : r.count = otCols m) (i j : ℕ) :
    rowsConsistent O (s.get i ^^ s.get j)
      (hashBits O [xor (tagRow O m sigma0 i) (tagRow O m sigma0 j)] otKappa)
        (hashBits O [xor (xor (tagRow O m sigma0 i) (tagRow O m sigma0 j)) r.toBin] otKappa)
        (choiceRow r s (tagRow O m sigma0) i) (choiceRow r s (tagRow O m sigma0) j) = .ok true := by
  rw [rowsConsistent, xorBuf_eq (by simp [length_choiceRow hr]), ok_bind, select_eq (by simp),
    xor_choiceRow hr, take_hmac]
  split <;> simp

/-- The first message of an honest receiver. -/
def honestU (O : OtOracles) (sigma0 sigma1 : List (List Byte)) (m : ℕ)
    (r : Bits) : List (List Byte) :=
  (List.range otU).map fun i => xor (xor (tagRow O m sigma0 i) (tagRow O m sigma1 i)) r.toBin

def honestTable (O : OtOracles) (sigma0 : List (List Byte)) (m : ℕ) : List (List Byte) :=
  (List.range otU).map (tagRow O m sigma0)

/-- The row against which row `index / d` is checked. -/
def partner (O : OtOracles) (sid : List Byte) (U : List (List Byte)) (index : ℕ) : ℕ :=
  ((hashBits O [sid, U.flatten] (8 * (otU * otD))).getD index 0).toNat

def honestMsg1 (O : OtOracles) (sid : List Byte) (sigma0 sigma1 : List (List Byte)) (m : ℕ)
    (r : Bits) : OtMsg1 where
  U := honestU O sigma0 sigma1 m r
  v0 := (List.range (otU * otD)).map fun index => hashBits O [xor (tagRow O m sigma0 (index / otD))
    (tagRow O m sigma0 (partner O sid (honestU O sigma0 sigma1 m r) index))] otKappa
  v1 := (List.range (otU * otD)).map fun index =>
    hashBits O [xor (xor (tagRow O m sigma0 (index / otD))
    (tagRow O m sigma0 (partner O sid (honestU O sigma0 sigma1 m r) index))) r.toBin] otKappa

theorem partner_lt (sid : List Byte) (U : List (List Byte)) (index : ℕ) :
    partner O sid U index < otU := by
  exact BitVec.isLt _

theorem step1R2S_eq (hb : BaseOt s sigma0 sigma1 sigma) (sid : List Byte) (rr : Bits)
    (l : ℕ) (coins : ℕ → Byte) :
    step1R2S O sid sigma0 sigma1 rr l coins = .ok ⟨8 * bitsToBytes l, paddedBits rr coins,
      otMatrixTranspose (otCols rr.count) (honestTable O sigma0 rr.count),
      honestMsg1 O sid sigma0 sigma1 rr.count (paddedBits rr coins)⟩ := by
  have hr := paddedBits_count rr coins
  have hrows : (List.range otU).mapM (fun i =>
      receiverRow O (otCols rr.count) (paddedBits rr coins) (sigma0.getD i [])
      (sigma1.getD i [])) = .ok ((List.range otU).map fun i =>
        (xor (xor (tagRow O rr.count sigma0 i) (tagRow O rr.count sigma1 i))
          (paddedBits rr coins).toBin, tagRow O rr.count sigma0 i)) :=
    mapM_ok fun i hi => receiverRow_eq hb hr (List.mem_range.mp hi)
  have hvalues : (List.range (otU * otD)).mapM (fun index => checkValues O (paddedBits rr coins)
      ((honestTable O sigma0 rr.count).getD (index / otD) [])
      ((honestTable O sigma0 rr.count).getD
        (partner O sid (honestU O sigma0 sigma1 rr.count (paddedBits rr coins)) index) [])) =
      .ok ((List.range (otU * otD)).map fun index =>
        (hashBits O [xor (tagRow O rr.count sigma0 (index / otD)) (tagRow O rr.count sigma0
          (partner O sid (honestU O sigma0 sigma1 rr.count (paddedBits rr coins)) index))] otKappa,
        hashBits O [xor (xor (tagRow O rr.count sigma0 (index / otD)) (tagRow O rr.count sigma0
          (partner O sid (honestU O sigma0 sigma1 rr.count (paddedBits rr coins)) index)))
          (paddedBits rr coins).toBin] otKappa)) := by
    refine mapM_ok fun index hindex => ?_
    have hlt : index / otD < otU := by
      have h := List.mem_range.mp hindex
      simp only [otU, otD] at h ⊢
      omega
    rw [honestTable, getD_map_range _ _ hlt, getD_map_range _ _ (partner_lt _ _ _)]
    exact checkValues_eq hr _ _
  have hpad : rr.append (genRandomBits (otKappa + otPad rr.count) coins) =
    paddedBits rr coins := rfl
  have hU : (List.range otU).map (Prod.fst ∘ fun i =>
      (xor (xor (tagRow O rr.count sigma0 i) (tagRow O rr.count sigma1 i))
        (paddedBits rr coins).toBin, tagRow O rr.count sigma0 i)) =
          honestU O sigma0 sigma1 rr.count (paddedBits rr coins) := rfl
  have htable : (List.range otU).map (Prod.snd ∘ fun i =>
      (xor (xor (tagRow O rr.count sigma0 i) (tagRow O rr.count sigma1 i))
        (paddedBits rr coins).toBin, tagRow O rr.count sigma0 i)) =
          honestTable O sigma0 rr.count := rfl
  have hpartner : ∀ index,
      ((hashBits O [sid, (honestU O sigma0 sigma1 rr.count (paddedBits rr coins)).flatten]
      (8 * (otU * otD))).getD index 0).toNat =
      partner O sid (honestU O sigma0 sigma1 rr.count (paddedBits rr coins)) index := fun _ => rfl
  simp only [step1R2S, hb.length0, hb.length1, decide_true, require_true, ok_bind, hpad, hrows,
    List.map_map, hU, htable, bitlen_eq O _ (by decide : 0 < 8 * (otU * otD)), hpartner, hvalues]
  rfl

/-- The sender's matrix before it is transposed. -/
def choiceTable (O : OtOracles) (s : Bits) (sigma0 : List (List Byte)) (m : ℕ)
    (r : Bits) : List (List Byte) :=
  (List.range otU).map (choiceRow r s (tagRow O m sigma0))

theorem honestU_cols {r : Bits} {m : ℕ} (hr : r.count = otCols m) :
    8 * ((honestU O sigma0 sigma1 m r).flatten.length / 256) = otCols m := by
  have hlen : (honestU O sigma0 sigma1 m r).flatten.length = otU * bitsToBytes (otCols m) := by
    simp [honestU, List.length_flatten, Function.comp_def, hr]
  rw [hlen, otU, Nat.mul_div_cancel_left _ (by decide), otCols_bytes]

/-- The sender's consistency check passes against an honest receiver. -/
theorem senderMatrix_eq (O : OtOracles) (hb : BaseOt s sigma0 sigma1 sigma)
    (sid : List Byte) (rr : Bits) {r : Bits} (hr : r.count = otCols rr.count) :
    senderMatrix O sid s sigma true rr.count (honestMsg1 O sid sigma0 sigma1 rr.count r) =
      .ok (otMatrixTranspose (otCols rr.count) (choiceTable O s sigma0 rr.count r)) := by
  have hrows : (List.range otU).mapM (fun i =>
      senderRow O (otCols rr.count) (s.get i) (sigma.getD i [])
      ((honestU O sigma0 sigma1 rr.count r).getD i [])) =
        .ok (choiceTable O s sigma0 rr.count r) := by
    refine mapM_ok fun i hi => ?_
    rw [honestU, getD_map_range _ _ (List.mem_range.mp hi)]
    exact senderRow_eq hb hr (List.mem_range.mp hi)
  have hgood : (List.range (otU * otD)).mapM (fun index => rowsConsistent O
      (s.get (index / otD) ^^ s.get (partner O sid (honestU O sigma0 sigma1 rr.count r) index))
      ((honestMsg1 O sid sigma0 sigma1 rr.count r).v0.getD index [])
      ((honestMsg1 O sid sigma0 sigma1 rr.count r).v1.getD index [])
      ((choiceTable O s sigma0 rr.count r).getD (index / otD) [])
      ((choiceTable O s sigma0 rr.count r).getD
        (partner O sid (honestU O sigma0 sigma1 rr.count r) index) [])) =
      .ok ((List.range (otU * otD)).map fun _ => true) := by
    refine mapM_ok fun index hindex => ?_
    have hin := List.mem_range.mp hindex
    have hlt : index / otD < otU := by
      simp only [otU, otD] at hin ⊢
      omega
    rw [honestMsg1, getD_map_range _ _ hin, getD_map_range _ _ hin, choiceTable,
      getD_map_range _ _ hlt, getD_map_range _ _ (partner_lt _ _ _)]
    exact rowsConsistent_eq hr _ _
  have hv : (honestMsg1 O sid sigma0 sigma1 rr.count r).v0.length = otU * otD ∧
      (honestMsg1 O sid sigma0 sigma1 rr.count r).v1.length = otU * otD := by
    simp [honestMsg1]
  have hpartner : ∀ index,
      ((hashBits O [sid, (honestU O sigma0 sigma1 rr.count r).flatten] (8 * otU * otD)).getD
      index 0).toNat = partner O sid (honestU O sigma0 sigma1 rr.count r) index := fun _ => rfl
  have hmsg : (honestMsg1 O sid sigma0 sigma1 rr.count r).U =
    honestU O sigma0 sigma1 rr.count r := rfl
  simp only [senderMatrix, hv, hb.count, hb.length, hmsg, honestU_cols hr, decide_true,
    require_true, cbAssert_true, ok_bind, hrows, bitlen_eq O _ (by decide : 0 < 8 * otU * otD),
    hpartner, hgood]
  simp

/-- A column of the sender's matrix is the receiver's, turned by the sender's bits where
the receiver chose the second message. -/
theorem choiceLine_eq (s : Bits) (rr : Bits) (coins : ℕ → Byte) {i : ℕ} (hi : i < rr.count) :
    (otMatrixTranspose (otCols rr.count)
      (choiceTable O s sigma0 rr.count (paddedBits rr coins))).getD i [] =
      if rr.get i then
        xor ((otMatrixTranspose (otCols rr.count) (honestTable O sigma0 rr.count)).getD i [])
          (senderBits s)
      else (otMatrixTranspose (otCols rr.count) (honestTable O sigma0 rr.count)).getD i [] := by
  have hr := paddedBits_count rr coins
  have hblock : i < 256 * (otCols rr.count / 256) := lt_of_lt_of_le hi (le_otCols_blocks rr.count)
  have hcol : i < otCols rr.count := by omega
  have hlen : (senderBits s).length = 32 := length_ofBits _ _
  have hbit : bit (paddedBits rr coins).toBin i = rr.get i := by
    rw [bit_toBin _ (by rw [hr, otCols_bytes]; exact hcol), hr, paddedBits_get rr coins hi]
    simp [hcol]
  apply eq_of_bit
  · split
    · rw [length_xor, length_otMatrixTranspose hcol, length_otMatrixTranspose hcol, hlen]
      rfl
    · rw [length_otMatrixTranspose hcol, length_otMatrixTranspose hcol]
  · intro x hx
    rw [length_otMatrixTranspose hcol] at hx
    have hx' : x < otU := hx
    have hline :
        bit ((otMatrixTranspose (otCols rr.count) (honestTable O sigma0 rr.count)).getD i []) x =
        bit (tagRow O rr.count sigma0 x) i := by
      rw [bit_otMatrixTranspose hblock hx, honestTable, getD_map_range _ _ hx']
    rw [bit_otMatrixTranspose hblock hx, choiceTable, getD_map_range _ _ hx',
      bit_choiceRow hr, hbit]
    split
    · rename_i hri
      rw [bit_xor (by rw [length_otMatrixTranspose hcol, hlen]), hline, senderBits,
        bit_ofBits (by omega), hri, Bool.and_true]
    · rename_i hri
      rw [hline]
      simp [hri]

/-- The pad of a transfer that the receiver knows. -/
def receiverPad (O : OtOracles) (sigma0 : List (List Byte)) (m l i : ℕ) : List Byte :=
  lineHash O i ((otMatrixTranspose (otCols m) (honestTable O sigma0 m)).getD i []) l

/-- The two pads of the sender. -/
def padsOf (O : OtOracles) (s : Bits) (Q : List (List Byte)) (l i : ℕ) : List Byte × List Byte :=
  (lineHash O i (Q.getD i []) l, lineHash O i (xor (Q.getD i []) (senderBits s)) l)

theorem senderPads_eq (s : Bits) {cols l i : ℕ} (src : List (List Byte))
    (hl : 0 < l) (hi : i < cols) :
    senderPads O s (otMatrixTranspose cols src) l i =
      .ok (padsOf O s (otMatrixTranspose cols src) l i) := by
  have hsize : ((otMatrixTranspose cols src).getD i []).length = (senderBits s).length := by
    rw [length_otMatrixTranspose hi, senderBits, length_ofBits]
  rw [senderPads, hashMatrixLine_eq O _ _ hl, ok_bind, xorBuf_eq hsize, ok_bind,
    hashMatrixLine_eq O _ _ hl, ok_bind, padsOf]

/-- Of the sender's two pads the receiver knows the one it chose. -/
theorem padsOf_chosen (O : OtOracles) (s : Bits) (sigma0 : List (List Byte)) (rr : Bits)
    (coins : ℕ → Byte) (l : ℕ) {i : ℕ} (hi : i < rr.count) :
    (if rr.get i then
        (padsOf O s (otMatrixTranspose (otCols rr.count)
          (choiceTable O s sigma0 rr.count (paddedBits rr coins))) l i).2
      else
        (padsOf O s (otMatrixTranspose (otCols rr.count)
          (choiceTable O s sigma0 rr.count (paddedBits rr coins))) l i).1) =
      receiverPad O sigma0 rr.count l i := by
  have hcol : i < otCols rr.count := by
    have h := le_otCols_blocks rr.count
    omega
  have hlen : (senderBits s).length = 32 := length_ofBits _ _
  rw [receiverPad, padsOf, choiceLine_eq s rr coins hi]
  cases rr.get i with
  | false => rfl
  | true =>
    have hcancel : ∀ {x y : List Byte}, x.length = y.length → xor (xor x y) y = x := by
      intro x y hxy
      rw [BitString.xor_comm, BitString.xor_comm x y, xor_xor_cancel hxy.symm]
    rw [if_pos rfl, if_pos rfl, hcancel (by rw [length_otMatrixTranspose hcol, hlen])]

/-- The receiver's state after the first step. -/
def honestReceiver (O : OtOracles) (sid : List Byte)
    (sigma0 sigma1 : List (List Byte)) (rr : Bits) (l : ℕ) (coins : ℕ → Byte) : OtReceiver :=
  ⟨8 * bitsToBytes l, paddedBits rr coins,
    otMatrixTranspose (otCols rr.count) (honestTable O sigma0 rr.count),
    honestMsg1 O sid sigma0 sigma1 rr.count (paddedBits rr coins)⟩

/-- The sender's pads against that receiver. -/
def honestPads (O : OtOracles) (s : Bits) (sigma0 : List (List Byte)) (rr : Bits)
    (coins : ℕ → Byte) (l i : ℕ) :
    List Byte × List Byte :=
  padsOf O s (otMatrixTranspose (otCols rr.count)
    (choiceTable O s sigma0 rr.count (paddedBits rr coins))) l i

theorem bitsToBytes_mul (n : ℕ) : bitsToBytes (8 * n) = n := by
  simp only [bitsToBytes]
  omega

theorem length_honestPads (s : Bits) (sigma0 : List (List Byte)) (rr : Bits)
    (coins : ℕ → Byte) (n i : ℕ) :
    (honestPads O s sigma0 rr coins (8 * n) i).1.length = n ∧
    (honestPads O s sigma0 rr coins (8 * n) i).2.length = n := by
  simp [honestPads, padsOf, bitsToBytes_mul]

/-- With messages the receiver removes its pad from the chosen one. -/
theorem outputTurn_messages (sid : List Byte) {l i : ℕ} (coins : ℕ → Byte)
    {w0 w1 : List (List Byte)} (hl : 0 < l) (hi : i < rr.count) (hw : w0 ≠ [])
    (h0 : (w0.getD i []).length = bitsToBytes l) (h1 : (w1.getD i []).length = bitsToBytes l) :
    outputTurn O (honestReceiver O sid sigma0 sigma1 rr l coins) w0 w1 i =
      .ok (xor (receiverPad O sigma0 rr.count (8 * bitsToBytes l) i) (if rr.get i then
        w1.getD i [] else w0.getD i [])) := by
  have hpos : 0 < 8 * bitsToBytes l := by
    simp only [bitsToBytes]
    omega
  have hsel : ctSelectBuf (rr.get i) (w1.getD i []) (w0.getD i []) =
      .ok (if rr.get i then w1.getD i [] else w0.getD i []) := by
    rw [ctSelectBuf, select_eq (h1.trans h0.symm), h0, h1]
    simp
  have hlen : (receiverPad O sigma0 rr.count (8 * bitsToBytes l) i).length =
      (if rr.get i then w1.getD i [] else w0.getD i []).length := by
    rw [receiverPad, length_lineHash, bitsToBytes_mul]
    split
    · exact h1.symm
    · exact h0.symm
  simp only [outputTurn, honestReceiver, hashMatrixLine_eq O _ _ hpos, ok_bind, hw, if_false, h0,
    h1, and_self, decide_true, require_true, paddedBits_get rr coins hi, hsel]
  exact xorBuf_eq hlen

/-- With differences the receiver uses the second message or nothing. -/
theorem outputTurn_differences (sid : List Byte) {l i : ℕ} (coins : ℕ → Byte)
    {w1 : List (List Byte)} (hl : 0 < l) (hi : i < rr.count)
    (h1 : (w1.getD i []).length = bitsToBytes l) :
    outputTurn O (honestReceiver O sid sigma0 sigma1 rr l coins) [] w1 i =
      .ok (xor (receiverPad O sigma0 rr.count (8 * bitsToBytes l) i)
        (if rr.get i then w1.getD i [] else List.replicate (bitsToBytes l) 0)) := by
  have hpos : 0 < 8 * bitsToBytes l := by
    simp only [bitsToBytes]
    omega
  have hz : (List.replicate (bitsToBytes l) (0 : Byte)).length = bitsToBytes l :=
    List.length_replicate
  have hsel : ctSelectBuf (rr.get i) (w1.getD i []) (List.replicate (bitsToBytes l) 0) =
      .ok (if rr.get i then w1.getD i [] else List.replicate (bitsToBytes l) 0) := by
    rw [ctSelectBuf, select_eq (h1.trans hz.symm), h1, hz]
    simp
  have hlen : (receiverPad O sigma0 rr.count (8 * bitsToBytes l) i).length =
      (if rr.get i then w1.getD i [] else List.replicate (bitsToBytes l) 0).length := by
    rw [receiverPad, length_lineHash, bitsToBytes_mul]
    split
    · exact h1.symm
    · exact hz.symm
  simp only [outputTurn, honestReceiver, hashMatrixLine_eq O _ _ hpos, ok_bind, if_true, h1,
    decide_true, require_true, paddedBits_get rr coins hi, bitsToBytes_mul, hsel]
  exact xorBuf_eq hlen

/-- The sender's second message with messages of one size. -/
theorem step2S2RHelper_messages (hb : BaseOt s sigma0 sigma1 sigma) (sid : List Byte)
    (hm : 0 < rr.count) {l : ℕ} (hl : 0 < l) (coins : ℕ → Byte) {x0 x1 : List (List Byte)}
    (h0 : x0.length = rr.count) (h1 : x1.length = rr.count)
    (hs0 : ∀ x ∈ x0, x.length = bitsToBytes l) (hs1 : ∀ x ∈ x1, x.length = bitsToBytes l) :
    step2S2RHelper O sid s sigma (.messages x0 x1)
      (honestReceiver O sid sigma0 sigma1 rr l coins).msg =
      .ok ⟨(List.range rr.count).map fun i =>
        xor (honestPads O s sigma0 rr coins (8 * bitsToBytes l) i).1 (x0.getD i []),
        (List.range rr.count).map fun i =>
          xor (honestPads O s sigma0 rr coins (8 * bitsToBytes l) i).2 (x1.getD i []),
        [], []⟩ := by
  have hpos : 0 < 8 * bitsToBytes l := by
    simp only [bitsToBytes]
    omega
  have hmem : ∀ {x : List (List Byte)}, x.length = rr.count →
      (∀ y ∈ x, y.length = bitsToBytes l) → ∀ i < rr.count,
      (x.getD i []).length = bitsToBytes l := by
    intro x hx hsize i hi
    rw [List.getD_eq_getElem _ _ (by omega)]
    exact hsize _ (List.getElem_mem _)
  have hne : x0 ≠ [] := by
    intro h
    rw [h, List.length_nil] at h0
    omega
  have hhead : (x0.headD []).length = bitsToBytes l := by
    cases x0 with
    | nil => exact absurd rfl hne
    | cons x x0 => exact hs0 x (by simp)
  have hw : (List.range rr.count).mapM (fun i => do
      let pads ← senderPads O s (otMatrixTranspose (otCols rr.count)
        (choiceTable O s sigma0 rr.count (paddedBits rr coins))) (8 * bitsToBytes l) i
      maskMessages (8 * bitsToBytes l) pads (x0.getD i []) (x1.getD i [])) =
      .ok ((List.range rr.count).map fun i =>
        (xor (honestPads O s sigma0 rr coins (8 * bitsToBytes l) i).1 (x0.getD i []),
        xor (honestPads O s sigma0 rr coins (8 * bitsToBytes l) i).2 (x1.getD i []))) := by
    refine mapM_ok fun i hi => ?_
    have hlt := List.mem_range.mp hi
    have hcol : i < otCols rr.count := by
      have h := le_otCols_blocks rr.count
      omega
    obtain ⟨hp0, hp1⟩ := length_honestPads (O := O) s sigma0 rr coins (bitsToBytes l) i
    rw [senderPads_eq s _ hpos hcol, ok_bind, ← honestPads, maskMessages, hmem h0 hs0 i hlt,
      hmem h1 hs1 i hlt, xorBuf_eq (hp0.trans (hmem h0 hs0 i hlt).symm),
      xorBuf_eq (hp1.trans (hmem h1 hs1 i hlt).symm)]
    simp
  have hmatrix := senderMatrix_eq O hb sid rr (paddedBits_count rr coins)
  simp only [step2S2RHelper, honestReceiver, hne, ne_eq, not_false_eq_true, decide_true,
    require_true, ok_bind, hhead, h0, h1, hmatrix, hw, List.map_map]
  rfl

/-- The sender's loop over differences. -/
theorem step2S2RHelper_differences (hb : BaseOt s sigma0 sigma1 sigma)
    (sid : List Byte) {l q : ℕ} (hl : 0 < l) (hq : getBinSize q = bitsToBytes l) (coins : ℕ → Byte)
    {delta : List ℤ} (hd : delta.length = rr.count) :
    step2S2RHelper O sid s sigma (.differences delta q)
      (honestReceiver O sid sigma0 sigma1 rr l coins).msg = (do
      let w ← (List.range rr.count).mapM fun i =>
        maskDifference q (8 * bitsToBytes l)
          (honestPads O s sigma0 rr coins (8 * bitsToBytes l) i) (delta.getD i 0)
      .ok ⟨[], w.map Prod.fst, w.map (fun t => t.2.1), w.map (fun t => t.2.2)⟩) := by
  have hpos : 0 < 8 * bitsToBytes l := by
    simp only [bitsToBytes]
    omega
  have hturn : (List.range rr.count).mapM (fun i => do
      let pads ← senderPads O s (otMatrixTranspose (otCols rr.count)
        (choiceTable O s sigma0 rr.count (paddedBits rr coins))) (8 * bitsToBytes l) i
      maskDifference q (8 * bitsToBytes l) pads (delta.getD i 0)) =
      (List.range rr.count).mapM fun i =>
        maskDifference q (8 * bitsToBytes l)
            (honestPads O s sigma0 rr coins (8 * bitsToBytes l) i) (delta.getD i 0) := by
    refine mapM_congr fun i hi => ?_
    have hlt := List.mem_range.mp hi
    have hcol : i < otCols rr.count := by
      have h := le_otCols_blocks rr.count
      omega
    rw [senderPads_eq s _ hpos hcol, ok_bind, ← honestPads]
  have hmatrix := senderMatrix_eq O hb sid rr (paddedBits_count rr coins)
  simp only [step2S2RHelper, honestReceiver, hq, hd, hmatrix, ok_bind, hturn]

theorem bytesToBn_ofFin (bytes : List (Fin 256)) :
    bytesToBn (bytes.map BitVec.ofFin) = fromBin bytes := by
  simp [bytesToBn, Function.comp_def]

/-- What one transfer of a difference gives, when the range assertion holds. -/
theorem maskDifference_ok {q l : ℕ} {pads : List Byte × List Byte}
    {delta : ℤ} {t : List Byte × ℤ × ℤ} (hpad : pads.2.length = bitsToBytes l)
    (h : maskDifference q l pads delta = .ok t) :
    t.1.length = bitsToBytes l ∧ t.2.1 = bytesToBn pads.1 ∧ t.2.2 = (t.2.1 + delta) % q ∧
      bytesToBn (xor pads.2 t.1) = t.2.2 := by
  obtain ⟨y, hy, h⟩ := bind_ok_iff.mp h
  obtain ⟨bin, hbin, h⟩ := bind_ok_iff.mp h
  obtain ⟨v, hv, h⟩ := bind_ok_iff.mp h
  cases h
  simp only [modAdd, modOp, Bool.false_eq_true, if_false] at hy
  obtain ⟨u, hx0, hy⟩ := bind_ok_iff.mp hy
  obtain ⟨-, -, hy⟩ := bind_ok_iff.mp hy
  cases hy
  have hrange := (isInRange_iff _).mp ((cbAssert_ok_iff _).mp hx0)
  have hnonneg : 0 ≤ (bytesToBn pads.1 + delta) % q := Int.emod_nonneg _ (by omega)
  obtain ⟨b, hb, hbin⟩ := bind_ok_iff.mp hbin
  cases hbin
  obtain ⟨hsize, hb⟩ := cbAssert_bind_ok_iff.mp hb
  cases hb
  have hlen : pads.2.length = ((binPad (bitsToBytes l) ((bytesToBn pads.1 + delta) % q).natAbs).map
      BitVec.ofFin : List Byte).length := by
    rw [List.length_map, length_binPad, hpad]
  obtain ⟨-, hv⟩ := cbAssert_bind_ok_iff.mp hv
  cases hv
  refine ⟨?_, rfl, rfl, ?_⟩
  · rw [length_xor, ← hlen, hpad, min_self]
  · have hcast : (((bytesToBn pads.1 + delta) % q).natAbs : ℤ) = (bytesToBn pads.1 + delta) % q :=
      Int.natAbs_of_nonneg hnonneg
    have hfit : ((bytesToBn pads.1 + delta) % q).natAbs < 256 ^ bitsToBytes l := by
      apply lt_pow_of_getBinSize_le
      rw [hcast]
      exact of_decide_eq_true hsize
    rw [xor_xor_cancel hlen, bytesToBn_ofFin, fromBin_binPad hfit, hcast]

theorem noCode_maskDifference (q l : ℕ) (pads : List Byte × List Byte) (delta : ℤ) :
    NoCode (maskDifference q l pads delta) := by
  refine (noCode_modOp _ _ _ _).bind fun x1 => NoCode.bind ?_ fun bin =>
    NoCode.bind ?_ fun w => noCode_ok _
  · exact ((noCode_cbAssert _).bind fun _ => noCode_ok _).bind fun _ => noCode_ok _
  · exact (noCode_cbAssert _).bind fun _ => noCode_ok _

theorem outputR_eq {R : OtReceiver} {m : ℕ} {w0 w1 : List (List Byte)} {f : ℕ → List Byte}
    (h0 : w0 = [] ∨ m = w0.length) (h1 : m = w1.length)
    (hturn : ∀ i < m, outputTurn O R w0 w1 i = .ok (f i)) :
    outputR O R m w0 w1 = .ok ((List.range m).map f) := by
  rw [outputR, decide_eq_true h0, decide_eq_true h1]
  exact mapM_ok fun i hi => hturn i (List.mem_range.mp hi)

/-- Messages: the receiver gets the chosen ones. -/
theorem delivers_messages (hb : BaseOt s sigma0 sigma1 sigma) (sid : List Byte)
    (hm : 0 < rr.count) {l : ℕ} (hl : 0 < l) (coins : ℕ → Byte) {x0 x1 : List (List Byte)}
    (h0 : x0.length = rr.count) (h1 : x1.length = rr.count)
    (hs0 : ∀ x ∈ x0, x.length = bitsToBytes l) (hs1 : ∀ x ∈ x1, x.length = bitsToBytes l) :
    ∃ out, step2S2RHelper O sid s sigma (.messages x0 x1)
      (honestReceiver O sid sigma0 sigma1 rr l coins).msg = .ok out ∧
      outputR O (honestReceiver O sid sigma0 sigma1 rr l coins) rr.count out.w0 out.w1 =
        .ok ((List.range rr.count).map fun i => if rr.get i then
          x1.getD i [] else x0.getD i []) := by
  refine ⟨_, step2S2RHelper_messages hb sid hm hl coins h0 h1 hs0 hs1, ?_⟩
  have hmem : ∀ {x : List (List Byte)}, x.length = rr.count →
      (∀ y ∈ x, y.length = bitsToBytes l) → ∀ i < rr.count,
      (x.getD i []).length = bitsToBytes l := by
    intro x hx hsize i hi
    rw [List.getD_eq_getElem _ _ (by omega)]
    exact hsize _ (List.getElem_mem _)
  refine outputR_eq (.inr (by simp)) (by simp) fun i hi => ?_
  obtain ⟨hp0, hp1⟩ := length_honestPads (O := O) s sigma0 rr coins (bitsToBytes l) i
  have hw0 := hmem h0 hs0 i hi
  have hw1 := hmem h1 hs1 i hi
  have hne : (List.range rr.count).map (fun i =>
      xor (honestPads O s sigma0 rr coins (8 * bitsToBytes l) i).1 (x0.getD i [])) ≠ [] := by
    simp only [ne_eq, List.map_eq_nil_iff, List.range_eq_nil]
    omega
  have hchosen := padsOf_chosen O s sigma0 rr coins (8 * bitsToBytes l) hi
  rw [outputTurn_messages sid coins hl hi hne
    (by rw [getD_map_range _ _ hi, length_xor, hp0, hw0, min_self])
    (by rw [getD_map_range _ _ hi, length_xor, hp1, hw1, min_self]), getD_map_range _ _ hi,
    getD_map_range _ _ hi, ← hchosen, ← honestPads]
  cases rr.get i with
  | false => exact congrArg Except.ok (xor_xor_cancel (hp0.trans hw0.symm))
  | true => exact congrArg Except.ok (xor_xor_cancel (hp1.trans hw1.symm))

/-- Random messages: the receiver has the chosen one of each pair that the sender computes. -/
theorem delivers_random (hb : BaseOt s sigma0 sigma1 sigma) (sid : List Byte)
    (hm : 0 < rr.count) {l : ℕ} (hl : 0 < l) (coins : ℕ → Byte) :
    ∃ x w0 w1, senderRandomStep1R2S O sid sigma0 sigma1 rr l coins =
        .ok (honestReceiver O sid sigma0 sigma1 rr l coins, x) ∧
      senderRandomOutputS O sid s sigma rr.count l
        (honestReceiver O sid sigma0 sigma1 rr l coins).msg = .ok (w0, w1) ∧
      w0.length = rr.count ∧ w1.length = rr.count ∧
      x = (List.range rr.count).map fun i => if rr.get i then w1.getD i [] else w0.getD i [] := by
  have hzero : ∀ x ∈ zeroes rr.count l, x.length = bitsToBytes l := by
    intro x hx
    rw [List.eq_of_mem_replicate hx, List.length_replicate]
  have hlen : (zeroes rr.count l).length = rr.count := List.length_replicate
  have hget : ∀ i < rr.count, (zeroes rr.count l).getD i [] = List.replicate (bitsToBytes l) 0 := by
    intro i hi
    rw [List.getD_eq_getElem _ _ (by omega)]
    simp [zeroes]
  have hne : zeroes rr.count l ≠ [] := by
    intro h
    rw [h, List.length_nil] at hlen
    omega
  have hsize : ∀ i < rr.count, ((zeroes rr.count l).getD i []).length = bitsToBytes l := by
    intro i hi
    rw [hget i hi, List.length_replicate]
  have hout : outputR O (honestReceiver O sid sigma0 sigma1 rr l coins) rr.count
      (zeroes rr.count l) (zeroes rr.count l) =
      .ok ((List.range rr.count).map fun i =>
        xor (receiverPad O sigma0 rr.count (8 * bitsToBytes l) i)
            (List.replicate (bitsToBytes l) 0)) := by
    refine outputR_eq (.inr hlen.symm) hlen.symm fun i hi => ?_
    rw [outputTurn_messages sid coins hl hi hne (hsize i hi) (hsize i hi), ite_self, hget i hi]
  have hreceiver : senderRandomStep1R2S O sid sigma0 sigma1 rr l coins =
      .ok (honestReceiver O sid sigma0 sigma1 rr l coins, (List.range rr.count).map fun i =>
        xor (receiverPad O sigma0 rr.count (8 * bitsToBytes l) i)
            (List.replicate (bitsToBytes l) 0)) := by
    rw [senderRandomStep1R2S, step1R2S_eq hb, ok_bind, ← honestReceiver, hout, ok_bind]
  have hsender : senderRandomOutputS O sid s sigma rr.count l
      (honestReceiver O sid sigma0 sigma1 rr l coins).msg =
      .ok ((List.range rr.count).map fun i =>
          xor (honestPads O s sigma0 rr coins (8 * bitsToBytes l) i).1
            ((zeroes rr.count l).getD i []),
        (List.range rr.count).map fun i =>
          xor (honestPads O s sigma0 rr coins (8 * bitsToBytes l) i).2
              ((zeroes rr.count l).getD i [])) := by
    rw [senderRandomOutputS, step2S2RHelper_messages hb sid hm hl coins hlen hlen hzero hzero,
      ok_bind]
  refine ⟨_, _, _, hreceiver, hsender, ?_, ?_, ?_⟩
  · simp
  · simp
  · refine List.map_congr_left fun i hi => ?_
    have hlt := List.mem_range.mp hi
    have hchosen := padsOf_chosen O s sigma0 rr coins (8 * bitsToBytes l) hlt
    rw [getD_map_range _ _ hlt, getD_map_range _ _ hlt, ← hchosen, ← honestPads, hget i hlt]
    cases rr.get i <;> rfl

/-- Differences: no code is returned, and without an assertion the receiver's integer is
the first one or the second one of the sender. -/
theorem delivers_differences (hb : BaseOt s sigma0 sigma1 sigma)
    (sid : List Byte) {l q : ℕ} (hl : 0 < l) (hq : getBinSize q = bitsToBytes l) (coins : ℕ → Byte)
    {delta : List ℤ} (hd : delta.length = rr.count) :
    NoCode (step2S2RHelper O sid s sigma (.differences delta q)
      (honestReceiver O sid sigma0 sigma1 rr l coins).msg) ∧
      ∀ out, step2S2RHelper O sid s sigma (.differences delta q)
        (honestReceiver O sid sigma0 sigma1 rr l coins).msg =
          .ok out →
        ∃ x, outputR O (honestReceiver O sid sigma0 sigma1 rr l coins)
          rr.count out.w0 out.w1 = .ok x ∧
          ∀ i < rr.count, out.x1Out.getD i 0 = (out.x0Out.getD i 0 + delta.getD i 0) % q ∧
            bytesToBn (x.getD i []) = if rr.get i then out.x1Out.getD i 0 else
              out.x0Out.getD i 0 := by
  rw [step2S2RHelper_differences hb sid hl hq coins hd]
  constructor
  · exact (NoCode.mapM fun i _ => noCode_maskDifference _ _ _ _).bind fun _ => noCode_ok _
  · intro out hout
    obtain ⟨w, hw, hout⟩ := bind_ok_iff.mp hout
    cases hout
    obtain ⟨hlen, hturn⟩ := mapM_range_ok hw ([], 0, 0)
    have hspec := fun i hi => maskDifference_ok
      ((length_honestPads (O := O) s sigma0 rr coins (bitsToBytes l) i).2.trans
        (bitsToBytes_mul _).symm) (hturn i hi)
    have hfst : ∀ i < rr.count, (w.map Prod.fst).getD i [] = (w.getD i ([], 0, 0)).1 := by
      intro i hi
      rw [List.getD_eq_getElem _ _ (by simpa using hlen ▸ hi), List.getD_eq_getElem _ _ (by omega),
        List.getElem_map]
    have hx : ∀ (f : List Byte × ℤ × ℤ → ℤ), ∀ i < rr.count,
        (w.map f).getD i 0 = f (w.getD i ([], 0, 0)) := by
      intro f i hi
      rw [List.getD_eq_getElem _ _ (by simpa using hlen ▸ hi), List.getD_eq_getElem _ _ (by omega),
        List.getElem_map]
    refine ⟨_, outputR_eq (.inl rfl) (by simp [hlen]) fun i hi =>
      outputTurn_differences sid coins hl hi (by rw [hfst i hi, (hspec i hi).1, bitsToBytes_mul]),
        fun i hi => ?_⟩
    obtain ⟨hwlen, hw0, hw1, hback⟩ := hspec i hi
    have hchosen := padsOf_chosen O s sigma0 rr coins (8 * bitsToBytes l) hi
    rw [hx _ i hi, hx _ i hi]
    refine ⟨hw1, ?_⟩
    rw [getD_map_range _ _ hi, hfst i hi, ← hchosen, ← honestPads]
    cases rr.get i with
    | false =>
      simp only [Bool.false_eq_true, if_false]
      have hp0 := (length_honestPads (O := O) s sigma0 rr coins (bitsToBytes l) i).1
      have hzero := xor_zeroes (honestPads O s sigma0 rr coins (8 * bitsToBytes l) i).1
      rw [hp0] at hzero
      rw [hw0, hzero]
    | true =>
      simp only [if_true]
      rw [hback]

/-- The receiver gets what it chose in each mode, for every number of transfers and every
positive length; the columns that it reads are all transposed. -/
theorem otExtension_delivers (O : OtOracles) (hb : BaseOt s sigma0 sigma1 sigma)
    (sid : List Byte) (rr : Bits) (hm : 0 < rr.count) (coins : ℕ → Byte) :
    rr.count ≤ 256 * (otCols rr.count / 256) ∧ ∀ l, 0 < l → ∃ R,
      step1R2S O sid sigma0 sigma1 rr l coins = .ok R ∧
      (∀ x0 x1 : List (List Byte), x0.length = rr.count → x1.length = rr.count →
        (∀ x ∈ x0, x.length = bitsToBytes l) → (∀ x ∈ x1, x.length = bitsToBytes l) →
        ∃ out, step2S2RHelper O sid s sigma (.messages x0 x1) R.msg = .ok out ∧
          outputR O R rr.count out.w0 out.w1 =
            .ok ((List.range rr.count).map fun i => if rr.get i then
              x1.getD i [] else x0.getD i [])) ∧
      (∃ x w0 w1, senderRandomStep1R2S O sid sigma0 sigma1 rr l coins = .ok (R, x) ∧
        senderRandomOutputS O sid s sigma rr.count l R.msg = .ok (w0, w1) ∧
        w0.length = rr.count ∧ w1.length = rr.count ∧
        x = (List.range rr.count).map fun i => if rr.get i then w1.getD i [] else w0.getD i []) ∧
      ∀ (delta : List ℤ) (q : ℕ), delta.length = rr.count → getBinSize q = bitsToBytes l →
        NoCode (step2S2RHelper O sid s sigma (.differences delta q) R.msg) ∧
        ∀ out, step2S2RHelper O sid s sigma (.differences delta q) R.msg = .ok out →
          ∃ x, outputR O R rr.count out.w0 out.w1 = .ok x ∧ ∀ i < rr.count,
            (bytesToBn (x.getD i []) : ZMod q) =
            (out.x0Out.getD i 0 : ZMod q) + if rr.get i then (delta.getD i 0 : ZMod q) else 0 := by
  refine ⟨le_otCols_blocks rr.count, fun l hl => ⟨_, step1R2S_eq hb sid rr l coins, ?_, ?_, ?_⟩⟩
  · intro x0 x1 h0 h1 hs0 hs1
    exact delivers_messages hb sid hm hl coins h0 h1 hs0 hs1
  · exact delivers_random hb sid hm hl coins
  · intro delta q hd hq
    obtain ⟨hcode, hout⟩ := delivers_differences (O := O) hb sid hl hq coins hd
    refine ⟨hcode, fun out h => ?_⟩
    obtain ⟨x, hx, hvalue⟩ := hout out h
    refine ⟨x, hx, fun i hi => ?_⟩
    obtain ⟨hsum, hchosen⟩ := hvalue i hi
    rw [hchosen, hsum]
    cases rr.get i <;> simp

/-- Empty messages stop at the assertion on the length of a hash. -/
theorem step2S2RHelper_empty (O : OtOracles) (hb : BaseOt s sigma0 sigma1 sigma)
    (sid : List Byte) (rr : Bits) (hm : 0 < rr.count) (coins : ℕ → Byte) :
    step2S2RHelper O sid s sigma
      (.messages (List.replicate rr.count []) (List.replicate rr.count []))
      (honestReceiver O sid sigma0 sigma1 rr 0 coins).msg = throwing .assertionFailed := by
  have hmatrix := senderMatrix_eq O hb sid rr (paddedBits_count rr coins)
  have hne : List.replicate rr.count ([] : List Byte) ≠ [] := by
    simp only [ne_eq, List.replicate_eq_nil_iff]
    omega
  have hhead : (List.replicate rr.count ([] : List Byte)).headD [] = [] := by
    cases rr.count <;> rfl
  obtain ⟨k, hk⟩ : ∃ k, rr.count = k + 1 := ⟨rr.count - 1, by omega⟩
  simp only [step2S2RHelper, honestReceiver, hne, ne_eq, not_false_eq_true, decide_true,
    require_true, ok_bind, hhead, List.length_replicate, List.length_nil, mul_zero, hmatrix]
  rw [hk, List.range_succ_eq_map, List.mapM_cons]
  rfl

end Honest

/-- Oracles that only count, with outputs of the right sizes. -/
def sampleOtOracles : OtOracles where
  hmac args := (List.range 32).map fun k => BitVec.ofNat 8 (k + args.length)
  hmac_length _ := by simp
  sha256 args := (List.range 32).map fun k => BitVec.ofNat 8 (2 * k + args.length)
  sha256_length _ := by simp
  drbg seed size := (List.range size).map fun k => BitVec.ofNat 8 (3 * k) + seed.headD 0
  drbg_length _ _ := by simp

/-- The sender chose the first seed of every pair. -/
theorem sampleBaseOt :
    BaseOt ⟨256, List.replicate 32 0, rfl⟩ (List.replicate 256 (List.replicate 16 5))
    (List.replicate 256 (List.replicate 16 9)) (List.replicate 256 (List.replicate 16 5)) where
  count := rfl
  length0 := List.length_replicate
  length1 := List.length_replicate
  length := List.length_replicate
  seed0 i hi := by
    rw [List.getD_eq_getElem _ _ (by rwa [List.length_replicate]), List.getElem_replicate,
      List.length_replicate]
  seed1 i hi := by
    rw [List.getD_eq_getElem _ _ (by rwa [List.length_replicate]), List.getElem_replicate,
      List.length_replicate]
  chosen i hi := by
    have hbit : (⟨256, List.replicate 32 0, rfl⟩ : Bits).get i = false := by
      have hdiv : i / 8 < (List.replicate 32 (0 : Byte)).length := by
        rw [List.length_replicate]
        simp only [otU] at hi
        omega
      rw [Bits.get, bit_of_lt hdiv, List.getElem_replicate]
      simp
    rw [hbit]
    rfl

theorem otExtension_delivers_sample : ∃ R out,
    step1R2S sampleOtOracles [1] (List.replicate 256 (List.replicate 16 5))
      (List.replicate 256 (List.replicate 16 9))
      ⟨3, [5], rfl⟩ 12 (fun _ => 7) = .ok R ∧
    step2S2RHelper sampleOtOracles [1] ⟨256, List.replicate 32 0,
      rfl⟩ (List.replicate 256 (List.replicate 16 5))
      (.messages [[1, 1], [2, 2], [3, 3]] [[4, 4], [5, 5], [6, 6]]) R.msg = .ok out ∧
    outputR sampleOtOracles R 3 out.w0 out.w1 = .ok [[4, 4], [2, 2], [6, 6]] := by
  obtain ⟨-, hlen⟩ := otExtension_delivers sampleOtOracles sampleBaseOt [1] ⟨3, [5], rfl⟩
    (by decide) (fun _ => 7)
  obtain ⟨R, hR, hmessages, -⟩ := hlen 12 (by decide)
  obtain ⟨out, hout, hx⟩ :=
    hmessages [[1, 1], [2, 2], [3, 3]] [[4, 4], [5, 5], [6, 6]] rfl rfl (by decide) (by decide)
  exact ⟨R, out, hR, hout, hx⟩

/-- A transfer of empty messages does not deliver. -/
theorem otExtension_empty_message : ∃ R,
    step1R2S sampleOtOracles [1] (List.replicate 256 (List.replicate 16 5))
      (List.replicate 256 (List.replicate 16 9))
      ⟨1, [1], rfl⟩ 0 (fun _ => 7) = .ok R ∧
    step2S2RHelper sampleOtOracles [1] ⟨256, List.replicate 32 0,
      rfl⟩ (List.replicate 256 (List.replicate 16 5))
      (.messages [[]] [[]]) R.msg = throwing .assertionFailed := by
  refine ⟨honestReceiver sampleOtOracles [1] (List.replicate 256 (List.replicate 16 5))
    (List.replicate 256 (List.replicate 16 9)) ⟨1, [1], rfl⟩ 0 (fun _ => 7), ?_, ?_⟩
  · exact step1R2S_eq sampleBaseOt [1] ⟨1, [1], rfl⟩ 0 (fun _ => 7)
  · exact step2S2RHelper_empty sampleOtOracles sampleBaseOt [1] ⟨1, [1], rfl⟩
      (by decide) (fun _ => 7)

end CbMpc
