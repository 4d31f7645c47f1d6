import CbMpc.Bytes
import CbMpc.Curve

/-!
# The generator of seeded randomness

`drbg_aes_ctr_t` hands out a key stream from front to back. A seed of 32 bytes is a key and a start
of the counter; every other seed is hashed into these, behind the start of the stream for the zero
key.
-/
namespace CbMpc

/-- `aes_ctr_t`, from a key and the first counter to all its bytes, and `sha256_t`. -/
structure DrbgOracles where
  aesCtr : List (Fin 256) → List (Fin 256) → Stream' (Fin 256)
  sha256 : List (Fin 256) → List (Fin 256)

/-- `drbg_aes_ctr_t`: the bytes still to come. -/
abbrev Drbg := Stream' (Fin 256)

/-- `buf128_t`. -/
abbrev Buf128 := List.Vector (Fin 256) 16

/-- `drbg_aes_ctr_t::gen`. -/
def Drbg.gen (size : ℕ) (d : Drbg) : List (Fin 256) × Drbg := (d.take size, d.drop size)

/-- `drbg_aes_ctr_t::init()`. -/
def drbgStart (O : DrbgOracles) : Drbg := O.aesCtr (List.replicate 16 0) (List.replicate 16 0)

/-- `drbg_aes_ctr_t::seed`. -/
def Drbg.seed (O : DrbgOracles) (input : List (Fin 256)) (d : Drbg) : Drbg :=
  let old := (d.gen 16).1
  let hash := O.sha256 (old ++ input)
  O.aesCtr (hash.take 16) (hash.drop 16)

/-- `drbg_aes_ctr_t::init`. -/
def drbgInit (O : DrbgOracles) (s : List (Fin 256)) : Outcome Drbg := do
  cbAssert (decide (secPCom ≤ 8 * s.length))
  if s.length = 32 then .ok (O.aesCtr (s.take 16) (s.drop 16)) else .ok ((drbgStart O).seed O s)

/-- `bn_t::from_bin_bitlen`. -/
def fromBinBitlen (mem : List (Fin 256)) (bits : ℕ) : Outcome ℤ := do
  cbAssert (decide (mem.length = bitsToBytes bits))
  match mem with
  | [] => .ok (fromBin mem)
  | first :: rest =>
    let mask : Fin 256 := ⟨255 >>> (8 * mem.length - bits),
      lt_of_le_of_lt (Nat.shiftRight_le _ _) (by norm_num)⟩
    if first = first &&& mask then .ok (fromBin mem) else .ok (fromBin ((first &&& mask) :: rest))

/-- `drbg_aes_ctr_t::gen_bn` of some number of bits. -/
def Drbg.genBits (bits : ℕ) (d : Drbg) : Outcome (ℤ × Drbg) := do
  let (bin, d) := d.gen (bitsToBytes bits)
  let v ← fromBinBitlen bin bits
  .ok (v, d)

/-- `drbg_aes_ctr_t::gen_bn` modulo `q`. -/
def Drbg.genBn (q : ℕ) (d : Drbg) : Outcome (ℤ × Drbg) := do
  let (v, d) ← d.genBits (q.size + secPStat)
  let v ← modReduce q v
  .ok (v, d)

/-- The first byte of an integer, cut to the bits that it may use. -/
def cutFirst (bits : ℕ) : List (Fin 256) → List (Fin 256)
  | [] => []
  | first :: rest =>
    (first &&& ⟨255 >>> (8 * (rest.length + 1) - bits),
      lt_of_le_of_lt (Nat.shiftRight_le _ _) (by norm_num)⟩) :: rest

theorem fromBinBitlen_eq {mem : List (Fin 256)} {bits : ℕ} (h : mem.length = bitsToBytes bits) :
    fromBinBitlen mem bits = .ok (fromBin (cutFirst bits mem)) := by
  unfold fromBinBitlen
  rw [decide_eq_true h, cbAssert_true, ok_bind]
  cases mem with
  | nil => rfl
  | cons first rest =>
    simp only [List.length_cons, cutFirst]
    split
    · rename_i hfirst
      rw [← hfirst]
    · rfl

/-- The residue that `gen_bn` draws. -/
def Drbg.draw (q : ℕ) (d : Drbg) : ZMod q :=
  (fromBin (cutFirst (q.size + secPStat) (d.take (bitsToBytes (q.size + secPStat)))) : ZMod q)

/-- The generator after `gen_bn`. -/
def Drbg.afterDraw (q : ℕ) (d : Drbg) : Drbg := d.drop (bitsToBytes (q.size + secPStat))

/-- The integers that `gen_bn` draws one after another, as `share` takes them. -/
def Drbg.draws (q : ℕ) (d : Drbg) : Stream' (ZMod q) :=
  Stream'.corec (Drbg.draw q) (Drbg.afterDraw q) d

theorem drbgInit_seeded (O : DrbgOracles) {s : List (Fin 256)} (h : 16 ≤ s.length) :
    ∃ d, drbgInit O s = .ok d := by
  have hbits : secPCom ≤ 8 * s.length := by
    rw [secPCom]
    omega
  rw [drbgInit, decide_eq_true hbits, cbAssert_true, ok_bind]
  split
  · exact ⟨_, rfl⟩
  · exact ⟨_, rfl⟩

theorem cutFirst_length (bits : ℕ) (mem : List (Fin 256)) :
    (cutFirst bits mem).length = mem.length := by
  cases mem <;> rfl

/-- An operand of as many words as the square has is reduced at once. -/
theorem modReduce_of_bnTop_le {q : ℕ} {x : ℤ} (hx : 0 ≤ x) (h : bnTop x ≤ 2 * bnTop q) :
    modReduce q x = .ok (x % q) := by
  rw [modReduce, modReduceAux, if_pos h, modWords_eq hx]

variable {q : ℕ} [hq : Fact q.Prime]

/-- `gen_bn` does not assert: 64 bits more than the modulus has are at most twice its words. -/
theorem Drbg.genBn_eq (d : Drbg) : d.genBn q = .ok (residue (d.draw q), d.afterDraw q) := by
  generalize hv :
    fromBin (cutFirst (q.size + secPStat) (d.take (bitsToBytes (q.size + secPStat)))) = v
  have hlt : v < 256 ^ bitsToBytes (q.size + secPStat) := by
    have hbin :=
      fromBin_lt (cutFirst (q.size + secPStat) (d.take (bitsToBytes (q.size + secPStat))))
    rwa [hv, cutFirst_length, Stream'.length_take] at hbin
  have hsize : v.size ≤ 8 * bitsToBytes (q.size + secPStat) := by
    rw [Nat.size_le, pow_mul]
    exact hlt
  have hpos : 0 < q.size := Nat.size_pos.mpr hq.out.pos
  have htop : bnTop (v : ℤ) ≤ 2 * bnTop (q : ℤ) := by
    simp only [bnTop, Int.natAbs_natCast, bitsToBytes, secPStat] at hsize ⊢
    omega
  have hmod : modReduce q (v : ℤ) = .ok (residue (v : ZMod q)) := by
    rw [modReduce_of_bnTop_le (Int.natCast_nonneg v) htop, emod_eq_residue, Int.cast_natCast]
  have hbits : d.genBits (q.size + secPStat) = .ok ((v : ℤ), d.afterDraw q) := by
    change (fromBinBitlen (d.take (bitsToBytes (q.size + secPStat)))
        (q.size + secPStat) >>= fun v =>
      Except.ok (v, d.afterDraw q)) = _
    rw [fromBinBitlen_eq (Stream'.length_take _ _), hv, ok_bind]
  rw [Drbg.genBn, hbits, ok_bind]
  change (modReduce q (v : ℤ) >>= fun v => Except.ok (v, d.afterDraw q)) = _
  rw [hmod, ok_bind, Drbg.draw, hv]

end CbMpc
