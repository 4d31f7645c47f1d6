import CbMpc.BitString
import CbMpc.Bytes

/-!
# Bit vectors and the transposition of bit matrices

The vectors of choice bits and the matrices of the OT extension. A matrix of 256 rows
is transposed in blocks of 256 columns, and a last block that is not full is left out.
-/
namespace CbMpc

open BitString

/-- `bits_t`, whose last byte can hold further bits. -/
structure Bits where
  count : ℕ
  data : List Byte
  size_eq : data.length = bitsToBytes count

/-- `bits_t::get` at an index below `count`. -/
def Bits.get (b : Bits) (i : ℕ) : Bool := bit b.data i

/-- `bits_t::to_bin`, which clears the unused bits. -/
def Bits.toBin (b : Bits) : List Byte :=
  ofBits (bitsToBytes b.count) fun i => decide (i < b.count) && b.get i

/-- `bits_t::ref_t::set`. -/
def setBit (s : List Byte) (i : ℕ) (value : Bool) : List Byte :=
  s.modify (i / 8) fun byte =>
    (byte &&& ~~~(1#8 <<< (i % 8))) ||| (if value then 1#8 <<< (i % 8) else 0)

@[simp] theorem length_setBit (s : List Byte) (i : ℕ) (value : Bool) :
    (setBit s i value).length = s.length := by
  simp [setBit]

@[simp] theorem length_foldl_setBit (l : List ℕ) (s : List Byte) (at_ : ℕ → ℕ) (f : ℕ → Bool) :
    (l.foldl (fun dst i => setBit dst (at_ i) (f i)) s).length = s.length := by
  induction l generalizing s with
  | nil => rfl
  | cons i l ih => rw [List.foldl_cons, ih, length_setBit]

/-- `bits_t::operator+`: whole bytes are copied when the first vector ends with a byte,
and single bits otherwise. -/
def Bits.append (a b : Bits) : Bits where
  count := a.count + b.count
  data :=
    if a.count % 8 = 0 then a.toBin ++ b.toBin
    else (List.range b.count).foldl (fun dst i => setBit dst (a.count + i) (b.get i))
      (a.toBin ++ List.replicate (bitsToBytes (a.count + b.count) - bitsToBytes a.count) 0)
  size_eq := by
    split
    · simp only [Bits.toBin, List.length_append, length_ofBits, bitsToBytes]
      omega
    · rw [length_foldl_setBit]
      simp only [Bits.toBin, List.length_append, length_ofBits, List.length_replicate, bitsToBytes]
      omega

theorem bit_setBit {s : List Byte} {k : ℕ} (hk : k < 8 * s.length) (value : Bool) (i : ℕ) :
    bit (setBit s k value) i = if i = k then value else bit s i := by
  by_cases hbyte : i / 8 = k / 8
  · have hlt : i / 8 < s.length := by omega
    rw [bit_of_lt (by simpa using hlt), bit_of_lt hlt]
    simp only [setBit, List.getElem_modify, hbyte, if_true]
    by_cases hik : i = k
    · subst hik
      have hmod : i % 8 < 8 := Nat.mod_lt _ (by decide)
      cases value <;> simp [hmod]
    · have hmod : i % 8 < 8 := Nat.mod_lt _ (by decide)
      rcases (by omega : i % 8 < k % 8 ∨ ¬i % 8 - k % 8 = 0) with h | h
      · cases value <;> simp [hik, hmod, h]
      · cases value <;> simp [hik, hmod, h]
  · have hik : i ≠ k := fun h => hbyte (by rw [h])
    rw [if_neg hik, bit, bit, setBit]
    simp only [List.getD_eq_getElem?_getD, List.getElem?_modify]
    have hne : ¬k / 8 = i / 8 := fun h => hbyte h.symm
    simp [hne]

theorem bit_foldl_setBit (f : ℕ → Bool) (a n : ℕ) {s : List Byte}
    (h : a + n ≤ 8 * s.length) (i : ℕ) :
    bit ((List.range n).foldl (fun dst i => setBit dst (a + i) (f i)) s) i =
      if a ≤ i ∧ i < a + n then f (i - a) else bit s i := by
  induction n with
  | zero =>
    simp
  | succ n ih =>
    rw [List.range_succ, List.foldl_append, List.foldl_cons, List.foldl_nil]
    rw [bit_setBit (by rw [length_foldl_setBit (List.range n) s (fun i => a + i)]; omega),
      ih (by omega)]
    by_cases hlast : i = a + n
    · subst hlast
      simp
    · have hiff : (a ≤ i ∧ i < a + (n + 1)) ↔ (a ≤ i ∧ i < a + n) := by omega
      simp only [hlast, if_false, hiff]

theorem bit_toBin (b : Bits) {i : ℕ} (h : i < 8 * bitsToBytes b.count) :
    bit b.toBin i = (decide (i < b.count) && b.get i) := bit_ofBits h _

@[simp] theorem length_toBin (b : Bits) : b.toBin.length = bitsToBytes b.count := length_ofBits _ _

/-- Concatenation puts the second vector behind the first one. -/
theorem append_get (a b : Bits) {i : ℕ} (h : i < a.count + b.count) :
    (a.append b).get i = if i < a.count then a.get i else b.get (i - a.count) := by
  simp only [Bits.get, Bits.append]
  by_cases haligned : a.count % 8 = 0
  · have hbytes : 8 * bitsToBytes a.count = a.count := by
      simp only [bitsToBytes]
      omega
    have hb : i < a.count ∨ i - a.count < 8 * bitsToBytes b.count := by
      simp only [bitsToBytes]
      omega
    rw [if_pos haligned, bit_append, length_toBin, hbytes]
    split
    · rename_i hlt
      rw [bit_toBin a (by omega)]
      simp [hlt, Bits.get]
    · rename_i hge
      rw [bit_toBin b (by omega)]
      have hlt : i - a.count < b.count := by omega
      simp [hlt, Bits.get]
  · have hlen : a.count + b.count ≤ 8 * (a.toBin ++
        List.replicate (bitsToBytes (a.count + b.count) - bitsToBytes a.count)
          (0 : Byte)).length := by
      simp only [List.length_append, length_toBin, List.length_replicate, bitsToBytes]
      omega
    rw [if_neg haligned, bit_foldl_setBit _ _ _ hlen]
    by_cases hlt : i < a.count
    · have hbytes : i < 8 * bitsToBytes a.count := by
        simp only [bitsToBytes]
        omega
      have hnot : ¬(a.count ≤ i ∧ i < a.count + b.count) := by omega
      rw [if_neg hnot, if_pos hlt, bit_append, length_toBin, if_pos hbytes, bit_toBin a hbytes]
      simp [hlt, Bits.get]
    · have hin : a.count ≤ i ∧ i < a.count + b.count := by omega
      rw [if_pos hin, if_neg hlt]

/-- `generic_v128_t`: sixteen bytes that are also two words. -/
structure V128 where
  lo : BitVec 64
  hi : BitVec 64

def V128.load (b : ℕ → Byte) : V128 where
  lo := BitVec.ofFnLE fun p : Fin 64 => (b (p / 8)).getLsbD (p % 8)
  hi := BitVec.ofFnLE fun p : Fin 64 => (b (8 + p / 8)).getLsbD (p % 8)

def V128.byte (v : V128) (i : ℕ) : Byte :=
  if i < 8 then v.lo.extractLsb' (8 * i) 8 else v.hi.extractLsb' (8 * (i - 8)) 8

def lshift64x2 (v : V128) : V128 := ⟨v.lo <<< 1, v.hi <<< 1⟩

/-- The highest bits of the sixteen bytes. -/
def high16x8 (v : V128) : BitVec 16 := BitVec.ofFnLE fun i : Fin 16 => (v.byte i).getLsbD 7

def leSet2 (v : BitVec 16) : List Byte := [v.extractLsb' 0 8, v.extractLsb' 8 8]

/-- Line `y` of `matrix_transposition` for 256 rows of 32 bytes. Two of its bytes at a
time come from a block of sixteen rows, shifted until bit `y % 8` is the highest one. -/
def matrixTransposition (inp : ℕ → List Byte) (y : ℕ) : List Byte :=
  (List.range 32).map fun z =>
    let tmp := V128.load fun i => (inp (16 * (z / 2) + i)).getD (y / 8) 0
    (leSet2 (high16x8 (lshift64x2^[7 - y % 8] tmp))).getD (z % 2) 0

/-- `ot_matrix_transpose`. Lines behind the last full block stay zero. -/
def otMatrixTranspose (cols : ℕ) (src : List (List Byte)) : List (List Byte) :=
  (List.range cols).map fun c =>
    if c / 256 < cols / 256 then
      matrixTransposition (fun j => ((src.getD j []).drop (32 * (c / 256))).take 32) (c % 256)
    else List.replicate 32 0

theorem lshift64x2_iterate (n : ℕ) (v : V128) : lshift64x2^[n] v = ⟨v.lo <<< n, v.hi <<< n⟩ := by
  induction n with
  | zero => simp
  | succ n ih =>
    rw [Function.iterate_succ_apply', ih, lshift64x2, ← BitVec.shiftLeft_add,
      ← BitVec.shiftLeft_add]

/-- Shifting the words brings a lower bit of each byte to its top. -/
theorem high16x8_lshift (b : ℕ → Byte) {j n : ℕ} (hj : j < 16) (hn : n < 8) :
    (high16x8 (lshift64x2^[7 - n] (V128.load b))).getLsbD j = (b j).getLsbD n := by
  rw [lshift64x2_iterate, high16x8, BitVec.getLsbD_ofFnLE, dif_pos hj]
  have hword : ∀ (c : ℕ → Byte) (k : ℕ), k < 8 →
      ((BitVec.ofFnLE fun p : Fin 64 => (c (p / 8)).getLsbD (p % 8)) <<< (7 - n)).getLsbD
        (8 * k + 7) =
        (c k).getLsbD n := by
    intro c k hk
    have hsub : 8 * k + 7 - (7 - n) = 8 * k + n := by omega
    have hlt : ¬8 * k + 7 < 7 - n := by omega
    have hin : 8 * k + n < 64 := by omega
    have hdiv : (8 * k + n) / 8 = k := by omega
    have hmod : (8 * k + n) % 8 = n := by omega
    rw [BitVec.getLsbD_shiftLeft, hsub, BitVec.getLsbD_ofFnLE, dif_pos hin]
    simp [hlt, hdiv, hmod]
    omega
  simp only [V128.byte, V128.load]
  split
  · rename_i hlt
    rw [BitVec.getLsbD_extractLsb']
    simpa using hword b j hlt
  · rename_i hge
    have hsum : 8 + (j - 8) = j := by omega
    have h := hword (fun k => b (8 + k)) (j - 8) (by omega)
    rw [BitVec.getLsbD_extractLsb']
    simpa [hsum] using h

theorem bit_matrixTransposition (inp : ℕ → List Byte) {x y : ℕ} (hx : x < 256) :
    bit (matrixTransposition inp y) x = bit (inp x) y := by
  have hz : x / 8 < 32 := by omega
  have hrow : 16 * (x / 8 / 2) + x % 16 = x := by omega
  rw [bit_of_lt (by simpa [matrixTransposition] using hz)]
  simp only [matrixTransposition, List.getElem_map, List.getElem_range]
  have hhigh := high16x8_lshift (fun i => (inp (16 * (x / 8 / 2) + i)).getD (y / 8) 0)
    (Nat.mod_lt x (by decide : 0 < 16)) (Nat.mod_lt y (by decide : 0 < 8))
  rw [hrow] at hhigh
  rw [bit, ← hhigh]
  rcases Nat.mod_two_eq_zero_or_one (x / 8) with h | h
  · have hmod : x % 16 = x % 8 := by omega
    have hlt : x % 8 < 8 := Nat.mod_lt _ (by decide)
    simp [h, leSet2, hmod, hlt]
  · have hmod : x % 16 = 8 + x % 8 := by omega
    have hlt : x % 8 < 8 := Nat.mod_lt _ (by decide)
    simp [h, leSet2, hmod, hlt]

/-- Inside the full blocks, bit `x` of line `c` is bit `c` of row `x`. -/
theorem bit_otMatrixTranspose {cols : ℕ} {src : List (List Byte)} {c x : ℕ}
    (hc : c < 256 * (cols / 256)) (hx : x < 256) :
    bit ((otMatrixTranspose cols src).getD c []) x = bit (src.getD x []) c := by
  have hlt : c < cols := by omega
  have hblock : c / 256 < cols / 256 := by omega
  have hcol : 8 * (32 * (c / 256)) + c % 256 = c := by omega
  rw [List.getD_eq_getElem _ _ (by simpa [otMatrixTranspose] using hlt)]
  simp only [otMatrixTranspose, List.getElem_map, List.getElem_range, if_pos hblock]
  rw [bit_matrixTransposition _ hx, bit_slice _ _ (by omega), hcol]

theorem length_otMatrixTranspose {cols : ℕ} {src : List (List Byte)} {c : ℕ} (hc : c < cols) :
    ((otMatrixTranspose cols src).getD c []).length = 32 := by
  rw [List.getD_eq_getElem _ _ (by simpa [otMatrixTranspose] using hc)]
  simp only [otMatrixTranspose, List.getElem_map, List.getElem_range]
  split
  · simp [matrixTransposition]
  · simp

end CbMpc
