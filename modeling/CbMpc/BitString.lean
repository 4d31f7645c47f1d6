import Mathlib

/-!
# Byte strings as sequences of bits

Bits are numbered from the least significant one of the first byte.
-/
namespace BitString

abbrev Byte := BitVec 8

/-- Bit `i` of a byte string, and false behind its end. -/
def bit (s : List Byte) (i : ℕ) : Bool := (s.getD (i / 8) 0).getLsbD (i % 8)

/-- The string of `n` bytes with the bits `f`. -/
def ofBits (n : ℕ) (f : ℕ → Bool) : List Byte :=
  (List.range n).map fun k => BitVec.ofFnLE fun j : Fin 8 => f (8 * k + j)

/-- Exclusive or, byte by byte. -/
def xor (s t : List Byte) : List Byte := List.zipWith (· ^^^ ·) s t

/-- A byte of ones or of zeroes. -/
def mask (b : Bool) : Byte := if b then BitVec.allOnes 8 else 0

/-- The first string or the second one, without a branch. -/
def select (b : Bool) (s t : List Byte) : List Byte :=
  List.zipWith (fun x y => (x &&& mask b) ||| (y &&& mask (!b))) s t

/-- Exclusive or with the second string or with nothing, without a branch. -/
def xorMasked (b : Bool) (s t : List Byte) : List Byte :=
  List.zipWith (fun x y => x ^^^ (y &&& mask b)) s t

/-- A copy of `t` over the bytes from position `k` on. -/
def overwrite (s : List Byte) (k : ℕ) (t : List Byte) : List Byte :=
  s.take k ++ t ++ s.drop (k + t.length)

theorem bit_eq_false {s : List Byte} {i : ℕ} (h : 8 * s.length ≤ i) : bit s i = false := by
  rw [bit, List.getD_eq_default _ _ (by omega)]
  simp

theorem bit_of_lt {s : List Byte} {i : ℕ} (h : i / 8 < s.length) :
    bit s i = s[i / 8].getLsbD (i % 8) := by
  rw [bit, List.getD_eq_getElem _ _ h]

/-- Strings of one length with the same bits are the same. -/
theorem eq_of_bit {s t : List Byte} (hlen : s.length = t.length)
    (h : ∀ i < 8 * s.length, bit s i = bit t i) : s = t := by
  apply List.ext_getElem hlen
  intro k hs ht
  apply BitVec.eq_of_getLsbD_eq
  intro j hj
  have hbit := h (8 * k + j) (by omega)
  rw [bit_of_lt (by omega), bit_of_lt (by omega)] at hbit
  have hdiv : (8 * k + j) / 8 = k := by omega
  have hmod : (8 * k + j) % 8 = j := by omega
  simpa only [hdiv, hmod] using hbit

@[simp] theorem length_ofBits (n : ℕ) (f : ℕ → Bool) : (ofBits n f).length = n := by
  simp [ofBits]

theorem bit_ofBits {n i : ℕ} (h : i < 8 * n) (f : ℕ → Bool) : bit (ofBits n f) i = f i := by
  rw [bit_of_lt (by simp; omega)]
  simp only [ofBits, List.getElem_map, List.getElem_range]
  rw [BitVec.getLsbD_ofFnLE, dif_pos (Nat.mod_lt _ (by decide))]
  congr 1
  exact Nat.div_add_mod i 8

@[simp] theorem length_xor (s t : List Byte) : (xor s t).length = min s.length t.length := by
  simp [xor]

theorem bit_xor {s t : List Byte} (hlen : s.length = t.length) (i : ℕ) :
    bit (xor s t) i = (bit s i ^^ bit t i) := by
  by_cases h : i < 8 * s.length
  · rw [bit_of_lt (by simp; omega), bit_of_lt (by omega), bit_of_lt (by omega)]
    simp [xor]
  · rw [bit_eq_false (by simp; omega), bit_eq_false (by omega), bit_eq_false (by omega)]
    rfl

theorem xor_comm (s t : List Byte) : xor s t = xor t s := List.zipWith_comm_of_comm BitVec.xor_comm

theorem xor_xor_cancel {s t : List Byte} (hlen : s.length = t.length) : xor s (xor s t) = t := by
  apply eq_of_bit
  · simp [hlen]
  · intro i _
    rw [bit_xor (by simp [hlen]), bit_xor hlen]
    cases bit s i <;> simp

theorem xor_zeroes (s : List Byte) : xor s (List.replicate s.length 0) = s := by
  apply List.ext_getElem
  · simp
  · intro k h1 h2
    simp [xor]

theorem select_true {s t : List Byte} (hlen : s.length = t.length) : select true s t = s := by
  apply List.ext_getElem
  · simp [select, hlen]
  · intro k h1 h2
    simp [select, mask, -BitVec.reduceAllOnes]

theorem select_false {s t : List Byte} (hlen : s.length = t.length) : select false s t = t := by
  apply List.ext_getElem
  · simp [select, hlen]
  · intro k h1 h2
    simp [select, mask, -BitVec.reduceAllOnes]

/-- The branch-free choice is the choice. -/
theorem select_eq {s t : List Byte} (hlen : s.length = t.length) (b : Bool) :
    select b s t = if b then s else t := by
  cases b with
  | false => exact select_false hlen
  | true => exact select_true hlen

theorem xorMasked_eq {s t : List Byte} (hlen : s.length = t.length) (b : Bool) :
    xorMasked b s t = if b then xor s t else s := by
  cases b with
  | false =>
    apply List.ext_getElem
    · simp [xorMasked, hlen]
    · intro k h1 h2
      simp [xorMasked, mask]
  | true =>
    apply List.ext_getElem
    · simp [xorMasked]
    · intro k h1 h2
      simp [xorMasked, xor, mask, -BitVec.reduceAllOnes]

theorem bit_append (s t : List Byte) (i : ℕ) :
    bit (s ++ t) i = if i < 8 * s.length then bit s i else bit t (i - 8 * s.length) := by
  split
  · rename_i h
    rw [bit_of_lt (by simp; omega), bit_of_lt (by omega), List.getElem_append_left (by omega)]
  · rename_i h
    have hdiv : (i - 8 * s.length) / 8 = i / 8 - s.length := by omega
    have hmod : (i - 8 * s.length) % 8 = i % 8 := by omega
    rw [bit, bit, List.getD_append_right _ _ _ _ (by omega), hdiv, hmod]

/-- A slice that starts at a byte has the bits behind it. -/
theorem bit_slice {s : List Byte} (k n : ℕ) {i : ℕ} (h : i < 8 * n) :
    bit ((s.drop k).take n) i = bit s (8 * k + i) := by
  have hdiv : (8 * k + i) / 8 = k + i / 8 := by omega
  have hmod : (8 * k + i) % 8 = i % 8 := by omega
  simp only [bit, hdiv, hmod, List.getD_eq_getElem?_getD]
  rw [List.getElem?_take_of_lt (by omega), List.getElem?_drop]

theorem length_overwrite {s t : List Byte} {k : ℕ} (h : k + t.length ≤ s.length) :
    (overwrite s k t).length = s.length := by
  simp only [overwrite, List.length_append, List.length_take, List.length_drop]
  omega

/-- Copying changes the bits of the bytes below the copy, and no others. -/
theorem bit_overwrite {s t : List Byte} {k : ℕ} (h : k + t.length ≤ s.length) (i : ℕ) :
    bit (overwrite s k t) i = if 8 * k ≤ i ∧ i < 8 * (k + t.length) then
      bit t (i - 8 * k) else bit s i := by
  have htake : (s.take k).length = k := List.length_take_of_le (by omega)
  rw [overwrite, bit_append, bit_append, List.length_append, htake]
  by_cases hbefore : i < 8 * k
  · rw [if_pos (by omega), if_pos hbefore, if_neg (by omega)]
    simp only [bit, List.getD_eq_getElem?_getD]
    rw [List.getElem?_take_of_lt (by omega)]
  · by_cases hinside : i < 8 * (k + t.length)
    · rw [if_pos hinside, if_neg hbefore, if_pos (by omega)]
    · have hdiv : k + t.length + (i - 8 * (k + t.length)) / 8 = i / 8 := by omega
      have hmod : (i - 8 * (k + t.length)) % 8 = i % 8 := by omega
      rw [if_neg hinside, if_neg (by omega)]
      simp only [bit, List.getD_eq_getElem?_getD, List.getElem?_drop, hdiv, hmod]

end BitString
