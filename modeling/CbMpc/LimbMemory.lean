import CbMpc.BitString

/-!
# Memory in limbs of 64 bits

Bits are numbered from the least significant one of the first limb. On a little-endian machine the
same memory is a string of bytes with the same numbering, and copies go by bytes.
-/
namespace LimbMemory

open BitString

abbrev Limb := BitVec 64

/-- Bit `i`, and false behind the end. -/
def limbBit (d : List Limb) (i : ℕ) : Bool := (d.getD (i / 64) 0).getLsbD (i % 64)

def setLimbBit (d : List Limb) (i : ℕ) (value : Bool) : List Limb :=
  d.modify (i / 64) fun limb =>
    (limb &&& ~~~(1#64 <<< (i % 64))) ||| ((if value then 1#64 else 0#64) <<< (i % 64))

/-- The last limb without its highest `unused` bits. -/
def maskLast (d : List Limb) (unused : ℕ) : List Limb :=
  d.modify (d.length - 1) fun limb => limb &&& (BitVec.allOnes 64 >>> unused)

/-- The memory as bytes. -/
def limbBytes (d : List Limb) : List Byte := ofBits (8 * d.length) (limbBit d)

def ofLimbBytes (s : List Byte) : List Limb :=
  (List.range (s.length / 8)).map fun k => BitVec.ofFnLE fun j : Fin 64 => bit s (64 * k + j)

theorem limbBit_of_lt {d : List Limb} {i : ℕ} (h : i / 64 < d.length) :
    limbBit d i = d[i / 64].getLsbD (i % 64) := by
  rw [limbBit, List.getD_eq_getElem _ _ h]

theorem limbBit_eq_false {d : List Limb} {i : ℕ} (h : 64 * d.length ≤ i) : limbBit d i = false := by
  rw [limbBit, List.getD_eq_default _ _ (by omega)]
  simp

@[simp] theorem length_setLimbBit (d : List Limb) (i : ℕ) (value : Bool) :
    (setLimbBit d i value).length = d.length := by
  simp [setLimbBit]

theorem limbBit_setLimbBit {d : List Limb} {k : ℕ} (hk : k < 64 * d.length) (value : Bool) (i : ℕ) :
    limbBit (setLimbBit d k value) i = if i = k then value else limbBit d i := by
  have hmod : i % 64 < 64 := Nat.mod_lt _ (by decide)
  by_cases hlimb : i / 64 = k / 64
  · have hlt : i / 64 < d.length := by omega
    rw [limbBit_of_lt (by simpa using hlt), limbBit_of_lt hlt]
    simp only [setLimbBit, List.getElem_modify, hlimb, if_true]
    by_cases hik : i = k
    · subst hik
      cases value <;> simp [hmod]
    · rcases (by omega : i % 64 < k % 64 ∨ ¬i % 64 - k % 64 = 0) with h | h
      · cases value <;> simp [hik, hmod, h]
      · cases value <;> simp [hik, hmod, h]
  · have hik : i ≠ k := fun h => hlimb (by rw [h])
    have hne : ¬k / 64 = i / 64 := fun h => hlimb h.symm
    rw [if_neg hik, limbBit, limbBit, setLimbBit]
    simp only [List.getD_eq_getElem?_getD, List.getElem?_modify]
    simp [hne]

@[simp] theorem length_maskLast (d : List Limb) (unused : ℕ) :
    (maskLast d unused).length = d.length := by
  simp [maskLast]

theorem limbBit_maskLast {d : List Limb} {unused : ℕ} (hunused : unused < 64) (i : ℕ) :
    limbBit (maskLast d unused) i = (decide (i + unused < 64 * d.length) && limbBit d i) := by
  by_cases hend : 64 * d.length ≤ i
  · rw [limbBit_eq_false (by simpa using hend), limbBit_eq_false hend, Bool.and_false]
  have hlt : i / 64 < d.length := by omega
  have hmod : i % 64 < 64 := Nat.mod_lt _ (by decide)
  rw [limbBit_of_lt (by simpa using hlt), limbBit_of_lt hlt]
  simp only [maskLast, List.getElem_modify]
  by_cases hlast : d.length - 1 = i / 64
  · have hiff : unused + i % 64 < 64 ↔ i + unused < 64 * d.length := by omega
    rw [if_pos hlast, BitVec.getLsbD_and, BitVec.getLsbD_ushiftRight, BitVec.getLsbD_allOnes,
      decide_eq_decide.mpr hiff, Bool.and_comm]
  · have hin : i + unused < 64 * d.length := by omega
    rw [if_neg hlast, decide_eq_true hin, Bool.true_and]

theorem limbBit_append_zeroes (d : List Limb) (n i : ℕ) :
    limbBit (d ++ List.replicate n 0) i = limbBit d i := by
  by_cases h : i / 64 < d.length
  · rw [limbBit, limbBit, List.getD_append _ _ _ _ h]
  · rw [limbBit_eq_false (by omega : 64 * d.length ≤ i), limbBit,
      List.getD_append_right _ _ _ _ (by omega)]
    simp only [List.getD_eq_getElem?_getD, List.getElem?_replicate]
    split <;> simp

theorem limbBit_take {d : List Limb} {n i : ℕ} (h : i < 64 * n) :
    limbBit (d.take n) i = limbBit d i := by
  simp only [limbBit, List.getD_eq_getElem?_getD]
  rw [List.getElem?_take_of_lt (by omega)]

theorem limbBit_replicate_zero (n i : ℕ) : limbBit (List.replicate n 0) i = false := by
  simp only [limbBit, List.getD_eq_getElem?_getD, List.getElem?_replicate]
  split <;> simp

theorem limbBit_map_range {n i : ℕ} (f : ℕ → Limb) (h : i < 64 * n) :
    limbBit ((List.range n).map f) i = (f (i / 64)).getLsbD (i % 64) := by
  rw [limbBit_of_lt (by simp; omega), List.getElem_map, List.getElem_range]

@[simp] theorem length_limbBytes (d : List Limb) : (limbBytes d).length = 8 * d.length := by
  simp [limbBytes]

theorem bit_limbBytes (d : List Limb) (i : ℕ) : bit (limbBytes d) i = limbBit d i := by
  by_cases h : i < 64 * d.length
  · exact bit_ofBits (by omega) _
  · rw [bit_eq_false (by rw [length_limbBytes]; omega), limbBit_eq_false (by omega)]

@[simp] theorem length_ofLimbBytes (s : List Byte) : (ofLimbBytes s).length = s.length / 8 := by
  simp [ofLimbBytes]

theorem limbBit_ofLimbBytes {s : List Byte} (h : s.length % 8 = 0) (i : ℕ) :
    limbBit (ofLimbBytes s) i = bit s i := by
  by_cases hi : i / 64 < s.length / 8
  · rw [limbBit_of_lt (by simpa using hi)]
    simp only [ofLimbBytes, List.getElem_map, List.getElem_range]
    rw [BitVec.getLsbD_ofFnLE, dif_pos (Nat.mod_lt _ (by decide))]
    congr 1
    exact Nat.div_add_mod i 64
  · rw [limbBit_eq_false (by rw [length_ofLimbBytes]; omega), bit_eq_false (by omega)]

/-- Bytes copied into the memory from byte `k` on. -/
def poke (d : List Limb) (k : ℕ) (s : List Byte) : List Limb :=
  ofLimbBytes (overwrite (limbBytes d) k s)

theorem length_poke {d : List Limb} {k : ℕ} {s : List Byte} (h : k + s.length ≤ 8 * d.length) :
    (poke d k s).length = d.length := by
  rw [poke, length_ofLimbBytes, length_overwrite (by simpa using h), length_limbBytes]
  omega

theorem limbBit_poke {d : List Limb} {k : ℕ} {s : List Byte}
    (h : k + s.length ≤ 8 * d.length) (i : ℕ) :
    limbBit (poke d k s) i = if 8 * k ≤ i ∧ i < 8 * (k + s.length) then
      bit s (i - 8 * k) else limbBit d i := by
  have hroom : k + s.length ≤ (limbBytes d).length := by simpa using h
  rw [poke, limbBit_ofLimbBytes (by rw [length_overwrite hroom, length_limbBytes]; omega),
    bit_overwrite hroom, bit_limbBytes]

end LimbMemory
