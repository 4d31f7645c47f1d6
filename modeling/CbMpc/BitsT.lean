import CbMpc.LimbMemory
import CbMpc.Convert

/-!
# Strings of bits in limbs

`bits_t` keeps its bits in limbs of 64 bits. The bits of the last limb behind `count()` can hold
anything, and only some operations clear them. What an object stands for is the list of its first
`count()` bits.
-/
namespace CbMpc

open BitString LimbMemory

/-- `bits_t::bits_to_limbs`. -/
def bitsToLimbs (bits : ℕ) : ℕ := (bits + 63) / 64

/-- `bits_t`. -/
structure BitsT where
  bits : ℕ
  data : List Limb
  size_eq : data.length = bitsToLimbs bits

namespace BitsT

/-- The first `count()` bits. -/
def list (x : BitsT) : List Bool := (List.range x.bits).map (limbBit x.data)

def free : BitsT where
  bits := 0
  data := []
  size_eq := rfl

/-- `bits_t(int count)`. -/
def ofCount (count : ℕ) : BitsT where
  bits := count
  data := List.replicate (bitsToLimbs count) 0
  size_eq := List.length_replicate

def bzeroUnused (x : BitsT) : BitsT where
  bits := x.bits
  data := if 0 < bitsToLimbs x.bits * 64 - x.bits then
    maskLast x.data (bitsToLimbs x.bits * 64 - x.bits) else x.data
  size_eq := by
    split
    · rw [length_maskLast, x.size_eq]
    · exact x.size_eq

/-- `bzero`. -/
def bzero (x : BitsT) : BitsT where
  bits := x.bits
  data := List.replicate (bitsToLimbs x.bits) 0
  size_eq := List.length_replicate

/-- `alloc`, whose new limbs hold what was in the memory. Limbs that suffice are kept as they
are. -/
def alloc (fresh : ℕ → Limb) (x : BitsT) (count : ℕ) : BitsT where
  bits := count
  data := if bitsToLimbs x.bits = bitsToLimbs count then x.data else
    (List.range (bitsToLimbs count)).map fresh
  size_eq := by
    split
    · rename_i h
      rw [x.size_eq, h]
    · rw [List.length_map, List.length_range]

/-- `copy_from` another object. -/
def copyFrom (fresh : ℕ → Limb) (x src : BitsT) : BitsT :=
  if src.bits = 0 then free
  else
    { bits := (x.alloc fresh src.bits).bits
      data := src.data
      size_eq := src.size_eq }

/-- The unused bits are cleared before they become visible. -/
def clearForGrowth (x : BitsT) (count : ℕ) : BitsT :=
  if x.bits < count ∧ 0 < x.bits then x.bzeroUnused else x

/-- The limbs are kept, freed, or copied to new ones. -/
def resizeLimbs (x : BitsT) (count : ℕ) : BitsT :=
  if h : bitsToLimbs x.bits = bitsToLimbs count then
    let y : BitsT := ⟨count, x.data, x.size_eq.trans h⟩
    if 0 < count then y.bzeroUnused else y
  else if count = 0 then free
  else
    bzeroUnused
      { bits := count
        data := x.data.take (bitsToLimbs count) ++
          List.replicate (bitsToLimbs count - bitsToLimbs x.bits) 0
        size_eq := by
          rw [List.length_append, List.length_take, List.length_replicate, x.size_eq]
          omega }

/-- `resize` to a count that is not negative. -/
def resizeTo (x : BitsT) (count : ℕ) : BitsT :=
  if count = x.bits then x else (x.clearForGrowth count).resizeLimbs count

def resize (x : BitsT) (count : ℤ) : Outcome BitsT := do
  cbAssert (decide (0 ≤ count))
  .ok (x.resizeTo count.toNat)

def get (x : BitsT) (index : ℤ) : Outcome Bool := do
  cbAssert (decide (0 ≤ index ∧ index < x.bits))
  .ok (limbBit x.data index.toNat)

def set (x : BitsT) (index : ℤ) (value : Bool) : Outcome BitsT := do
  cbAssert (decide (0 ≤ index ∧ index < x.bits))
  .ok ⟨x.bits, setLimbBit x.data index.toNat value, by rw [length_setLimbBit, x.size_eq]⟩

def append (x : BitsT) (value : Bool) : Outcome BitsT := do
  cbAssert (decide (x.bits < intMax))
  let x := x.resizeTo (x.bits + 1)
  x.set (x.bits - 1) value

/-- The loop of `operator^` and `operator^=`. -/
def xorData (x src : BitsT) : List Limb :=
  (List.range (bitsToLimbs x.bits)).map fun i => x.data.getD i 0 ^^^ src.data.getD i 0

/-- `operator^=`. -/
def xorAssign (x src : BitsT) : Outcome BitsT := do
  cbAssert (decide (src.bits = x.bits))
  .ok ⟨x.bits, xorData x src, by rw [xorData, List.length_map, List.length_range]⟩

/-- `operator^`. -/
def xor (fresh : ℕ → Limb) (src1 src2 : BitsT) : Outcome BitsT := do
  cbAssert (decide (src1.bits = src2.bits))
  let out := free.alloc fresh src1.bits
  .ok ⟨out.bits, xorData src1 src2, by rw [xorData, List.length_map, List.length_range]; rfl⟩

/-- `to_bin`: a view of the bytes, and the object after its unused bits are cleared. -/
def toBin (x : BitsT) : List Byte × BitsT :=
  ((limbBytes x.bzeroUnused.data).take (bitsToBytes x.bits), x.bzeroUnused)

/-- `memmove` into the limbs. -/
def copyTo (x : BitsT) (k : ℕ) (s : List Byte) : Outcome BitsT :=
  if h : k + s.length ≤ 8 * x.data.length then
    .ok ⟨x.bits, poke x.data k s, by rw [length_poke h, x.size_eq]⟩
  else throwing .outOfBounds

/-- `for (int i = 0; i < n2; i++) dst[n1 + i] = src[i]`, where `src` can be `dst`. -/
def copyBits (n1 n2 : ℕ) (src : BitsT → ℤ → Outcome Bool) (dst : BitsT) : Outcome BitsT :=
  (List.range n2).foldlM (fun dst (i : ℕ) => do
    let b ← src dst i
    dst.set (n1 + i) b) dst

def fromBin (src : List Byte) : Outcome BitsT := (ofCount (8 * src.length)).copyTo 0 src

/-- The second operand goes behind the first one, as bytes when that one ends with a byte. -/
def putBehind (x src2 dst : BitsT) : Outcome BitsT :=
  if x.bits % 8 = 0 then dst.copyTo x.toBin.1.length src2.toBin.1
  else copyBits x.bits src2.bits (fun _ => src2.toBin.2.get) dst

/-- `operator+=` with another object, which `to_bin` changes as well. -/
def appendAssign (x src2 : BitsT) : Outcome (BitsT × BitsT) := do
  cbAssert (decide (src2.bits ≤ intMax - x.bits))
  let y ← putBehind x src2 (x.toBin.2.resizeTo (x.bits + src2.bits))
  .ok (y, src2.toBin.2)

/-- `operator+=` with the object itself. -/
def appendSelf (x : BitsT) : Outcome BitsT := do
  cbAssert (decide (x.bits ≤ intMax - x.bits))
  let y := x.resizeTo (x.bits + x.bits)
  if x.bits % 8 = 0 then
    y.copyTo (bitsToBytes x.bits) ((limbBytes y.data).take (bitsToBytes x.bits))
  else copyBits x.bits x.bits get y

/-- `operator+`, which changes the unused bits of both operands. -/
def concat (x src2 : BitsT) : Outcome (BitsT × BitsT × BitsT) := do
  cbAssert (decide (src2.bits ≤ intMax - x.bits))
  let dst := (ofCount (x.bits + src2.bits)).toBin.2
  let dst ← dst.copyTo 0 x.toBin.1
  let dst ← putBehind x src2 dst
  .ok (dst, x.toBin.2, src2.toBin.2)

/-- `convert` in the writing modes. -/
def write (x : BitsT) : WriteM Unit := do
  writeLen x.bits
  WriteM.put (x.toBin.1.map BitVec.toFin)

/-- `convert` in the reading mode, once the length is read. -/
def readData (fresh : ℕ → Limb) (x : BitsT) (count : ℕ) : ReadM BitsT := do
  if ← ReadM.ensure (bitsToBytes count) then
    let bytes ← ReadM.current (bitsToBytes count)
    let y ← StateT.lift ((x.alloc fresh count).copyTo 0 (bytes.map BitVec.ofFin))
    ReadM.forward (bitsToBytes count)
    return y
  else
    return x

def read (fresh : ℕ → Limb) (x : BitsT) : ReadM BitsT := do
  let count ← readLen
  readData fresh x count

@[simp] theorem length_list (x : BitsT) : x.list.length = x.bits := by simp [list]

theorem getD_list (x : BitsT) (i : ℕ) :
    x.list.getD i false = (decide (i < x.bits) && limbBit x.data i) := by
  by_cases h : i < x.bits
  · rw [list, getD_map_range _ _ h, decide_eq_true h, Bool.true_and]
  · rw [List.getD_eq_default _ _ (by rw [length_list]; omega), decide_eq_false h, Bool.false_and]

/-- An object stands for a list when it has its length and its bits. -/
theorem list_eq_iff {x : BitsT} {l : List Bool} :
    x.list = l ↔ x.bits = l.length ∧ ∀ i < x.bits, limbBit x.data i = l.getD i false := by
  constructor
  · rintro rfl
    refine ⟨(length_list x).symm, fun i hi => ?_⟩
    rw [getD_list, decide_eq_true hi, Bool.true_and]
  · rintro ⟨hlen, hbits⟩
    refine List.ext_getElem ((length_list x).trans hlen) fun i hi hi' => ?_
    rw [length_list] at hi
    rw [← List.getD_eq_getElem _ false, ← List.getD_eq_getElem _ false, getD_list,
      decide_eq_true hi, Bool.true_and, hbits i hi]

theorem bitsToLimbs_le (bits : ℕ) :
    bits ≤ 64 * bitsToLimbs bits ∧ 64 * bitsToLimbs bits < bits + 64 := by
  unfold bitsToLimbs
  omega

theorem bitsToBytes_le (x : BitsT) : bitsToBytes x.bits ≤ 8 * x.data.length := by
  rw [x.size_eq, bitsToBytes, bitsToLimbs]
  omega

@[simp] theorem list_free : free.list = [] := rfl

@[simp] theorem bits_bzeroUnused (x : BitsT) : x.bzeroUnused.bits = x.bits := rfl

@[simp] theorem bits_alloc (fresh : ℕ → Limb) (x : BitsT) (count : ℕ) :
    (x.alloc fresh count).bits = count := rfl

theorem limbBit_bzeroUnused (x : BitsT) (i : ℕ) :
    limbBit x.bzeroUnused.data i = (decide (i < x.bits) && limbBit x.data i) := by
  have hlimbs := bitsToLimbs_le x.bits
  simp only [bzeroUnused]
  split
  · rename_i h
    have hiff : i + (bitsToLimbs x.bits * 64 - x.bits) < 64 * x.data.length ↔ i < x.bits := by
      rw [x.size_eq]
      omega
    rw [limbBit_maskLast (by omega), decide_eq_decide.mpr hiff]
  · by_cases hi : i < x.bits
    · rw [decide_eq_true hi, Bool.true_and]
    · rw [decide_eq_false hi, Bool.false_and, limbBit_eq_false]
      rw [x.size_eq]
      omega

@[simp] theorem list_bzeroUnused (x : BitsT) : x.bzeroUnused.list = x.list := by
  rw [list_eq_iff]
  refine ⟨(length_list x).symm, fun i _ => ?_⟩
  rw [getD_list, limbBit_bzeroUnused]

@[simp] theorem list_ofCount (count : ℕ) : (ofCount count).list = List.replicate count false := by
  rw [list_eq_iff]
  refine ⟨List.length_replicate.symm, fun i hi => ?_⟩
  rw [List.getD_eq_getElem _ _ (by rw [List.length_replicate]; exact hi), List.getElem_replicate]
  exact limbBit_replicate_zero _ _

@[simp] theorem list_bzero (x : BitsT) :
    x.bzero.list = List.replicate x.bits false := list_ofCount x.bits

@[simp] theorem list_copyFrom (fresh : ℕ → Limb) (x src : BitsT) :
    (x.copyFrom fresh src).list = src.list := by
  rw [copyFrom]
  split
  · rename_i h
    rw [list_free, list, h]
    rfl
  · rfl

/-- What `resize` does to a list. -/
def resizeList (l : List Bool) (count : ℕ) : List Bool :=
  l.take count ++ List.replicate (count - l.length) false

@[simp] theorem length_resizeList (l : List Bool) (count : ℕ) :
    (resizeList l count).length = count := by
  rw [resizeList, List.length_append, List.length_take, List.length_replicate]
  omega

theorem getD_resizeList (l : List Bool) {count i : ℕ} (h : i < count) :
    (resizeList l count).getD i false = l.getD i false := by
  rw [resizeList]
  by_cases hi : i < l.length
  · rw [List.getD_append _ _ _ _ (by rw [List.length_take]; omega), List.getD_eq_getElem?_getD,
      List.getD_eq_getElem?_getD, List.getElem?_take_of_lt h]
  · rw [List.getD_append_right _ _ _ _ (by rw [List.length_take]; omega),
      List.getD_eq_default l _ (by omega)]
    simp only [List.getD_eq_getElem?_getD, List.getElem?_replicate]
    split <;> rfl

theorem bits_resizeLimbs (x : BitsT) (count : ℕ) : (x.resizeLimbs count).bits = count := by
  simp only [resizeLimbs]
  split
  · split <;> rfl
  · split
    · rename_i h
      exact h.symm
    · rfl

theorem bits_resizeTo (x : BitsT) (count : ℕ) : (x.resizeTo count).bits = count := by
  rw [resizeTo]
  split
  · rename_i h
    exact h.symm
  · exact bits_resizeLimbs _ count

theorem limbBit_resizeLimbs (x : BitsT) {count i : ℕ} (hi : i < count) :
    limbBit (x.resizeLimbs count).data i = limbBit x.data i := by
  simp only [resizeLimbs]
  split
  · rw [if_pos (by omega), limbBit_bzeroUnused, decide_eq_true hi, Bool.true_and]
  · rw [if_neg (by omega), limbBit_bzeroUnused, decide_eq_true hi, Bool.true_and,
      limbBit_append_zeroes, limbBit_take (by have := bitsToLimbs_le count; omega)]

theorem limbBit_clearForGrowth (x : BitsT) {count i : ℕ} (hi : i < count) :
    limbBit (x.clearForGrowth count).data i = (decide (i < x.bits) && limbBit x.data i) := by
  rw [clearForGrowth]
  split
  · exact limbBit_bzeroUnused x i
  · by_cases hin : i < x.bits
    · rw [decide_eq_true hin, Bool.true_and]
    · -- the object is empty
      rw [decide_eq_false hin, Bool.false_and, limbBit_eq_false]
      rw [x.size_eq, bitsToLimbs]
      omega

/-- The bits that `resize` adds are clear. -/
theorem limbBit_resizeTo (x : BitsT) {count i : ℕ} (hi : i < count) :
    limbBit (x.resizeTo count).data i = (decide (i < x.bits) && limbBit x.data i) := by
  rw [resizeTo]
  split
  · rw [decide_eq_true (by omega), Bool.true_and]
  · rw [limbBit_resizeLimbs _ hi, limbBit_clearForGrowth x hi]

@[simp] theorem list_resizeTo (x : BitsT) (count : ℕ) :
    (x.resizeTo count).list = resizeList x.list count := by
  rw [list_eq_iff, bits_resizeTo, length_resizeList]
  refine ⟨rfl, fun i hi => ?_⟩
  rw [limbBit_resizeTo x hi, getD_resizeList _ hi, getD_list]

/-- Two lists one behind the other. -/
theorem list_eq_append {y : BitsT} {l m : List Bool} (hbits : y.bits = l.length + m.length)
    (hl : ∀ i < l.length, limbBit y.data i = l.getD i false)
    (hm : ∀ i < m.length, limbBit y.data (l.length + i) = m.getD i false) : y.list = l ++ m := by
  rw [list_eq_iff, List.length_append]
  refine ⟨hbits, fun i hi => ?_⟩
  by_cases hfirst : i < l.length
  · rw [List.getD_append _ _ _ _ hfirst, hl i hfirst]
  · rw [List.getD_append_right _ _ _ _ (by omega), ← hm (i - l.length) (by omega)]
    congr 1
    omega

/-- Access to one element of a list. -/
def getList (l : List Bool) (index : ℤ) : Outcome Bool := do
  cbAssert (decide (0 ≤ index ∧ index < l.length))
  .ok (l.getD index.toNat false)

def setList (l : List Bool) (index : ℤ) (value : Bool) : Outcome (List Bool) := do
  cbAssert (decide (0 ≤ index ∧ index < l.length))
  .ok (l.set index.toNat value)

theorem get_eq (x : BitsT) (index : ℤ) : x.get index = getList x.list index := by
  rw [get, getList, length_list]
  by_cases h : 0 ≤ index ∧ index < x.bits
  · have hlt : index.toNat < x.bits := by omega
    rw [decide_eq_true h, getD_list, decide_eq_true hlt, Bool.true_and]
  · rw [decide_eq_false h]
    rfl

theorem get_ofNat {x : BitsT} {i : ℕ} (h : i < x.bits) : x.get i = .ok (x.list.getD i false) := by
  have hin : (0 : ℤ) ≤ i ∧ (i : ℤ) < x.bits := by omega
  rw [get_eq, getList, length_list, decide_eq_true hin, cbAssert_true, ok_bind, Int.toNat_natCast]

theorem set_ofNat {x : BitsT} {i : ℕ} (h : i < x.bits) (value : Bool) :
    ∃ y, x.set i value = .ok y ∧ y.bits = x.bits ∧
      ∀ j, limbBit y.data j = if j = i then value else limbBit x.data j := by
  have hin : (0 : ℤ) ≤ i ∧ (i : ℤ) < x.bits := by omega
  have hlimbs := bitsToLimbs_le x.bits
  refine ⟨⟨x.bits, setLimbBit x.data i value, by rw [length_setLimbBit, x.size_eq]⟩, ?_, rfl,
    fun j => ?_⟩
  · rw [set, decide_eq_true hin, cbAssert_true, ok_bind]
    rfl
  · exact limbBit_setLimbBit (by rw [x.size_eq]; omega) value j

theorem set_eq (x : BitsT) (index : ℤ) (value : Bool) :
    (x.set index value).map list = setList x.list index value := by
  rw [setList, length_list]
  by_cases h : 0 ≤ index ∧ index < x.bits
  · obtain ⟨i, rfl⟩ := Int.eq_ofNat_of_zero_le h.1
    have hi : i < x.bits := by omega
    obtain ⟨y, hy, hbits, hlimb⟩ := set_ofNat hi value
    rw [decide_eq_true h, cbAssert_true, ok_bind, hy, Int.toNat_natCast]
    refine congrArg Except.ok
      (list_eq_iff.mpr ⟨by rw [hbits, List.length_set, length_list], fun j hj => ?_⟩)
    rw [hlimb, List.getD_eq_getElem?_getD, List.getElem?_set]
    by_cases hji : j = i
    · rw [if_pos hji, if_pos hji.symm, if_pos (by rwa [length_list])]
      rfl
    · rw [if_neg hji, if_neg (Ne.symm hji), ← List.getD_eq_getElem?_getD, getD_list,
        decide_eq_true (by omega), Bool.true_and]
  · rw [set, decide_eq_false h]
    rfl

theorem append_eq {x : BitsT} (h : x.bits < intMax) (value : Bool) :
    ∃ y, x.append value = .ok y ∧ y.list = x.list ++ [value] := by
  have hbits := bits_resizeTo x (x.bits + 1)
  have hlast : x.bits < (x.resizeTo (x.bits + 1)).bits := by omega
  have hindex : (((x.resizeTo (x.bits + 1)).bits : ℕ) : ℤ) - 1 = (x.bits : ℕ) := by omega
  obtain ⟨y, hy, hybits, hlimb⟩ := set_ofNat hlast value
  refine ⟨y, ?_, list_eq_append (by rw [hybits, hbits, length_list]; rfl)
    (fun i hi => ?_) fun i hi => ?_⟩
  · rw [append, decide_eq_true h, cbAssert_true, ok_bind]
    simp only [hindex]
    exact hy
  · rw [length_list] at hi
    rw [hlimb, if_neg (by omega), limbBit_resizeTo x (by omega), getD_list]
  · have hi : i = 0 := by simpa using hi
    subst hi
    rw [hlimb, length_list, Nat.add_zero, if_pos rfl]
    rfl

/-- Exclusive or of lists of one length. -/
def xorList (l m : List Bool) : Outcome (List Bool) := do
  cbAssert (decide (m.length = l.length))
  .ok (List.zipWith Bool.xor l m)

theorem list_xorData {x src y : BitsT} (hlen : src.bits = x.bits) (hbits : y.bits = x.bits)
    (hdata : y.data = xorData x src) :
    y.list = List.zipWith Bool.xor x.list src.list := by
  have hlimbs := bitsToLimbs_le x.bits
  rw [list_eq_iff]
  refine ⟨by simp [hbits, hlen], fun i hi => ?_⟩
  have hi : i < x.bits := by omega
  rw [List.getD_eq_getElem _ _ (by simp; omega), List.getElem_zipWith,
    ← List.getD_eq_getElem _ false, ← List.getD_eq_getElem _ false, getD_list, getD_list,
    decide_eq_true hi, decide_eq_true (by omega), hdata, xorData,
    limbBit_map_range _ (by omega), BitVec.getLsbD_xor]
  rfl

theorem xorAssign_eq (x src : BitsT) : (x.xorAssign src).map list = xorList x.list src.list := by
  rw [xorAssign, xorList, length_list, length_list]
  by_cases h : src.bits = x.bits
  · rw [decide_eq_true h, cbAssert_true, ok_bind, ok_bind]
    exact congrArg Except.ok (list_xorData h rfl rfl)
  · rw [decide_eq_false h]
    rfl

theorem xor_eq (fresh : ℕ → Limb) (src1 src2 : BitsT) :
    (xor fresh src1 src2).map list = xorList src1.list src2.list := by
  rw [xor, xorList, length_list, length_list]
  by_cases h : src1.bits = src2.bits
  · rw [decide_eq_true h, decide_eq_true h.symm, cbAssert_true, ok_bind, ok_bind]
    exact congrArg Except.ok (list_xorData h.symm rfl rfl)
  · rw [decide_eq_false h, decide_eq_false fun he => h he.symm]
    rfl

/-- The bytes of a list, with zeroes behind its end. -/
def packList (l : List Bool) : List Byte := ofBits (bitsToBytes l.length) fun i => l.getD i false

/-- The bits of a string of bytes. -/
def unpackList (s : List Byte) : List Bool := (List.range (8 * s.length)).map (bit s)

theorem bit_packList (l : List Bool) (i : ℕ) : bit (packList l) i = l.getD i false := by
  by_cases h : i < 8 * bitsToBytes l.length
  · exact bit_ofBits h _
  · rw [bit_eq_false (by rw [packList, length_ofBits]; omega), List.getD_eq_default]
    unfold bitsToBytes at h
    omega

theorem length_packList (l : List Bool) :
    (packList l).length = bitsToBytes l.length := length_ofBits _ _

/-- What `to_bin` yields depends on the list only. -/
theorem toBin_fst (x : BitsT) : x.toBin.1 = packList x.list := by
  have hroom := bitsToBytes_le x
  have hlen : x.toBin.1.length = bitsToBytes x.bits := by
    rw [toBin, List.length_take, length_limbBytes, x.bzeroUnused.size_eq, bits_bzeroUnused,
      ← x.size_eq]
    omega
  apply eq_of_bit
  · rw [hlen, length_packList, length_list]
  · intro i hi
    rw [hlen] at hi
    have hslice := bit_slice (s := limbBytes x.bzeroUnused.data) 0 (bitsToBytes x.bits) hi
    rw [List.drop_zero, Nat.mul_zero, Nat.zero_add] at hslice
    rw [bit_packList, getD_list, toBin, hslice, bit_limbBytes, limbBit_bzeroUnused]

theorem list_toBin (x : BitsT) : x.toBin.2.list = x.list := list_bzeroUnused x

theorem copyTo_eq {x : BitsT} {k : ℕ} {s : List Byte} (h : k + s.length ≤ 8 * bitsToLimbs x.bits) :
    ∃ y, x.copyTo k s = .ok y ∧ y.bits = x.bits ∧
      ∀ i, limbBit y.data i = if 8 * k ≤ i ∧ i < 8 * (k + s.length) then
        bit s (i - 8 * k) else limbBit x.data i := by
  have hroom : k + s.length ≤ 8 * x.data.length := by rwa [x.size_eq]
  exact ⟨⟨x.bits, poke x.data k s, by rw [length_poke hroom, x.size_eq]⟩, dif_pos hroom, rfl,
    fun i => limbBit_poke hroom i⟩

theorem fromBin_eq (s : List Byte) : ∃ y, fromBin s = .ok y ∧ y.list = unpackList s := by
  have hlimbs := bitsToLimbs_le (8 * s.length)
  obtain ⟨y, hy, hbits, hlimb⟩ := copyTo_eq (x := ofCount (8 * s.length)) (k := 0) (s := s)
    (by change 0 + s.length ≤ 8 * bitsToLimbs (8 * s.length); omega)
  have hbits : y.bits = 8 * s.length := hbits
  refine ⟨y, hy, list_eq_iff.mpr ⟨by rw [hbits, unpackList, List.length_map, List.length_range],
    fun i hi => ?_⟩⟩
  rw [hlimb, if_pos (by omega), unpackList, getD_map_range _ _ (by omega)]
  congr 1

/-- The loop changes no bit below `n1`, so that it may read from there while it writes. -/
theorem copyBits_eq {src : BitsT → ℤ → Outcome Bool} {f : ℕ → Bool} {x : BitsT}
    {n1 n2 : ℕ} (hx : x.bits = n1 + n2)
    (hsrc : ∀ i < n2, ∀ y : BitsT, y.bits = x.bits →
      (∀ j < n1, limbBit y.data j = limbBit x.data j) → src y i = .ok (f i)) :
    ∃ y, copyBits n1 n2 src x = .ok y ∧ y.bits = x.bits ∧
    (∀ j < n1, limbBit y.data j = limbBit x.data j) ∧
      ∀ i < n2, limbBit y.data (n1 + i) = f i := by
  refine foldlM_range_ok (I := fun t (y : BitsT) => y.bits = x.bits ∧
    (∀ j < n1, limbBit y.data j = limbBit x.data j) ∧
    ∀ i < t, limbBit y.data (n1 + i) = f i) n2 (fun t ht y hy => ?_)
    ⟨rfl, fun _ _ => rfl, fun i hi => absurd hi (Nat.not_lt_zero i)⟩
  obtain ⟨hbits, hfirst, hnew⟩ := hy
  obtain ⟨z, hz, hzbits, hlimb⟩ := set_ofNat (by omega : n1 + t < y.bits) (f t)
  refine ⟨z, ?_, hzbits.trans hbits, fun j hj => ?_, fun i hi => ?_⟩
  · rw [hsrc t ht y hbits hfirst, ok_bind, ← hz]
    push_cast
    rfl
  · rw [hlimb, if_neg (by omega)]
    exact hfirst j hj
  · rw [hlimb]
    by_cases hlast : i = t
    · rw [hlast, if_pos rfl]
    · rw [if_neg (by omega)]
      exact hnew i (by omega)

/-- Whole bytes are copied behind whole bytes, and single bits behind others. -/
theorem putBehind_eq {x y src : BitsT} (hbits : y.bits = x.bits + src.bits)
    (hy : ∀ i < x.bits, limbBit y.data i = x.list.getD i false) :
    ∃ z, putBehind x src y = .ok z ∧ z.list = x.list ++ src.list := by
  have hlen1 : x.toBin.1.length = bitsToBytes x.bits := by
    rw [toBin_fst, length_packList, length_list]
  have hlen2 : src.toBin.1.length = bitsToBytes src.bits := by
    rw [toBin_fst, length_packList, length_list]
  rw [putBehind]
  split
  · rename_i haligned
    have hroom : x.toBin.1.length + src.toBin.1.length ≤ 8 * bitsToLimbs y.bits := by
      rw [hlen1, hlen2, hbits, bitsToBytes, bitsToBytes, bitsToLimbs]
      omega
    obtain ⟨z, hz, hzbits, hlimb⟩ := copyTo_eq hroom
    have hstart : 8 * bitsToBytes x.bits = x.bits := by
      unfold bitsToBytes
      omega
    have hend : src.bits ≤ 8 * bitsToBytes src.bits := by
      unfold bitsToBytes
      omega
    refine ⟨z, hz, list_eq_append (by rw [hzbits, hbits, length_list, length_list])
      (fun i hi => ?_) fun i hi => ?_⟩
    · rw [length_list] at hi
      rw [hlimb, hlen1, hstart, if_neg (by omega), hy i hi]
    · rw [length_list] at hi
      rw [hlimb, hlen1, hlen2, hstart, length_list, if_pos (by omega), Nat.add_sub_cancel_left,
        toBin_fst, bit_packList]
  · obtain ⟨z, hz, hzbits, hfirst, hnew⟩ :=
      @copyBits_eq (fun _ => src.toBin.2.get) (fun i => src.list.getD i false)
      y x.bits src.bits hbits fun i hi _ _ _ => by rw [get_ofNat (by exact hi), list_toBin]
    refine ⟨z, hz, list_eq_append (by rw [hzbits, hbits, length_list, length_list])
      (fun i hi => ?_) fun i hi => ?_⟩
    · rw [length_list] at hi
      rw [hfirst i hi, hy i hi]
    · rw [length_list] at hi
      rw [length_list, hnew i hi]

theorem appendAssign_eq {x src : BitsT} (h : x.bits + src.bits ≤ intMax) :
    ∃ y, x.appendAssign src = .ok (y, src.bzeroUnused) ∧ y.list = x.list ++ src.list := by
  have hy : ∀ i < x.bits, limbBit (x.toBin.2.resizeTo (x.bits + src.bits)).data i =
      x.list.getD i false := by
    intro i hi
    rw [limbBit_resizeTo _ (by omega), ← getD_list, list_toBin]
  obtain ⟨y, hok, hlist⟩ := putBehind_eq (bits_resizeTo _ _) hy
  refine ⟨y, ?_, hlist⟩
  rw [appendAssign, decide_eq_true (by omega), cbAssert_true, ok_bind, hok]
  rfl

/-- The bytes or bits that are read lie below those that are written. -/
theorem appendSelf_eq {x : BitsT} (h : x.bits + x.bits ≤ intMax) :
    ∃ y, x.appendSelf = .ok y ∧ y.list = x.list ++ x.list := by
  have hbits := bits_resizeTo x (x.bits + x.bits)
  have hold : ∀ i < x.bits,
      limbBit (x.resizeTo (x.bits + x.bits)).data i = x.list.getD i false := by
    intro i hi
    rw [limbBit_resizeTo _ (by omega), getD_list]
  rw [appendSelf, decide_eq_true (by omega), cbAssert_true, ok_bind]
  by_cases haligned : x.bits % 8 = 0
  · have hstart : 8 * bitsToBytes x.bits = x.bits := by
      unfold bitsToBytes
      omega
    have hlimbs := bitsToLimbs_le (x.bits + x.bits)
    have hbytes :
        ((limbBytes (x.resizeTo (x.bits + x.bits)).data).take (bitsToBytes x.bits)).length =
          bitsToBytes x.bits := by
      rw [List.length_take, length_limbBytes, size_eq, hbits]
      omega
    obtain ⟨y, hy, hybits, hlimb⟩ :=
      copyTo_eq (x := x.resizeTo (x.bits + x.bits)) (k := bitsToBytes x.bits)
      (s := (limbBytes (x.resizeTo (x.bits + x.bits)).data).take (bitsToBytes x.bits))
        (by rw [hbytes, hbits]; omega)
    refine ⟨y, ?_, list_eq_append (by rw [hybits, hbits, length_list]) (fun i hi => ?_) fun i hi =>
      ?_⟩
    · simp only [if_pos haligned]
      exact hy
    · rw [length_list] at hi
      rw [hlimb, hstart, if_neg (by omega), hold i hi]
    · rw [length_list] at hi
      have hslice := bit_slice (s := limbBytes (x.resizeTo (x.bits + x.bits)).data) 0
        (bitsToBytes x.bits) (by omega : i < _)
      rw [List.drop_zero, Nat.mul_zero, Nat.zero_add] at hslice
      rw [hlimb, hbytes, length_list, hstart, if_pos (by omega), Nat.add_sub_cancel_left, hslice,
        bit_limbBytes, hold i hi]
  · obtain ⟨y, hy, hybits, hfirst, hnew⟩ :=
      @copyBits_eq get (fun i => x.list.getD i false) _ x.bits x.bits hbits
      fun i hi y hybits hsame => by
        rw [get_ofNat (by omega), getD_list, decide_eq_true (by omega), Bool.true_and,
          hsame i hi, hold i hi]
    refine ⟨y, ?_, list_eq_append (by rw [hybits, hbits, length_list]) (fun i hi => ?_) fun i hi =>
      ?_⟩
    · simp only [if_neg haligned]
      exact hy
    · rw [length_list] at hi
      rw [hfirst i hi, hold i hi]
    · rw [length_list] at hi
      rw [length_list, hnew i hi]

theorem concat_eq {x src : BitsT} (h : x.bits + src.bits ≤ intMax) :
    ∃ y, x.concat src = .ok (y, x.bzeroUnused, src.bzeroUnused) ∧ y.list = x.list ++ src.list := by
  have hlen : x.toBin.1.length = bitsToBytes x.bits := by
    rw [toBin_fst, length_packList, length_list]
  have hroom : 0 + x.toBin.1.length ≤
      8 * bitsToLimbs (ofCount (x.bits + src.bits)).toBin.2.bits := by
    have hbits : (ofCount (x.bits + src.bits)).toBin.2.bits = x.bits + src.bits := rfl
    rw [hlen, hbits, bitsToBytes, bitsToLimbs]
    omega
  obtain ⟨dst, hdst, hdstbits, hlimb⟩ := copyTo_eq hroom
  have hend : x.bits ≤ 8 * bitsToBytes x.bits := by
    unfold bitsToBytes
    omega
  have hold : ∀ i < x.bits, limbBit dst.data i = x.list.getD i false := by
    intro i hi
    rw [hlimb, hlen, if_pos (by omega), toBin_fst, bit_packList]
    rfl
  obtain ⟨y, hok, hlist⟩ := putBehind_eq hdstbits hold
  refine ⟨y, ?_, hlist⟩
  rw [concat, decide_eq_true (by omega), cbAssert_true, ok_bind]
  simp only [hdst, ok_bind, hok]
  rfl

theorem map_toFin_packList (l : List Bool) : (packList l).map BitVec.toFin = packBits l := by
  rw [packList, ofBits, packBits, List.map_map]
  refine List.map_congr_left fun k _ => Fin.ext ?_
  change (BitVec.ofFnLE fun j : Fin 8 => l.getD (8 * k + j) false).toNat = _
  rw [BitVec.toNat_ofFnLE, Fin.val_ofNat, Nat.mod_eq_of_lt (Nat.ofBits_lt_two_pow _)]

theorem write_eq (x : BitsT) : x.write = writeBits x.list := by
  rw [write, writeBits, toBin_fst, map_toFin_packList, length_list]

/-- What reading does to the list of an object: without enough bytes it stays. -/
def readDataList (l : List Bool) (count : ℕ) : ReadM (List Bool) := do
  if ← ReadM.ensure (bitsToBytes count) then
    let bytes ← ReadM.current (bitsToBytes count)
    ReadM.forward (bitsToBytes count)
    return unpackBits count bytes
  else
    return l

def readList (l : List Bool) : ReadM (List Bool) := do
  let count ← readLen
  readDataList l count

theorem bit_map_ofFin (bytes : List Octet) (i : ℕ) :
    bit (bytes.map BitVec.ofFin) i = (bytes.getD (i / 8) 0).val.testBit (i % 8) := by
  by_cases h : i / 8 < bytes.length
  · rw [bit_of_lt (by simpa using h), List.getD_eq_getElem _ _ h, List.getElem_map]
    rfl
  · rw [bit_eq_false (by rw [List.length_map]; omega), List.getD_eq_default _ _ (by omega)]
    exact (Nat.zero_testBit _).symm

/-- Whatever the limbs hold behind the bytes that were read. -/
theorem copied_eq (fresh : ℕ → Limb) (x : BitsT) {count : ℕ} {bytes : List Octet}
    (hlen : bytes.length = bitsToBytes count) :
    ∃ y, (x.alloc fresh count).copyTo 0 (bytes.map BitVec.ofFin) = .ok y ∧
    y.list = unpackBits count bytes := by
  have hlimbs := bitsToLimbs_le count
  have hcount : count ≤ 8 * bitsToBytes count := by
    unfold bitsToBytes
    omega
  have hroom : 0 + (bytes.map BitVec.ofFin : List Byte).length ≤
      8 * bitsToLimbs (x.alloc fresh count).bits := by
    rw [List.length_map, hlen, bits_alloc, bitsToBytes]
    omega
  obtain ⟨y, hy, hbits, hlimb⟩ := copyTo_eq hroom
  refine ⟨y, hy, list_eq_iff.mpr ⟨by simp [hbits, unpackBits], fun i hi => ?_⟩⟩
  have hi : i < count := by rwa [hbits, bits_alloc] at hi
  rw [hlimb, List.length_map, hlen, if_pos (by omega), unpackBits, getD_map_range _ _ hi]
  exact bit_map_ofFin bytes i

theorem readData_eq (fresh : ℕ → Limb) (x : BitsT) (count : ℕ) (r : Reader) :
    (readData fresh x count r).map (Prod.map list id) = readDataList x.list count r := by
  rw [readData, readDataList, ReadM.bind_apply, ReadM.bind_apply, ReadM.ensure_apply]
  by_cases h : r.offset ≤ r.src.length ∧ bitsToBytes count ≤ r.src.length - r.offset
  · have hlen : ((r.src.drop r.offset).take (bitsToBytes count)).length = bitsToBytes count := by
      rw [List.length_take, List.length_drop]
      omega
    obtain ⟨y, hy, hlist⟩ := copied_eq fresh x hlen
    rw [if_pos h, ok_bind, ok_bind]
    simp only [if_true]
    rw [ReadM.bind_apply, ReadM.bind_apply, ReadM.current_apply (by omega), ok_bind, ok_bind]
    simp only
    rw [ReadM.bind_apply, hy, ReadM.bind_apply, ← hlist]
    change ((ReadM.forward (bitsToBytes count) >>= fun _ => pure y) r).map _ = _
    rw [ReadM.bind_apply]
    cases ReadM.forward (bitsToBytes count) r <;> rfl
  · rw [if_neg h]
    rfl

theorem read_eq (fresh : ℕ → Limb) (x : BitsT) (r : Reader) :
    (read fresh x r).map (Prod.map list id) = readList x.list r := by
  rw [read, readList, ReadM.bind_apply, ReadM.bind_apply]
  cases readLen r with
  | error e => rfl
  | ok p => exact readData_eq fresh x p.1 p.2

end BitsT

end CbMpc
