import CbMpc.Bytes
import CbMpc.Curve

/-!
# Vectors of integers as byte strings

`vector_to_bin` writes the integers one after another with one size, and `vector_from_bin` cuts them
apart again and reduces them.
-/
namespace CbMpc

/-- A curve with `size()`, the bytes of a coordinate, in which a scalar fits. -/
structure SizedCurve (q : ℕ) (E : Type) [AddCommGroup E] extends Curve q E where
  size : ℕ
  order_le : getBinSize q ≤ size
  size_le : size ≤ 66

/-- The `n` pieces of `size` bytes that `take` and `skip` cut off. -/
def chunks (size : ℕ) : ℕ → List (Fin 256) → List (List (Fin 256))
  | 0, _ => []
  | n + 1, mem => mem.take size :: chunks size n (mem.drop size)

/-- `bn_t::vector_to_bin`. -/
def vectorToBin (vals : List ℤ) (valSize : ℕ) : Outcome (List (Fin 256)) := do
  cbAssert (decide (vals.length ≤ (2 ^ 31 - 1) / valSize))
  let bins ← vals.mapM fun val => toBin val valSize
  .ok bins.flatten

/-- `bn_t::vector_from_bin`. -/
def vectorFromBin (mem : List (Fin 256)) (n size q : ℕ) : Outcome (List ℤ) := do
  require (decide (n * size = mem.length)) .badArg
  (chunks size n mem).mapM fun bin => modReduce q (fromBin bin)

@[simp] theorem length_chunks (size n : ℕ) (mem : List (Fin 256)) :
    (chunks size n mem).length = n := by
  induction n generalizing mem with
  | zero => rfl
  | succ n ih => rw [chunks, List.length_cons, ih]

theorem length_of_mem_chunks {size n : ℕ} {mem bin : List (Fin 256)}
    (h : bin ∈ chunks size n mem) : bin.length ≤ size := by
  induction n generalizing mem with
  | zero => exact absurd h List.not_mem_nil
  | succ n ih =>
    rcases List.mem_cons.mp h with rfl | h
    · exact List.length_take_le _ _
    · exact ih h

/-- Pieces of one size that stand one after another are cut apart. -/
theorem chunks_flatten {size : ℕ} {bins : List (List (Fin 256))}
    (h : ∀ bin ∈ bins, bin.length = size) :
    chunks size bins.length bins.flatten = bins := by
  induction bins with
  | nil => rfl
  | cons bin bins ih =>
    have hbin := h bin List.mem_cons_self
    rw [List.length_cons, chunks, List.flatten_cons, List.take_left' hbin, List.drop_left' hbin,
      ih fun b hb => h b (List.mem_cons_of_mem bin hb)]

theorem length_flatten_of_length_eq {size : ℕ} {bins : List (List (Fin 256))}
    (h : ∀ bin ∈ bins, bin.length = size) :
    bins.flatten.length = bins.length * size := by
  rw [List.length_flatten, List.map_congr_left h, List.map_const', List.sum_replicate, smul_eq_mul]

theorem fromBin_lt_of_length_le {bin : List (Fin 256)} {bits : ℕ} (h : 8 * bin.length ≤ bits) :
    (fromBin bin : ℤ) < 2 ^ bits := by
  have hlt : fromBin bin < (2 ^ 8) ^ bin.length := fromBin_lt bin
  rw [← pow_mul] at hlt
  exact_mod_cast lt_of_lt_of_le hlt (Nat.pow_le_pow_right (by norm_num) h)

variable {q : ℕ} [hq : Fact q.Prime]

/-- The residues that `vector_from_bin` reads. -/
def vectorOf (q : ℕ) (mem : List (Fin 256)) (n size : ℕ) : List (ZMod q) :=
  (chunks size n mem).map fun bin => ((fromBin bin : ℕ) : ZMod q)

/-- The bytes that `vector_to_bin` writes for residues. -/
def vectorBytes (xs : List (ZMod q)) (size : ℕ) : List (Fin 256) :=
  (xs.map fun x => binPad size x.val).flatten

omit hq in
@[simp] theorem length_vectorOf (mem : List (Fin 256)) (n size : ℕ) :
    (vectorOf q mem n size).length = n := by
  rw [vectorOf, List.length_map, length_chunks]

theorem vectorFromBin_eq {mem : List (Fin 256)} {n size : ℕ} (hsize : size ≤ 512)
    (h : n * size = mem.length) :
    vectorFromBin mem n size q = .ok ((vectorOf q mem n size).map residue) := by
  have hreduce : ∀ bin ∈ chunks size n mem,
      modReduce q (fromBin bin : ℤ) = .ok (residue ((fromBin bin : ℕ) : ZMod q)) := by
    intro bin hbin
    have hlen := le_trans (length_of_mem_chunks hbin) hsize
    have hlt := fromBin_lt_of_length_le (by omega : 8 * bin.length ≤ 4096)
    rw [modReduce_eq_emod hq.out.two_le (Int.natCast_nonneg _) hlt, emod_eq_residue,
      Int.cast_natCast]
  rw [vectorFromBin, decide_eq_true h, require_true, ok_bind, mapM_ok hreduce, vectorOf,
    List.map_map]
  rfl

omit hq in
theorem length_vectorBytes (xs : List (ZMod q)) (size : ℕ) :
    (vectorBytes xs size).length = xs.length * size := by
  rw [vectorBytes, length_flatten_of_length_eq, List.length_map]
  intro bin hbin
  obtain ⟨x, -, rfl⟩ := List.mem_map.mp hbin
  exact length_binPad _ _

theorem vectorToBin_residue {xs : List (ZMod q)} {size : ℕ} (horder : getBinSize q ≤ size)
    (hlen : xs.length ≤ (2 ^ 31 - 1) / size) :
    vectorToBin (xs.map residue) size = .ok (vectorBytes xs size) := by
  have hfit : ∀ x : ZMod q, getBinSize (residue x) ≤ size := fun x =>
    le_trans (getBinSize_le_of_lt (ZMod.val_lt x)) horder
  have hbin : ∀ v ∈ xs.map residue, toBin v size = .ok (binPad size v.natAbs) := by
    intro v hv
    obtain ⟨x, -, rfl⟩ := List.mem_map.mp hv
    rw [toBin, decide_eq_true (hfit x), cbAssert_true, ok_bind]
  rw [vectorToBin, List.length_map, decide_eq_true hlen, cbAssert_true, ok_bind, mapM_ok hbin,
    ok_bind, List.map_map]
  rfl

/-- Residues are read as they were written. -/
theorem vectorOf_vectorBytes {xs : List (ZMod q)} {size : ℕ} (horder : getBinSize q ≤ size) :
    vectorOf q (vectorBytes xs size) xs.length size = xs := by
  have hlen : ∀ bin ∈ xs.map fun x => binPad size x.val, bin.length = size := by
    intro bin hbin
    obtain ⟨x, -, rfl⟩ := List.mem_map.mp hbin
    exact length_binPad _ _
  have hcut := chunks_flatten hlen
  rw [List.length_map] at hcut
  rw [vectorOf, vectorBytes, hcut, List.map_map]
  refine (List.map_congr_left fun x _ => ?_).trans (List.map_id _)
  have hlt : x.val < 256 ^ size := lt_of_lt_of_le (lt_pow_of_getBinSize_le le_rfl)
    (Nat.pow_le_pow_right (by norm_num) (le_trans (getBinSize_le_of_lt (ZMod.val_lt x)) horder))
  change ((fromBin (binPad size x.val) : ℕ) : ZMod q) = x
  rw [fromBin_binPad hlt, ZMod.natCast_zmod_val]

end CbMpc
