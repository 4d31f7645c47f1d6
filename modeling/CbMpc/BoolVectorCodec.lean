import CbMpc.Received

/-!
# Vectors of truth values

`convert(std::vector<bool>&)` casts the number of elements to a `short`, and nothing asserts that it
fits, as `convert(std::string&)` does. A count above `SHRT_MAX` becomes negative or too small. The
reader then refuses the bytes, or reads a shorter vector from them.
-/
namespace CbMpc

open ReadM WriteM

/-- The size pass and the write pass agree on the bytes of a vector. Whatever follows these bytes,
the reader yields the vector and stands behind them. -/
structure Preserved (v : List Bool) (bytes : List Octet) : Prop where
  counted : writeBoolVector v ⟨none, 0, none⟩ = .ok ((), ⟨none, bytes.length, none⟩)
  written : ∀ garbage, writeBoolVector v ⟨some garbage, 0, none⟩ =
    .ok ((), ⟨some (store bytes 0 garbage), bytes.length, none⟩)
  read : ∀ rest, (bytes ++ rest).length ≤ intMax →
    readBoolVector ⟨bytes ++ rest, 0, none⟩ = .ok (v, ⟨bytes ++ rest, bytes.length, none⟩)

theorem length_flatMap_encBool (v : List Bool) : (v.flatMap encBool).length = v.length := by
  induction v with
  | nil => rfl
  | cons b v ih =>
    rw [List.flatMap_cons, List.length_append, ih, encBool, length_encUint, List.length_cons]
    exact Nat.add_comm _ _

theorem length_encBoolVector (v : List Bool) : (encBoolVector v).length = 2 + v.length := by
  rw [encBoolVector, List.length_append, length_binPad, length_flatMap_encBool]

theorem boolVector_size_le {v : List Bool} (h : v.length ≤ shrtMax) :
    (encBoolVector v).length ≤ intMax := by
  have hmax : shrtMax = 32767 := rfl
  have hint : intMax = 2147483647 := rfl
  rw [length_encBoolVector]
  omega

theorem preserved_encBoolVector {v : List Bool} (h : v.length ≤ shrtMax) :
    Preserved v (encBoolVector v) where
  counted := by
    rw [writes_writeBoolVector h _ rfl (Nat.zero_le _), put_apply]
    simp only [Nat.zero_add, if_pos (boolVector_size_le h), Option.map_none]
  written garbage := by
    rw [writes_writeBoolVector h _ rfl (Nat.zero_le _), put_apply]
    simp only [Nat.zero_add, if_pos (boolVector_size_le h), Option.map_some]
  read rest hlen := by
    rw [decodes_readBoolVector h (encBoolVector v ++ rest) 0 rest hlen (Nat.zero_le _)
      (List.drop_zero ..), Nat.zero_add]

/-- Without an error the reader yields no more elements than a `short` can count. -/
theorem Preserved.length_le {v : List Bool} {bytes : List Octet} (h : Preserved v bytes) :
    v.length ≤ shrtMax := by
  have hlen : bytes.length ≤ intMax := by
    have hcounted := h.counted
    rw [writes_boolWords v _ rfl (Nat.zero_le _), put_apply] at hcounted
    split at hcounted
    · rename_i hle
      obtain hoffset := congrArg (fun p => p.2.offset) (Except.ok.inj hcounted)
      simp only at hoffset hle
      omega
    · cases hcounted
  exact ensures_readBoolVector _ v _ (h.read [] (by rwa [List.append_nil])) rfl

theorem preserved_iff (v : List Bool) : (∃ bytes, Preserved v bytes) ↔ v.length ≤ shrtMax := by
  constructor
  · rintro ⟨bytes, h⟩
    exact h.length_le
  · intro h
    exact ⟨encBoolVector v, preserved_encBoolVector h⟩

/-- Vectors that the writer can count do not share their bytes. -/
theorem ser_boolVector_inj {u v : List Bool} (hu : u.length ≤ shrtMax)
    (hv : v.length ≤ shrtMax) {garbage : ℕ → Octet}
    (h : ser garbage (writeBoolVector u) = ser garbage (writeBoolVector v)) : u = v := by
  rw [ser_eq (writes_writeBoolVector hu), ser_eq (writes_writeBoolVector hv),
    if_pos (boolVector_size_le hu), if_pos (boolVector_size_le hv)] at h
  have hread := (preserved_encBoolVector hu).read [] (by simpa using boolVector_size_le hu)
  rw [Except.ok.inj h, (preserved_encBoolVector hv).read [] (by simpa using boolVector_size_le hv)]
    at hread
  exact (congrArg Prod.fst (Except.ok.inj hread)).symm

/-- The codec keeps two vectors, and keeps them apart, exactly when a `short` can count both,
whatever the reader's own bound is. -/
theorem boolVector_codec (u v : List Bool) :
    ((∃ bytes, Preserved u bytes) ∧ (∃ bytes, Preserved v bytes) ∧
      ∀ garbage, ser garbage (writeBoolVector u) = ser garbage (writeBoolVector v) → u = v) ↔
    u.length < 2 ^ 15 ∧ v.length < 2 ^ 15 := by
  have hmax : shrtMax = 32767 := rfl
  rw [preserved_iff, preserved_iff]
  constructor
  · rintro ⟨hu, hv, -⟩
    omega
  · rintro ⟨hu, hv⟩
    have hu : u.length ≤ shrtMax := by omega
    have hv : v.length ≤ shrtMax := by omega
    exact ⟨hu, hv, fun garbage => ser_boolVector_inj hu hv⟩

/-- A cast count is that of the empty vector, so both have the same bytes. -/
theorem boolWords_cast_zero {v : List Bool} (h : v.length = 65536) :
    boolWords v = boolWords [] := by
  rw [boolWords, boolWords, h]
  rfl

/-- The first vector whose count becomes negative is written, and its bytes are refused. The one
whose count becomes zero is written like the empty one. -/
theorem boolVector_codec_cast :
    (List.replicate 32768 false).length ≤ maxContainerElements ∧
    (¬∃ bytes, Preserved (List.replicate 32768 false) bytes) ∧
    (List.replicate 65536 true).length ≤ maxContainerElements ∧
    (∀ garbage, ser garbage (writeBoolVector (List.replicate 65536 true)) =
      ser garbage (writeBoolVector [])) ∧
    List.replicate 65536 true ≠ [] := by
  have hmax : shrtMax = 32767 := rfl
  have hcont : maxContainerElements = 1048576 := rfl
  refine ⟨?_, ?_, ?_, fun garbage => ?_, ?_⟩
  · rw [List.length_replicate]
    omega
  · rw [preserved_iff, List.length_replicate]
    omega
  · rw [List.length_replicate]
    omega
  · rw [ser_eq (writes_boolWords _), ser_eq (writes_boolWords []),
      boolWords_cast_zero List.length_replicate]
  · exact fun h => absurd (congrArg List.length h) (by rw [List.length_replicate]; decide)

end CbMpc
