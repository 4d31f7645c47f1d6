import CbMpc.Outcome

/-!
# Integers as byte strings

`bn_t` is written big-endian, and without its sign.
-/
namespace CbMpc

/-- `bn_t::from_bin`. -/
def fromBin (bytes : List (Fin 256)) : ℕ := bytes.foldl (fun v b => v * 256 + b.val) 0

/-- `bits_to_bytes`. -/
def bitsToBytes (bits : ℕ) : ℕ := (bits + 7) / 8

/-- `bn_t::get_bin_size`. -/
def getBinSize (x : ℤ) : ℕ := bitsToBytes x.natAbs.size

/-- `BN_bn2binpad` into a buffer that is long enough. -/
def binPad : ℕ → ℕ → List (Fin 256)
  | 0, _ => []
  | size + 1, v => binPad size (v / 256) ++ [Fin.ofNat 256 v]

/-- `bn_t::to_bin(size)`. -/
def toBin (x : ℤ) (size : ℕ) : Outcome (List (Fin 256)) := do
  cbAssert (decide (getBinSize x ≤ size))
  .ok (binPad size x.natAbs)

theorem fromBin_append_singleton (bytes : List (Fin 256)) (b : Fin 256) :
    fromBin (bytes ++ [b]) = fromBin bytes * 256 + b.val := by
  simp [fromBin]

@[simp] theorem length_binPad (size v : ℕ) : (binPad size v).length = size := by
  induction size generalizing v with
  | zero => rfl
  | succ size ih => simp [binPad, ih]

theorem fromBin_binPad {size v : ℕ} (h : v < 256 ^ size) : fromBin (binPad size v) = v := by
  induction size generalizing v with
  | zero =>
    have hv : v = 0 := by simpa using h
    rw [hv]
    rfl
  | succ size ih =>
    have hdiv : v / 256 < 256 ^ size := by
      rw [pow_succ] at h
      exact Nat.div_lt_of_lt_mul (by rwa [mul_comm] at h)
    rw [binPad, fromBin_append_singleton, ih hdiv, Fin.val_ofNat]
    exact Nat.div_add_mod' v 256

theorem fromBin_lt (bytes : List (Fin 256)) : fromBin bytes < 256 ^ bytes.length := by
  induction bytes using List.reverseRecOn with
  | nil => simp [fromBin]
  | append_singleton bytes b ih =>
    rw [fromBin_append_singleton, List.length_append, List.length_singleton, pow_succ]
    have hb := b.isLt
    omega

theorem binPad_fromBin (bytes : List (Fin 256)) : binPad bytes.length (fromBin bytes) = bytes := by
  induction bytes using List.reverseRecOn with
  | nil => rfl
  | append_singleton bytes b ih =>
    have hdiv : (fromBin bytes * 256 + b.val) / 256 = fromBin bytes := by
      have hb := b.isLt
      omega
    have hlast : Fin.ofNat 256 (fromBin bytes * 256 + b.val) = b := by
      apply Fin.ext
      have hb := b.isLt
      rw [Fin.val_ofNat]
      omega
    rw [List.length_append, List.length_singleton, binPad, fromBin_append_singleton,
      hdiv, ih, hlast]

/-- The value of a big-endian number, from its first byte. -/
theorem fromBin_cons (b : Fin 256) (bytes : List (Fin 256)) :
    fromBin (b :: bytes) = b.val * 256 ^ bytes.length + fromBin bytes := by
  induction bytes using List.reverseRecOn with
  | nil => simp [fromBin]
  | append_singleton bytes c ih =>
    rw [← List.cons_append, fromBin_append_singleton, ih, fromBin_append_singleton,
      List.length_append, List.length_singleton, pow_succ]
    ring

/-- The first byte of a number that is written. -/
theorem binPad_succ_eq_cons (size v : ℕ) :
    binPad (size + 1) v = Fin.ofNat 256 (v / 256 ^ size) :: binPad size v := by
  induction size generalizing v with
  | zero => simp [binPad]
  | succ size ih =>
    rw [binPad, ih, List.cons_append, Nat.div_div_eq_div_mul, ← pow_succ']
    rfl

/-- Only the low bytes of a number are written. -/
theorem binPad_add_mul (size v k : ℕ) : binPad size (v + 256 ^ size * k) = binPad size v := by
  induction size generalizing v with
  | zero => rfl
  | succ size ih =>
    have hsplit : v + 256 ^ (size + 1) * k = v + 256 * (256 ^ size * k) := by ring
    have hlast : Fin.ofNat 256 (v + 256 * (256 ^ size * k)) = Fin.ofNat 256 v := by
      apply Fin.ext
      rw [Fin.val_ofNat, Fin.val_ofNat, Nat.add_mul_mod_self_left]
    rw [binPad, binPad, hsplit, hlast, Nat.add_mul_div_left _ _ (by decide : 0 < 256), ih]

/-- An integer fits the bytes that its size says. -/
theorem lt_pow_of_getBinSize_le {v size : ℕ} (h : getBinSize v ≤ size) : v < 256 ^ size := by
  rw [getBinSize, bitsToBytes, Int.natAbs_natCast] at h
  have hbits : v < 2 ^ (8 * size) :=
    lt_of_lt_of_le (Nat.lt_size_self v) (Nat.pow_le_pow_right (by decide) (by omega))
  rwa [pow_mul] at hbits

theorem getBinSize_le_of_lt {v q : ℕ} (h : v < q) : getBinSize v ≤ getBinSize q := by
  have hsize : v.size ≤ q.size := Nat.size_le_size h.le
  simp only [getBinSize, bitsToBytes, Int.natAbs_natCast]
  omega

end CbMpc
