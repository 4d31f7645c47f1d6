import CbMpc.BatchDl

/-!
# The numbers of the batch proof

The two types that `prove_batch_dl` is instantiated with stand for residues, and their operators for
those of the field. Products are exact as long as one factor is small, since no small multiple of a
residue loses a word.
-/
namespace CbMpc

open WordArray Uint256

/-- What the prover relies on, where `Rep a z` says that `a` stands for `z`. -/
structure BnClass.Lawful {α : Type} (B : BnClass α) {q : ℕ} (Rep : α → ZMod q → Prop) : Prop where
  ofInt : ∀ n : ℕ, n < 2 ^ 31 → Rep (B.ofInt n) n
  ofBn : ∀ z : ZMod q, ∃ a, B.ofBn (residue z) = .ok a ∧ Rep a z
  toBn : ∀ a z, Rep a z → B.toBn a = residue z
  add : ∀ a b x y, Rep a x → Rep b y → ∃ c, B.add a b = .ok c ∧ Rep c (x + y)
  sub : ∀ a b x y, Rep a x → Rep b y → ∃ c, B.sub a b = .ok c ∧ Rep c (x - y)
  mul : ∀ a b x y, Rep a x → Rep b y → y.val < 2 ^ 62 → ∃ c, B.mul a b = .ok c ∧ Rep c (x * y)
  addMod : ∀ a b x y, Rep a x → Rep b y → ∃ c, B.addMod a b = .ok c ∧ Rep c (x + y)
  updateZs : ∀ a z, Rep a z → B.updateZs a = .ok (zBytes (residue z))

section Words

variable {q : ℕ} [hq : Fact q.Prime]

/-- A multiple by less than a word loses none. -/
theorem not_dropped_of_small (hvalid : isValidModulus q = true)
    (x y : ZMod q) (hy : y.val < 2 ^ 62) :
    ¬Dropped q (x.val * y.val) := by
  apply not_dropped_of_le hvalid
  have hx : x.val < 2 ^ (64 * wordCount 64 q) :=
    (ZMod.val_lt x).trans (lt_two_pow_wordCount (by norm_num) q)
  obtain ⟨k, hk, -⟩ := modulus_words hvalid
  rw [hk] at hx ⊢
  have hword : 2 ^ (64 * (k + 1)) * 2 ^ 63 ≤ 2 ^ (64 * (2 * (k + 1))) := by
    rw [← pow_add]
    exact Nat.pow_le_pow_right (by norm_num) (by omega)
  have hprod : x.val * y.val ≤ 2 ^ (64 * (k + 1)) * 2 ^ 62 := Nat.mul_le_mul hx.le hy.le
  omega

omit hq in
theorem length_mulWords_le (hvalid : isValidModulus q = true) {a b r : List Limb}
    (ha : a.length ≤ wordCount 64 q) (hb : b.length ≤ wordCount 64 q) (h : mulWords q a b = .ok r) :
    r.length ≤ wordCount 64 q := by
  obtain ⟨-, h⟩ := cbAssert_bind_ok_iff.mp h
  obtain ⟨-, h⟩ := cbAssert_bind_ok_iff.mp h
  by_cases hzero : (a.isEmpty || b.isEmpty) = true
  · rw [if_pos hzero] at h
    cases h
    exact Nat.zero_le _
  · rw [if_neg hzero] at h
    obtain ⟨-, h⟩ := cbAssert_bind_ok_iff.mp h
    have hproduct : (bnMulNormal a b).length ≤ 2 * (limbs q).length := by
      rw [bnMulNormal, length_ofNat, length_limbs]
      omega
    obtain ⟨r', hr', hlen, -⟩ := modBignum_spec hvalid hproduct
    obtain rfl : r' = r := Except.ok.inj (hr'.symm.trans h)
    rwa [length_limbs] at hlen

/-- A reduced number in as many words as the modulus. -/
theorem wordsOf_ofNat {v : ℕ} (hv : v < q) {z : ZMod q} (h : (v : ZMod q) = z) :
    WordsOf (ofNat 64 (wordCount 64 q) v) z := by
  constructor
  · rw [value_ofNat_of_lt (hv.trans (lt_two_pow_wordCount (by norm_num) q)), ← h,
      ZMod.val_natCast_of_lt hv]
  · rw [length_ofNat]

omit hq in
theorem WordsOf.residue_eq {w : List Limb} {z : ZMod q} (h : WordsOf w z) :
    (value w : ℤ) = residue z := by
  rw [h.value_eq, residue]

theorem WordsOf.cast_eq {w : List Limb} {z : ZMod q} (h : WordsOf w z) :
    ((value w : ℕ) : ZMod q) = z := by
  rw [h.value_eq, ZMod.natCast_zmod_val]

theorem bnClass_lawful (hvalid : isValidModulus q = true) (hlow : 2 ^ 64 ≤ q)
    (hsize : q.size ≤ 2048) :
    (bnClass q).Lawful (WordsOf (q := q)) where
  ofInt n hn := wordsOf_limbs (by omega)
  ofBn z := by
    have hval : WordsOf (limbs z.val) ((z.val : ℕ) : ZMod q) := wordsOf_limbs (ZMod.val_lt z)
    rw [ZMod.natCast_zmod_val] at hval
    exact ⟨_, rfl, hval⟩
  toBn a z h := h.residue_eq
  add a b x y ha hb := by
    refine ⟨ofNat 64 (wordCount 64 q) ((value a + value b) % q), ?_,
      wordsOf_ofNat (Nat.mod_lt _ hq.out.pos) ?_⟩
    · change addWords q a b = _
      rw [addWords, decide_eq_true ha.value_lt, decide_eq_true hb.value_lt, cbAssert_true,
        ok_bind, ok_bind]
    · rw [ZMod.natCast_mod, Nat.cast_add, ha.cast_eq, hb.cast_eq]
  sub a b x y ha hb := by
    refine ⟨ofNat 64 (wordCount 64 q) ((value a + q - value b) % q), ?_,
      wordsOf_ofNat (Nat.mod_lt _ hq.out.pos) ?_⟩
    · change subWords q a b = _
      rw [subWords, decide_eq_true ha.value_lt, decide_eq_true hb.value_lt, cbAssert_true,
        ok_bind, ok_bind]
    · rw [ZMod.natCast_mod, Nat.cast_sub (by have := hb.value_lt; omega), Nat.cast_add,
        ha.cast_eq, hb.cast_eq, ZMod.natCast_self, add_zero]
  mul a b x y ha hb hy := by
    obtain ⟨r, hr, hval⟩ := (ha.multipliesTo_iff hvalid hb).mpr (not_dropped_of_small hvalid x y hy)
    refine ⟨r, hr, ?_, ?_⟩
    · rw [hval, ha.value_eq, hb.value_eq, ZMod.val_mul]
    · exact length_mulWords_le hvalid ha.length_le hb.length_le hr
  addMod a b x y ha hb := by
    refine ⟨_, rfl, ?_⟩
    rw [ha.residue_eq, hb.residue_eq, bnModAddFixedTop_residue]
    apply wordsOf_ofNat
    · exact ZMod.val_lt _
    · exact ZMod.natCast_zmod_val _
  updateZs a z h := by
    change (cbAssert (decide (getBinSize (value a) ≤ 256)) >>= fun _ =>
      Except.ok (zBytes (value a))) = _
    rw [h.residue_eq, decide_eq_true (getBinSize_residue_le hsize z), cbAssert_true, ok_bind]

end Words

/-! ## The bytes of a `bn256_t` -/

theorem binPad_add (a b v : ℕ) : binPad (a + b) v = binPad a (v / 256 ^ b) ++ binPad b v := by
  induction b generalizing v with
  | zero => simp [binPad]
  | succ b ih =>
    rw [← Nat.add_assoc, binPad, binPad, ih, List.append_assoc, Nat.div_div_eq_div_mul, ← pow_succ']

/-- Two numbers in a row are the bytes of one. -/
theorem binPad_append (a b u : ℕ) {v : ℕ} (hv : v < 256 ^ b) :
    binPad a u ++ binPad b v = binPad (a + b) (v + 256 ^ b * u) := by
  rw [binPad_add, binPad_add_mul, Nat.add_mul_div_left _ _ (by positivity),
    Nat.div_eq_of_lt hv, zero_add]

theorem toBin256_eq (a : Uint256) : toBin256 a = binPad 32 (value a.words) := by
  have hlt : ∀ x : Limb, x.toNat < 256 ^ 8 := fun x => x.isLt
  rw [toBin256, binPad_append 8 8 _ (hlt _), binPad_append (8 + 8) 8 _ (hlt _),
    binPad_append (8 + 8 + 8) 8 _ (hlt _)]
  simp only [words, value_cons, value_nil]
  congr 1

theorem value_words_lt_bytes (a : Uint256) : value a.words < 256 ^ 32 := by
  have hlt := value_lt a.words
  rwa [length_words, show 2 ^ (64 * 4) = 256 ^ 32 by norm_num] at hlt

theorem fromBin_toBin256 (a : Uint256) : fromBin (toBin256 a) = value a.words := by
  rw [toBin256_eq, fromBin_binPad (value_words_lt_bytes a)]

theorem toBin256_fromBin256 {bin : List (Fin 256)} (h : bin.length = 32) :
    toBin256 (fromBin256 bin) = bin := by
  have hword : ∀ i, i + 8 ≤ 32 →
      binPad 8 (BitVec.ofNat 64 (fromBin ((bin.drop i).take 8))).toNat = (bin.drop i).take 8 := by
    intro i hi
    have hlen : ((bin.drop i).take 8).length = 8 := by
      rw [List.length_take, List.length_drop, h]
      omega
    have hlt := fromBin_lt ((bin.drop i).take 8)
    have hbytes := binPad_fromBin ((bin.drop i).take 8)
    rw [hlen] at hlt hbytes
    rw [show 256 ^ 8 = 2 ^ 64 by norm_num] at hlt
    rw [BitVec.toNat_ofNat, Nat.mod_eq_of_lt hlt, hbytes]
  rw [toBin256, fromBin256, hword 0 (by norm_num), hword 8 (by norm_num), hword 16 (by norm_num),
    hword 24 (by norm_num)]
  have hlast : (bin.drop 24).take 8 = bin.drop 24 :=
    List.take_of_length_le (by rw [List.length_drop, h])
  rw [hlast, List.drop_zero, ← List.take_add, ← List.take_add]
  exact List.take_append_drop 24 bin

theorem value_fromBin256 {bin : List (Fin 256)} (h : bin.length = 32) :
    value (fromBin256 bin).words = fromBin bin := by
  rw [← fromBin_toBin256, toBin256_fromBin256 h]

/-- Without its leading zeros a number has the bytes that its size says. -/
theorem dropWhile_binPad {size v : ℕ} (hv : v < 256 ^ size) :
    (binPad size v).dropWhile (fun b => decide (b = 0)) = binPad (getBinSize v) v := by
  induction size generalizing v with
  | zero =>
    obtain rfl : v = 0 := by simpa using hv
    rfl
  | succ size ih =>
    rw [binPad_succ_eq_cons]
    by_cases hlt : v < 256 ^ size
    · rw [Nat.div_eq_of_lt hlt, List.dropWhile_cons_of_pos (by decide), ih hlt]
    · have hdiv : 0 < v / 256 ^ size := Nat.div_pos (not_lt.mp hlt) (by positivity)
      have hbyte : v / 256 ^ size < 256 := by
        rw [Nat.div_lt_iff_lt_mul (by positivity), ← pow_succ']
        exact hv
      have hne : Fin.ofNat 256 (v / 256 ^ size) ≠ 0 := by
        intro h0
        have hval := congrArg Fin.val h0
        rw [Fin.val_ofNat, Nat.mod_eq_of_lt hbyte] at hval
        exact hdiv.ne' hval
      have hpow : ∀ k, 256 ^ k = 2 ^ (8 * k) := fun k => by
        rw [pow_mul]
        norm_num
      have hlow : 8 * size < v.size := Nat.lt_size.mpr (hpow size ▸ not_lt.mp hlt)
      have hhigh : v.size ≤ 8 * (size + 1) := Nat.size_le.mpr (hpow (size + 1) ▸ hv)
      have hsize : getBinSize v = size + 1 := by
        rw [getBinSize, Int.natAbs_natCast, bitsToBytes]
        omega
      rw [List.dropWhile_cons_of_neg (by simpa using hne), hsize, binPad_succ_eq_cons]

section Words256

variable {q : ℕ} [hq : Fact q.Prime]

theorem words256Of_of_cast {w : Uint256} {z : ZMod q} (hlt : value w.words < q)
    (h : ((value w.words : ℕ) : ZMod q) = z) :
    Words256Of w z := by
  constructor
  rw [← h, ZMod.val_natCast_of_lt hlt]

theorem Words256Of.value_lt {w : Uint256} {z : ZMod q} (h : Words256Of w z) : value w.words < q :=
  h.value_eq.trans_lt (ZMod.val_lt z)

omit hq in
theorem Words256Of.residue_eq {w : Uint256} {z : ZMod q} (h : Words256Of w z) :
    (value w.words : ℤ) = residue z := by
  rw [h.value_eq, residue]

theorem Words256Of.cast_eq {w : Uint256} {z : ZMod q} (h : Words256Of w z) :
    ((value w.words : ℕ) : ZMod q) = z := by
  rw [h.value_eq, ZMod.natCast_zmod_val]

theorem bn256Class_lawful (hm : Modulus256 q) : (bn256Class q).Lawful (Words256Of (q := q)) where
  ofInt n hn := by
    have hgt := hm.gt
    have hval : value (words ⟨BitVec.ofNat 64 n, 0#64, 0#64, 0#64⟩) = n := by
      simp only [words, value_cons, value_nil, BitVec.toNat_ofNat]
      omega
    apply words256Of_of_cast
    · change value (words ⟨BitVec.ofNat 64 n, 0#64, 0#64, 0#64⟩) < q
      omega
    · exact congrArg Nat.cast hval
  ofBn z := by
    have hlt : z.val < 256 ^ 32 := (ZMod.val_lt z).trans (hm.lt.trans_eq (by norm_num))
    have hsize : getBinSize (residue z) ≤ 32 := by
      have hbits := Nat.size_le.mpr ((ZMod.val_lt z).trans hm.lt)
      rw [getBinSize, residue, Int.natAbs_natCast, bitsToBytes]
      omega
    refine ⟨fromBin256 (binPad 32 z.val), ?_, ⟨?_⟩⟩
    · change (toBin (residue z) 32 >>= fun bin => Except.ok (fromBin256 bin)) = _
      rw [toBin, decide_eq_true hsize, cbAssert_true, ok_bind, ok_bind]
      rfl
    · rw [value_fromBin256 (length_binPad 32 _), fromBin_binPad hlt]
  toBn a z h := by
    change ((fromBin (toBin256 a) : ℕ) : ℤ) = residue z
    rw [fromBin_toBin256, h.residue_eq]
  add a b x y ha hb := by
    have hval := value_addMod hm ha.value_lt hb.value_lt
    refine ⟨_, rfl, words256Of_of_cast ?_ ?_⟩
    · rw [hval]
      exact Nat.mod_lt _ hq.out.pos
    · rw [hval, ZMod.natCast_mod, Nat.cast_add, ha.cast_eq, hb.cast_eq]
  sub a b x y ha hb := by
    have hval := value_subMod hm ha.value_lt hb.value_lt
    have hlt := Int.emod_lt_of_pos ((value a.words : ℤ) - value b.words)
      (by exact_mod_cast hq.out.pos : (0 : ℤ) < q)
    refine ⟨_, rfl, words256Of_of_cast ?_ ?_⟩
    · rw [← hval] at hlt
      exact_mod_cast hlt
    · rw [← Int.cast_natCast, hval, cast_emod, Int.cast_sub, Int.cast_natCast, Int.cast_natCast,
        ha.cast_eq, hb.cast_eq]
  mul a b x y ha hb hy := by
    have hval := value_mulMod256 hm a b
    rw [ha.value_eq, hb.value_eq, if_neg (not_dropped_of_small hm.valid x y hy)] at hval
    refine ⟨_, rfl, ⟨?_⟩⟩
    rw [hval, ZMod.val_mul]
  addMod a b x y ha hb := by
    have hval := value_addMod hm ha.value_lt hb.value_lt
    refine ⟨_, rfl, words256Of_of_cast ?_ ?_⟩
    · rw [hval]
      exact Nat.mod_lt _ hq.out.pos
    · rw [hval, ZMod.natCast_mod, Nat.cast_add, ha.cast_eq, hb.cast_eq]
  updateZs a z h := by
    change Except.ok (beSet4 ((toBin256 a).dropWhile fun b => decide (b = 0)).length ++
      (toBin256 a).dropWhile fun b => decide (b = 0)) = _
    rw [toBin256_eq, dropWhile_binPad (value_words_lt_bytes a), length_binPad, zBytes,
      ← h.residue_eq, Int.natAbs_natCast]

end Words256

end CbMpc
