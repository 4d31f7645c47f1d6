import CbMpc.Bn256

/-!
# Field elements of Ed25519 on unreduced words

`fe_freeze`, `fe_add`, `fe_sub`, `fe_half`, `fe_square_noasm` and `fe_mul_noasm`. An element is any
number below `2 ^ 256`. A carry out of the top word is worth 38, and adding that once more can carry
again, but then the lowest word is small.
-/
namespace CbMpc

open WordArray Uint256

/-- The modulus `2 ^ 255 - 19`. -/
def fieldPrime : ℕ := 2 ^ 255 - 19

/-- `constant_time_select_u64`. -/
def constantTimeSelectU64 (flag : Bool) (y z : Limb) : Limb :=
  (y &&& WordArray.mask 64 flag) ||| (z &&& ~~~WordArray.mask 64 flag)

/-- A round of `fe_freeze`: the modulus is subtracted where that does not borrow. -/
def freezeRound (r : Uint256) : Uint256 :=
  let t := add r.words [19#64, 0#64, 0#64, 0x8000000000000000#64] false
  ofWords (selected t.2 t.1 r.words)

/-- `fe_freeze`. -/
def feFreeze (r : Uint256) : Uint256 := freezeRound (freezeRound r)

/-- A word added to an array, and what its carry is worth added to the lowest word. -/
def addSmall (ws : List Limb) (t : Limb) (again : Bool → Limb) : Uint256 :=
  let u := add ws [t, 0#64, 0#64, 0#64] false
  let x := ofWords u.1
  ⟨x.w0 + again u.2, x.w1, x.w2, x.w3⟩

/-- A word subtracted from an array, and what its borrow is worth subtracted from the lowest
word. -/
def subSmall (ws : List Limb) (t : Limb) (again : Bool → Limb) : Uint256 :=
  let u := sub ws [t, 0#64, 0#64, 0#64] false
  let x := ofWords u.1
  ⟨x.w0 - again u.2, x.w1, x.w2, x.w3⟩

/-- `fe_add`. -/
def feAdd (x y : Uint256) : Uint256 :=
  let s := add x.words y.words false
  let t := constantTimeSelectU64 s.2 38#64 0#64
  addSmall s.1 t fun c => constantTimeSelectU64 c t 0#64

/-- `fe_sub`. -/
def feSub (x y : Uint256) : Uint256 :=
  let s := sub x.words y.words false
  let t := constantTimeSelectU64 s.2 38#64 0#64
  subSmall s.1 t fun c => constantTimeSelectU64 c t 0#64

/-- `fe_half`. Where the bit that is shifted out is set, half of the modulus rounded up is added. -/
def feHalf (x : Uint256) : Uint256 :=
  let oddMask := 0#64 - (x.w0 &&& 1#64)
  ofWords (add x.divByTwo.words [oddMask &&& 0xfffffffffffffff7#64, oddMask, oddMask,
    oddMask >>> 2] false).1

/-- The low and the high word of a product. -/
def mulLoHi (u v : Limb) : Limb × Limb :=
  ((wideMul u v).setWidth 64, (wideMul u v >>> 64).setWidth 64)

/-- A product added to a word. -/
def feMac (u v r : Limb) : Limb × Limb :=
  let z := mulLoHi u v
  let s := addx r z.1 false
  (s.1, (addx z.2 0#64 s.2).1)

/-- A product added to a word, and a second word added to that. -/
def feMac2 (u v r h : Limb) : Limb × Limb :=
  let t := feMac u v r
  let s := addx t.1 h false
  (s.1, (addx t.2 0#64 s.2).1)

/-- The end of `fe_mul_noasm` and `fe_square_noasm`: the upper four words are worth 38 of the lower
ones. -/
def feFold (lo hi : Uint256) : Uint256 :=
  let z4 := mulLoHi hi.w0 38#64
  let z5 := feMac hi.w1 38#64 z4.2
  let z6 := feMac hi.w2 38#64 z5.2
  let z7 := feMac hi.w3 38#64 z6.2
  let s := add lo.words [z4.1, z5.1, z6.1, z7.1] false
  let top := (addx z7.2 0#64 s.2).1
  addSmall s.1 (top * 38#64) fun c => BitVec.ofNat 64 c.toNat * 38#64

/-- The first row of `fe_mul_noasm`: its lowest word, and the words above it. -/
def feMulFirst (y : Uint256) (s : Limb) : Limb × Uint256 :=
  let a0 := mulLoHi y.w0 s
  let a1 := feMac y.w1 s a0.2
  let a2 := feMac y.w2 s a1.2
  let a3 := feMac y.w3 s a2.2
  (a0.1, ⟨a1.1, a2.1, a3.1, a3.2⟩)

/-- Another row, on the words above the row before it. -/
def feMulRow (y : Uint256) (s : Limb) (t : Uint256) : Limb × Uint256 :=
  let b0 := feMac y.w0 s t.w0
  let b1 := feMac2 y.w1 s t.w1 b0.2
  let b2 := feMac2 y.w2 s t.w2 b1.2
  let b3 := feMac2 y.w3 s t.w3 b2.2
  (b0.1, ⟨b1.1, b2.1, b3.1, b3.2⟩)

/-- `fe_mul_noasm`. -/
def feMulNoasm (x y : Uint256) : Uint256 :=
  let a := feMulFirst y x.w0
  let b := feMulRow y x.w1 a.2
  let c := feMulRow y x.w2 b.2
  let d := feMulRow y x.w3 c.2
  feFold ⟨a.1, b.1, c.1, d.1⟩ d.2

/-- The sum of the mixed products, from the second word up. -/
def crossProducts (x : Uint256) : List Limb :=
  let z01 := mulLoHi x.w1 x.w0
  let z12 := mulLoHi x.w2 x.w1
  let z23 := mulLoHi x.w3 x.w2
  let z02 := mulLoHi x.w2 x.w0
  let p := (add [z01.2, z12.1, z12.2] [z02.1, z02.2, 0#64] false).1
  let z13 := mulLoHi x.w3 x.w1
  let q := (add [p.getD 2 0#64, z23.1, z23.2] [z13.1, z13.2, 0#64] false).1
  let z03 := mulLoHi x.w3 x.w0
  let r := add [p.getD 1 0#64, q.getD 0 0#64, q.getD 1 0#64,
    q.getD 2 0#64] [z03.1, z03.2, 0#64, 0#64] false
  [z01.1, p.getD 0 0#64] ++ r.1 ++ [BitVec.ofNat 64 r.2.toNat]

/-- `fe_square_noasm`. The mixed products are doubled, and the squares are added to them. -/
def feSquareNoasm (x : Uint256) : Uint256 :=
  let t := crossProducts x
  let d := (add t t false).1
  let z00 := mulLoHi x.w0 x.w0
  let z11 := mulLoHi x.w1 x.w1
  let z22 := mulLoHi x.w2 x.w2
  let e := (add d [z00.2, z11.1, z11.2, z22.1, z22.2, 0#64, 0#64] false).1
  let z33 := mulLoHi x.w3 x.w3
  let f := (add (e.drop 5) [z33.1, z33.2] false).1
  feFold (ofWords (z00.1 :: e.take 3)) (ofWords ((e.drop 3).take 2 ++ f))

theorem constantTimeSelectU64_eq (flag : Bool) (y z : Limb) :
    constantTimeSelectU64 flag y z = if flag then y else z := by
  cases flag with
  | false =>
    rw [constantTimeSelectU64, mask_false, BitVec.and_zero, BitVec.zero_or, BitVec.not_zero,
      BitVec.and_allOnes]
    rfl
  | true =>
    rw [constantTimeSelectU64, mask_true, BitVec.not_allOnes, BitVec.and_zero, BitVec.or_zero,
      BitVec.and_allOnes]
    rfl

theorem value_words (x : Uint256) :
    value x.words = x.w0.toNat +
      2 ^ 64 * (x.w1.toNat + 2 ^ 64 * (x.w2.toNat + 2 ^ 64 * x.w3.toNat)) := by
  simp [words]

theorem value_words_lt (x : Uint256) : value x.words < 2 ^ 256 := value_lt x.words

theorem value_add_four {xs ys : List Limb} (hx : xs.length = 4) (hy : ys.length = 4) :
    value (add xs ys false).1 + 2 ^ 256 * (add xs ys false).2.toNat = value xs + value ys := by
  have h := value_add (hx.trans hy.symm) false
  rw [hx, Bool.toNat_false, add_zero] at h
  exact h

theorem length_add_four {xs ys : List Limb} (hx : xs.length = 4) (hy : ys.length = 4) :
    (add xs ys false).1.length = 4 :=
  (length_add (hx.trans hy.symm) false).trans hx

theorem length_sub_four {xs ys : List Limb} (hx : xs.length = 4) (hy : ys.length = 4) :
    (sub xs ys false).1.length = 4 :=
  (length_sub (hx.trans hy.symm) false).trans hx

theorem value_sub_four {xs ys : List Limb} (hx : xs.length = 4) (hy : ys.length = 4) :
    value (sub xs ys false).1 + value ys = value xs + 2 ^ 256 * (sub xs ys false).2.toNat := by
  have h := value_sub (hx.trans hy.symm) false
  rw [hx, Bool.toNat_false, add_zero] at h
  exact h

/-- A round subtracts the modulus once. -/
theorem value_freezeRound (r : Uint256) :
    value (freezeRound r).words = if value r.words < fieldPrime then value r.words else
      value r.words - fieldPrime := by
  have hadd := value_add_four (length_words r)
    (rfl : [19#64, 0#64, 0#64, 0x8000000000000000#64].length = 4)
  have h4 := length_add_four (length_words r)
    (rfl : [19#64, 0#64, 0#64, 0x8000000000000000#64].length = 4)
  have hc : value [19#64, 0#64, 0#64, 0x8000000000000000#64] = 2 ^ 255 + 19 := by decide
  have hr := value_words_lt r
  have ht := value_lt (add r.words [19#64, 0#64, 0#64, 0x8000000000000000#64] false).1
  rw [hc] at hadd
  simp only [freezeRound]
  generalize add r.words [19#64, 0#64, 0#64, 0x8000000000000000#64] false = t at hadd h4 ht
  rw [selected_eq h4]
  rw [h4] at ht
  unfold fieldPrime
  cases hcarry : t.2 with
  | false =>
    rw [hcarry, Bool.toNat_false] at hadd
    rw [if_neg Bool.false_ne_true, words_ofWords rfl, if_pos (by omega)]
  | true =>
    rw [hcarry, Bool.toNat_true] at hadd
    rw [if_pos rfl, words_ofWords h4, if_neg (by omega)]
    omega

/-- Three times the modulus is above `2 ^ 256`, so two rounds are enough. -/
theorem value_feFreeze (r : Uint256) : value (feFreeze r).words = value r.words % fieldPrime := by
  have hr := value_words_lt r
  have hp : fieldPrime = 2 ^ 255 - 19 := rfl
  rw [feFreeze, value_freezeRound, value_freezeRound]
  by_cases h1 : value r.words < fieldPrime
  · rw [if_pos h1, if_pos h1, Nat.mod_eq_of_lt h1]
  · rw [if_neg h1, Nat.mod_eq_sub_mod (by omega)]
    by_cases h2 : value r.words - fieldPrime < fieldPrime
    · rw [if_pos h2, Nat.mod_eq_of_lt h2]
    · rw [if_neg h2, Nat.mod_eq_sub_mod (by omega), Nat.mod_eq_of_lt (by omega)]

/-- A carry leaves a small lowest word, which takes what the carry is worth. -/
theorem value_addSmall {ws : List Limb} (hws : ws.length = 4) {t : Limb}
    {again : Bool → Limb} (ht : t.toNat < 2 ^ 32) (hfalse : again false = 0#64)
    (htrue : (again true).toNat < 2 ^ 32) :
    ∃ c : Bool, (c = true → 0 < t.toNat) ∧
      value (addSmall ws t again).words + 2 ^ 256 * c.toNat =
        value ws + t.toNat + (again c).toNat := by
  have hadd := value_add_four hws (rfl : [t, 0#64, 0#64, 0#64].length = 4)
  have haddlen := length_add_four hws (rfl : [t, 0#64, 0#64, 0#64].length = 4)
  have hc : value [t, 0#64, 0#64, 0#64] = t.toNat := by simp
  have hw := value_lt ws
  rw [hc] at hadd
  rw [hws] at hw
  simp only [addSmall]
  generalize add ws [t, 0#64, 0#64, 0#64] false = s at hadd haddlen
  have hs : value (ofWords s.1).words = value s.1 := by rw [words_ofWords haddlen]
  rw [value_words] at hs
  have hw0 := (ofWords s.1).w0.isLt
  refine ⟨s.2, ?_, ?_⟩
  · intro hcarry
    rw [hcarry, Bool.toNat_true] at hadd
    omega
  · have hword : ((ofWords s.1).w0 + again s.2).toNat =
        (ofWords s.1).w0.toNat + (again s.2).toNat := by
      rw [BitVec.toNat_add]
      apply Nat.mod_eq_of_lt
      cases hcarry : s.2 with
      | false =>
        rw [hfalse, BitVec.toNat_zero]
        omega
      | true =>
        rw [hcarry, Bool.toNat_true] at hadd
        omega
    rw [value_words]
    simp only [hword]
    omega

/-- A borrow leaves a large lowest word. -/
theorem value_subSmall {ws : List Limb} (hws : ws.length = 4) {t : Limb}
    {again : Bool → Limb} (ht : t.toNat < 2 ^ 32) (hfalse : again false = 0#64)
    (htrue : (again true).toNat < 2 ^ 32) :
    ∃ c : Bool, (c = true → 0 < t.toNat) ∧
      value (subSmall ws t again).words + t.toNat + (again c).toNat =
        value ws + 2 ^ 256 * c.toNat := by
  have hsub := value_sub_four hws (rfl : [t, 0#64, 0#64, 0#64].length = 4)
  have hsublen := length_sub_four hws (rfl : [t, 0#64, 0#64, 0#64].length = 4)
  have hc : value [t, 0#64, 0#64, 0#64] = t.toNat := by simp
  have hs := value_lt (sub ws [t, 0#64, 0#64, 0#64] false).1
  rw [hc] at hsub
  rw [hsublen] at hs
  simp only [subSmall]
  generalize sub ws [t, 0#64, 0#64, 0#64] false = s at hsub hsublen hs
  have hwords : value (ofWords s.1).words = value s.1 := by rw [words_ofWords hsublen]
  rw [value_words] at hwords
  have h1 := (ofWords s.1).w1.isLt
  have h2 := (ofWords s.1).w2.isLt
  have h3 := (ofWords s.1).w3.isLt
  refine ⟨s.2, ?_, ?_⟩
  · intro hborrow
    rw [hborrow, Bool.toNat_true] at hsub
    omega
  · have hle : (again s.2).toNat ≤ (ofWords s.1).w0.toNat := by
      cases hborrow : s.2 with
      | false =>
        rw [hfalse, BitVec.toNat_zero]
        exact Nat.zero_le _
      | true =>
        rw [hborrow, Bool.toNat_true] at hsub
        omega
    have hword := BitVec.toNat_sub_of_le hle
    rw [value_words]
    simp only [hword]
    omega

/-- A value below `2 ^ 256` as an element of the field. -/
def feVal (x : Uint256) : ZMod fieldPrime := (value x.words : ZMod fieldPrime)

/-- What is above 256 bits is worth 38. -/
theorem cast_carry (n : ℕ) : ((2 ^ 256 * n : ℕ) : ZMod fieldPrime) = 38 * n := by
  have h : ((2 ^ 256 : ℕ) : ZMod fieldPrime) = ((38 : ℕ) : ZMod fieldPrime) := by
    rw [ZMod.natCast_eq_natCast_iff']
    norm_num [fieldPrime]
  rw [Nat.cast_mul, h, Nat.cast_ofNat]

theorem feVal_feFreeze (r : Uint256) : feVal (feFreeze r) = feVal r := by
  rw [feVal, value_feFreeze, ZMod.natCast_mod, feVal]

theorem toNat_select (flag : Bool) (y : Limb) :
    (constantTimeSelectU64 flag y 0#64).toNat = flag.toNat * y.toNat := by
  rw [constantTimeSelectU64_eq]
  cases flag with
  | false => rw [Bool.toNat_false, zero_mul]; rfl
  | true => rw [Bool.toNat_true, one_mul]; rfl

/-- What a carry or a borrow of 38 takes off is what the second one adds. -/
theorem toNat_selectTwice (c d : Bool)
    (h : d = true → 0 < (constantTimeSelectU64 c 38#64 0#64).toNat) :
    (constantTimeSelectU64 d (constantTimeSelectU64 c 38#64 0#64) 0#64).toNat = 38 * d.toNat := by
  revert h
  cases c <;> cases d <;> decide

theorem feVal_feAdd (x y : Uint256) : feVal (feAdd x y) = feVal x + feVal y := by
  have hadd := value_add_four (length_words x) (length_words y)
  have h4 := length_add_four (length_words x) (length_words y)
  rw [feAdd]
  generalize add x.words y.words false = s at hadd h4
  have ht : (constantTimeSelectU64 s.2 38#64 0#64).toNat = 38 * s.2.toNat := by
    rw [toNat_select, mul_comm]; rfl
  have hle := Bool.toNat_le s.2
  obtain ⟨c, hc, hval⟩ := @value_addSmall s.1 h4 (constantTimeSelectU64 s.2 38#64 0#64)
    (fun c => constantTimeSelectU64 c (constantTimeSelectU64 s.2 38#64 0#64) 0#64) (by omega)
    (by rw [constantTimeSelectU64_eq]; rfl) (by rw [toNat_select, ht, Bool.toNat_true]; omega)
  rw [toNat_selectTwice s.2 c hc, ht] at hval
  have hsum := congrArg (Nat.cast : ℕ → ZMod fieldPrime) hadd
  have hcast := congrArg (Nat.cast : ℕ → ZMod fieldPrime) hval
  simp only [Nat.cast_add, cast_carry, Nat.cast_mul 38, Nat.cast_ofNat] at hsum hcast
  simp only [feVal]
  linear_combination hcast + hsum

theorem feVal_feSub (x y : Uint256) : feVal (feSub x y) = feVal x - feVal y := by
  have hsub := value_sub_four (length_words x) (length_words y)
  have h4 := length_sub_four (length_words x) (length_words y)
  rw [feSub]
  generalize sub x.words y.words false = s at hsub h4
  have ht : (constantTimeSelectU64 s.2 38#64 0#64).toNat = 38 * s.2.toNat := by
    rw [toNat_select, mul_comm]; rfl
  have hle := Bool.toNat_le s.2
  obtain ⟨c, hc, hval⟩ := @value_subSmall s.1 h4 (constantTimeSelectU64 s.2 38#64 0#64)
    (fun c => constantTimeSelectU64 c (constantTimeSelectU64 s.2 38#64 0#64) 0#64) (by omega)
    (by rw [constantTimeSelectU64_eq]; rfl) (by rw [toNat_select, ht, Bool.toNat_true]; omega)
  rw [toNat_selectTwice s.2 c hc, ht] at hval
  have hdiff := congrArg (Nat.cast : ℕ → ZMod fieldPrime) hsub
  have hcast := congrArg (Nat.cast : ℕ → ZMod fieldPrime) hval
  simp only [Nat.cast_add, cast_carry, Nat.cast_mul 38, Nat.cast_ofNat] at hdiff hcast
  simp only [feVal]
  linear_combination hcast + hdiff

/-- The words that `fe_half` adds, by the bit that is shifted out. -/
theorem value_halfWords {bit : ℕ} (hbit : bit < 2) :
    value [(0#64 - BitVec.ofNat 64 bit) &&& 0xfffffffffffffff7#64, 0#64 - BitVec.ofNat 64 bit,
      0#64 - BitVec.ofNat 64 bit, (0#64 - BitVec.ofNat 64 bit) >>> 2] = bit * (2 ^ 254 - 9) := by
  interval_cases bit <;> decide

theorem two_mul_value_feHalf (x : Uint256) :
    2 * value (feHalf x).words = value x.words + fieldPrime * (value x.words % 2) := by
  have hx := value_words_lt x
  have hhalf : value x.divByTwo.words = value x.words / 2 := by
    rw [words_divByTwo, value_divWordsByTwo]
  have hbit : x.w0 &&& 1#64 = BitVec.ofNat 64 (value x.words % 2) := by
    rw [← BitVec.toNat_inj, BitVec.toNat_and, BitVec.toNat_ofNat, BitVec.toNat_ofNat, value_words]
    norm_num
    omega
  have hp : fieldPrime = 2 ^ 255 - 19 := rfl
  have hodd := Nat.mod_lt (value x.words) two_pos
  have hwords := value_halfWords hodd
  have hadd : ∀ ys : List Limb, ys.length = 4 →
      value (ofWords (add x.divByTwo.words ys false).1).words =
      (value x.divByTwo.words + value ys) % 2 ^ 256 := by
    intro ys hys
    have hlen : x.divByTwo.words.length = ys.length := hys.symm
    rw [words_ofWords (length_add hlen false), value_add_mod hlen]
    rfl
  rw [feHalf, hadd _ rfl, hbit, hwords, hhalf, Nat.mod_eq_of_lt (by omega)]
  rcases Nat.mod_two_eq_zero_or_one (value x.words) with h | h
  · rw [h]
    omega
  · rw [h, hp]
    omega

theorem mulLoHi_spec (u v : Limb) :
    (mulLoHi u v).1.toNat + 2 ^ 64 * (mulLoHi u v).2.toNat = u.toNat * v.toNat := by
  have h := mac_spec u v 0#64 0#64
  simp only [mac, addWide, BitVec.setWidth_zero, BitVec.add_zero, BitVec.toNat_zero,
    Nat.add_zero] at h
  exact h

theorem toNat_mul_le (u v : Limb) : u.toNat * v.toNat ≤ (2 ^ 64 - 1) * (2 ^ 64 - 1) :=
  Nat.mul_le_mul (Nat.le_pred_of_lt u.isLt) (Nat.le_pred_of_lt v.isLt)

theorem feMac_spec (u v r : Limb) :
    (feMac u v r).1.toNat + 2 ^ 64 * (feMac u v r).2.toNat = u.toNat * v.toNat + r.toNat := by
  have hz := mulLoHi_spec u v
  have hle := toNat_mul_le u v
  have hs := addx_spec r (mulLoHi u v).1 false
  have hh := addx_spec (mulLoHi u v).2 0#64 (addx r (mulLoHi u v).1 false).2
  have hr := r.isLt
  simp only [feMac]
  generalize addx (mulLoHi u v).2 0#64 (addx r (mulLoHi u v).1 false).2 = h at hh
  generalize addx r (mulLoHi u v).1 false = s at hs hh
  rw [Bool.toNat_false] at hs
  rw [BitVec.toNat_zero] at hh
  have hlow := s.1.isLt
  have hc := Bool.toNat_le s.2
  have hd := Bool.toNat_le h.2
  omega

theorem feMac2_spec (u v r k : Limb) :
    (feMac2 u v r k).1.toNat + 2 ^ 64 * (feMac2 u v r k).2.toNat =
      u.toNat * v.toNat + r.toNat + k.toNat := by
  have ht := feMac_spec u v r
  have hle := toNat_mul_le u v
  have hs := addx_spec (feMac u v r).1 k false
  have hh := addx_spec (feMac u v r).2 0#64 (addx (feMac u v r).1 k false).2
  have hr := r.isLt
  have hk := k.isLt
  simp only [feMac2]
  generalize addx (feMac u v r).2 0#64 (addx (feMac u v r).1 k false).2 = h at hh
  generalize addx (feMac u v r).1 k false = s at hs hh
  rw [Bool.toNat_false] at hs
  rw [BitVec.toNat_zero] at hh
  have hlow := s.1.isLt
  have hc := Bool.toNat_le s.2
  have hd := Bool.toNat_le h.2
  omega

/-- The low half, and 38 times the high half. -/
theorem feVal_feFold (lo hi : Uint256) : feVal (feFold lo hi) = feVal lo + 38 * feVal hi := by
  have h4 := mulLoHi_spec hi.w0 38#64
  have h5 := feMac_spec hi.w1 38#64 (mulLoHi hi.w0 38#64).2
  have h6 := feMac_spec hi.w2 38#64 (feMac hi.w1 38#64 (mulLoHi hi.w0 38#64).2).2
  have h7 := feMac_spec hi.w3 38#64
    (feMac hi.w2 38#64 (feMac hi.w1 38#64 (mulLoHi hi.w0 38#64).2).2).2
  rw [feFold]
  generalize feMac hi.w3 38#64 (feMac hi.w2 38#64 (feMac hi.w1 38#64 (mulLoHi hi.w0 38#64).2).2).2 =
    z7 at h7
  generalize feMac hi.w2 38#64 (feMac hi.w1 38#64 (mulLoHi hi.w0 38#64).2).2 = z6 at h6 h7
  generalize feMac hi.w1 38#64 (mulLoHi hi.w0 38#64).2 = z5 at h5 h6
  generalize mulLoHi hi.w0 38#64 = z4 at h4 h5
  have h38 : (38#64 : Limb).toNat = 38 := rfl
  have hadd := value_add_four (length_words lo) (rfl : [z4.1, z5.1, z6.1, z7.1].length = 4)
  have hlen := length_add_four (length_words lo) (rfl : [z4.1, z5.1, z6.1, z7.1].length = 4)
  generalize add lo.words [z4.1, z5.1, z6.1, z7.1] false = s at hadd hlen
  have htop := addx_spec z7.2 0#64 s.2
  have hle := Bool.toNat_le (addx z7.2 0#64 s.2).2
  have hs := Bool.toNat_le s.2
  have hw3 := hi.w3.isLt
  have hz6 := z6.2.isLt
  rw [h38] at h4 h5 h6 h7
  rw [BitVec.toNat_zero, add_zero] at htop
  -- The word above the sum is at most 38.
  have hlo : (addx z7.2 0#64 s.2).1.toNat = z7.2.toNat + s.2.toNat := by omega
  have hlo38 : (addx z7.2 0#64 s.2).1.toNat < 2 ^ 16 := by omega
  generalize addx z7.2 0#64 s.2 = top at hlo hlo38
  have hmul : (top.1 * 38#64).toNat = top.1.toNat * 38 := by
    rw [BitVec.toNat_mul, h38, Nat.mod_eq_of_lt (by omega)]
  obtain ⟨c, -, hval⟩ := @value_addSmall s.1 hlen (top.1 * 38#64) (fun c =>
    BitVec.ofNat 64 c.toNat * 38#64) (by omega)
    (by decide) (by decide)
  have hagain : (BitVec.ofNat 64 c.toNat * 38#64).toNat = 38 * c.toNat := by cases c <;> rfl
  have hhigh : value [z4.1, z5.1, z6.1, z7.1] + 2 ^ 256 * z7.2.toNat = 38 * value hi.words := by
    simp only [words, value_cons, value_nil]
    linear_combination h4 + 2 ^ 64 * h5 + 2 ^ 128 * h6 + 2 ^ 192 * h7
  rw [hagain, hmul, hlo] at hval
  have e1 := congrArg (Nat.cast : ℕ → ZMod fieldPrime) hadd
  have e2 := congrArg (Nat.cast : ℕ → ZMod fieldPrime) hval
  have e3 := congrArg (Nat.cast : ℕ → ZMod fieldPrime) hhigh
  simp only [Nat.cast_add, cast_carry, Nat.cast_mul 38, Nat.cast_mul _ 38,
    Nat.cast_ofNat] at e1 e2 e3
  simp only [feVal]
  linear_combination e2 + e1 + e3

theorem feMulFirst_spec (y : Uint256) (s : Limb) :
    (feMulFirst y s).1.toNat + 2 ^ 64 * value (feMulFirst y s).2.words =
      value y.words * s.toNat := by
  have h0 := mulLoHi_spec y.w0 s
  have h1 := feMac_spec y.w1 s (mulLoHi y.w0 s).2
  have h2 := feMac_spec y.w2 s (feMac y.w1 s (mulLoHi y.w0 s).2).2
  have h3 := feMac_spec y.w3 s (feMac y.w2 s (feMac y.w1 s (mulLoHi y.w0 s).2).2).2
  simp only [feMulFirst, value_words]
  linear_combination h0 + 2 ^ 64 * h1 + 2 ^ 128 * h2 + 2 ^ 192 * h3

theorem feMulRow_spec (y : Uint256) (s : Limb) (t : Uint256) :
    (feMulRow y s t).1.toNat + 2 ^ 64 * value (feMulRow y s t).2.words =
      value y.words * s.toNat + value t.words := by
  have h0 := feMac_spec y.w0 s t.w0
  have h1 := feMac2_spec y.w1 s t.w1 (feMac y.w0 s t.w0).2
  have h2 := feMac2_spec y.w2 s t.w2 (feMac2 y.w1 s t.w1 (feMac y.w0 s t.w0).2).2
  have h3 := feMac2_spec y.w3 s t.w3
    (feMac2 y.w2 s t.w2 (feMac2 y.w1 s t.w1 (feMac y.w0 s t.w0).2).2).2
  simp only [feMulRow, value_words]
  linear_combination h0 + 2 ^ 64 * h1 + 2 ^ 128 * h2 + 2 ^ 192 * h3

theorem feVal_feMulNoasm (x y : Uint256) : feVal (feMulNoasm x y) = feVal x * feVal y := by
  have ha := feMulFirst_spec y x.w0
  have hb := feMulRow_spec y x.w1 (feMulFirst y x.w0).2
  have hc := feMulRow_spec y x.w2 (feMulRow y x.w1 (feMulFirst y x.w0).2).2
  have hd := feMulRow_spec y x.w3 (feMulRow y x.w2 (feMulRow y x.w1 (feMulFirst y x.w0).2).2).2
  rw [feMulNoasm, feVal_feFold]
  generalize feMulRow y x.w3 (feMulRow y x.w2 (feMulRow y x.w1 (feMulFirst y x.w0).2).2).2 = d at hd
  generalize feMulRow y x.w2 (feMulRow y x.w1 (feMulFirst y x.w0).2).2 = c at hc hd
  generalize feMulRow y x.w1 (feMulFirst y x.w0).2 = b at hb hc
  generalize feMulFirst y x.w0 = a at ha hb
  have hproduct : value (Uint256.mk a.1 b.1 c.1 d.1).words + 2 ^ 256 * value d.2.words =
      value x.words * value y.words := by
    rw [value_words, value_words x]
    linear_combination ha + 2 ^ 64 * hb + 2 ^ 128 * hc + 2 ^ 192 * hd
  have hcast := congrArg (Nat.cast : ℕ → ZMod fieldPrime) hproduct
  rw [Nat.cast_add, cast_carry, Nat.cast_mul] at hcast
  exact hcast

/-- A sum that fits into the words has no carry. -/
theorem value_add_of_lt {xs ys : List Limb} (hlen : xs.length = ys.length)
    (hlt : value xs + value ys < 2 ^ (64 * xs.length)) :
    value (add xs ys false).1 = value xs + value ys := by
  rw [value_add_mod hlen, Nat.mod_eq_of_lt hlt]

theorem crossProducts_spec (x : Uint256) : (crossProducts x).length = 7 ∧ value (crossProducts x) =
    x.w1.toNat * x.w0.toNat +
      2 ^ 64 * (x.w2.toNat * x.w0.toNat +
      2 ^ 64 * (x.w2.toNat * x.w1.toNat + x.w3.toNat * x.w0.toNat +
      2 ^ 64 * (x.w3.toNat * x.w1.toNat + 2 ^ 64 * (x.w3.toNat * x.w2.toNat)))) := by
  have h01 := mulLoHi_spec x.w1 x.w0
  have h12 := mulLoHi_spec x.w2 x.w1
  have h23 := mulLoHi_spec x.w3 x.w2
  have h02 := mulLoHi_spec x.w2 x.w0
  have h13 := mulLoHi_spec x.w3 x.w1
  have h03 := mulLoHi_spec x.w3 x.w0
  have b01 := toNat_mul_le x.w1 x.w0
  have b12 := toNat_mul_le x.w2 x.w1
  have b23 := toNat_mul_le x.w3 x.w2
  have b02 := toNat_mul_le x.w2 x.w0
  have b13 := toNat_mul_le x.w3 x.w1
  simp only [crossProducts]
  generalize mulLoHi x.w1 x.w0 = z01 at h01
  generalize mulLoHi x.w2 x.w1 = z12 at h12
  generalize mulLoHi x.w3 x.w2 = z23 at h23
  generalize mulLoHi x.w2 x.w0 = z02 at h02
  generalize mulLoHi x.w3 x.w1 = z13 at h13
  generalize mulLoHi x.w3 x.w0 = z03 at h03
  have hp := @value_add_of_lt [z01.2, z12.1, z12.2] [z02.1, z02.2, 0#64] rfl (by
    simp only [value_cons, value_nil, List.length_cons, List.length_nil, BitVec.toNat_zero]
    omega)
  have hplen := @length_add 64 [z01.2, z12.1, z12.2] [z02.1, z02.2, 0#64] rfl false
  generalize (add [z01.2, z12.1, z12.2] [z02.1, z02.2, 0#64] false).1 = p at hp hplen
  obtain ⟨p0, p1, p2, rfl⟩ := List.length_eq_three.mp hplen
  have hp2 := p2.isLt
  simp only [List.getD_cons_zero, List.getD_cons_succ]
  have hq := @value_add_of_lt [p2, z23.1, z23.2] [z13.1, z13.2, 0#64] rfl (by
    simp only [value_cons, value_nil, List.length_cons, List.length_nil, BitVec.toNat_zero]
    omega)
  have hqlen := @length_add 64 [p2, z23.1, z23.2] [z13.1, z13.2, 0#64] rfl false
  generalize (add [p2, z23.1, z23.2] [z13.1, z13.2, 0#64] false).1 = q at hq hqlen
  obtain ⟨q0, q1, q2, rfl⟩ := List.length_eq_three.mp hqlen
  simp only [List.getD_cons_zero, List.getD_cons_succ]
  have hr := value_add_four (rfl : [p1, q0, q1, q2].length = 4)
    (rfl : [z03.1, z03.2, 0#64, 0#64].length = 4)
  have hrlen := length_add_four (rfl : [p1, q0, q1, q2].length = 4)
    (rfl : [z03.1, z03.2, 0#64, 0#64].length = 4)
  generalize add [p1, q0, q1, q2] [z03.1, z03.2, 0#64, 0#64] false = r at hr hrlen
  have hcarry : (BitVec.ofNat 64 r.2.toNat).toNat = r.2.toNat := by cases r.2 <;> rfl
  obtain ⟨r0, r1, r2, r3, hwords⟩ := List.length_eq_four.mp hrlen
  rw [hwords] at hr ⊢
  refine ⟨rfl, ?_⟩
  simp only [value_cons, value_nil, BitVec.toNat_zero, List.cons_append, List.nil_append,
    hcarry] at hp hq hr ⊢
  linear_combination h01 + 2 ^ 64 * hp + 2 ^ 128 * h12 + 2 ^ 64 * h02 + 2 ^ 192 * hq +
    2 ^ 192 * h13 + 2 ^ 256 * h23 +
    2 ^ 128 * hr + 2 ^ 128 * h03

theorem value_split {n : ℕ} {xs : List Limb} (hn : n ≤ xs.length) :
    value xs = value (xs.take n) + (2 ^ 64) ^ n * value (xs.drop n) := by
  have h := value_append (xs.take n) (xs.drop n)
  rwa [List.take_append_drop, List.length_take_of_le hn, pow_mul] at h

/-- The parts of a square of eight words. -/
theorem square_bounds {B z t s y X : ℕ}
    (h : z + B * (t + t + s) + B ^ 6 * y = X * X) (hlt : X < B ^ 4) :
    t + t + s < B ^ 7 ∧ ∀ l d, t + t + s = l + B ^ 5 * d → d + y < B ^ 2 := by
  have hX : X * X < B ^ 8 := by
    rw [show 8 = 4 + 4 from rfl, pow_add]
    exact Nat.mul_lt_mul'' hlt hlt
  constructor
  · refine Nat.lt_of_mul_lt_mul_left (a := B) ?_
    calc B * (t + t + s) ≤ X * X := by omega
      _ < B ^ 8 := hX
      _ = B * B ^ 7 := pow_succ' B 7
  · intro l d hd
    refine Nat.lt_of_mul_lt_mul_left (a := B ^ 6) ?_
    calc B ^ 6 * (d + y) ≤ z + B * l + B ^ 6 * (d + y) := Nat.le_add_left _ _
      _ = X * X := by
        rw [← h, hd]
        ring
      _ < B ^ 8 := hX
      _ = B ^ 6 * B ^ 2 := by rw [← pow_add]

/-- The two halves that are folded stand for the square. No carry is lost, since the square has 512
bits. -/
theorem feVal_feSquareNoasm (x : Uint256) : feVal (feSquareNoasm x) = feVal x * feVal x := by
  obtain ⟨htlen, ht⟩ := crossProducts_spec x
  have h00 := mulLoHi_spec x.w0 x.w0
  have h11 := mulLoHi_spec x.w1 x.w1
  have h22 := mulLoHi_spec x.w2 x.w2
  have h33 := mulLoHi_spec x.w3 x.w3
  have hx := value_words x
  have hlt : value x.words < (2 ^ 64) ^ 4 := by
    have h := value_lt x.words
    rwa [length_words, pow_mul] at h
  rw [feSquareNoasm, feVal_feFold]
  generalize crossProducts x = t at htlen ht
  generalize mulLoHi x.w0 x.w0 = z00 at h00
  generalize mulLoHi x.w1 x.w1 = z11 at h11
  generalize mulLoHi x.w2 x.w2 = z22 at h22
  generalize mulLoHi x.w3 x.w3 = z33 at h33
  have hadd : ∀ (n : ℕ) {xs ys : List Limb}, xs.length = n → ys.length = n →
      value xs + value ys < (2 ^ 64) ^ n →
      (add xs ys false).1.length = n ∧ value (add xs ys false).1 = value xs + value ys := by
    intro n xs ys hxs hys h
    refine ⟨(length_add (hxs.trans hys.symm) false).trans hxs,
      value_add_of_lt (hxs.trans hys.symm) ?_⟩
    rwa [hxs, pow_mul]
  have hs : value [z00.2, z11.1, z11.2, z22.1, z22.2, 0#64, 0#64] =
      z00.2.toNat + 2 ^ 64 * (z11.1.toNat +
        2 ^ 64 * (z11.2.toNat + 2 ^ 64 * (z22.1.toNat + 2 ^ 64 * z22.2.toNat))) := by
    simp
  have hz33 : value [z33.1, z33.2] = z33.1.toNat + 2 ^ 64 * z33.2.toNat := by simp
  have hsquare : z00.1.toNat +
      2 ^ 64 * (value t + value t + value [z00.2, z11.1, z11.2, z22.1, z22.2, 0#64, 0#64]) +
      (2 ^ 64) ^ 6 * value [z33.1, z33.2] = value x.words * value x.words := by
    rw [hs, hz33, ht, hx]
    generalize 2 ^ 64 = B at *
    linear_combination h00 + B ^ 2 * h11 + B ^ 4 * h22 + B ^ 6 * h33
  obtain ⟨hsum, hrest⟩ := square_bounds hsquare hlt
  obtain ⟨hdlen, hd⟩ := hadd 7 htlen htlen (by omega)
  obtain ⟨helen, he⟩ :=
    hadd 7 hdlen (rfl : [z00.2, z11.1, z11.2, z22.1, z22.2, 0#64, 0#64].length = 7) (by rwa [hd])
  rw [hd] at he
  generalize (add t t false).1 = d at helen he
  generalize (add d [z00.2, z11.1, z11.2, z22.1, z22.2, 0#64, 0#64] false).1 = e at helen he
  have hsplit5 := value_split (by omega : 5 ≤ e.length)
  have hdrop : (e.drop 5).length = 2 := by rw [List.length_drop, helen]
  obtain ⟨hflen, hf⟩ := hadd 2 hdrop (rfl : [z33.1, z33.2].length = 2)
    (hrest _ _ (he.symm.trans hsplit5))
  generalize (add (e.drop 5) [z33.1, z33.2] false).1 = f at hflen hf
  have hsplit3 := value_split (by omega : 3 ≤ e.length)
  have hsplit2 := value_split (by rw [List.length_drop]; omega : 2 ≤ (e.drop 3).length)
  rw [List.drop_drop] at hsplit2
  have hlo : (ofWords (z00.1 :: e.take 3)).words = z00.1 :: e.take 3 :=
    words_ofWords (by rw [List.length_cons, List.length_take, helen]; rfl)
  have hhi : (ofWords ((e.drop 3).take 2 ++ f)).words = (e.drop 3).take 2 ++ f :=
    words_ofWords
      (by rw [List.length_append, List.length_take, List.length_drop, helen, hflen]; rfl)
  have hhigh : value ((e.drop 3).take 2 ++ f) = value ((e.drop 3).take 2) +
      (2 ^ 64) ^ 2 * value f := by
    rw [value_append, List.length_take, List.length_drop, helen, pow_mul]
    rfl
  have hhalves : value (ofWords (z00.1 :: e.take 3)).words +
      2 ^ 256 * value (ofWords ((e.drop 3).take 2 ++ f)).words =
      value x.words * value x.words := by
    rw [hlo, hhi, hhigh, hf, value_cons, ← hsquare, ← he, hsplit3, hsplit2,
      show 2 ^ 256 = (2 ^ 64) ^ 4 from (pow_mul 2 64 4)]
    ring
  have hcast := congrArg (Nat.cast : ℕ → ZMod fieldPrime) hhalves
  rw [Nat.cast_add, cast_carry, Nat.cast_mul] at hcast
  exact hcast

end CbMpc
