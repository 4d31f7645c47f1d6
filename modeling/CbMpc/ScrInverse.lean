import CbMpc.WordArray
import CbMpc.BinaryInverse
import CbMpc.Convert

/-!
# Inverses in constant time

`mod_t::scr_inv` runs over word arrays of the modulus' length, and `uint256_t::inv_mod` over
four words. Both take the same steps and differ in how they round half of the modulus up:
the first halves before it adds one, the second adds one first, and loses the carry of the
modulus whose bits are all set.
-/
namespace CbMpc

open WordArray

/-- `BN_ULONG`. -/
abbrev Limb := BitVec 64

/-- `MAX_MODULUS_WORDS`. -/
def maxModulusWords : ℕ := (maxModulusBits + 63) / 64

/-- The words of a `BIGNUM` without leading zeros. -/
def limbs (x : ℕ) : List Limb := ofNat 64 (wordCount 64 x) x

/-- `a[0] & 1`. -/
def isOddWords : List Limb → Bool
  | [] => false
  | x :: _ => x &&& 1#64 == 1#64

/-- `div_words_by_two`. -/
def divWordsByTwo (r : List Limb) : List Limb := (half r).1

/-- `cnd_swap`. -/
def cndSwap (flag : Bool) (a b : List Limb) : List Limb × List Limb := swapped flag a b

/-- `ct_bn_add_words`. -/
def ctBnAddWords (a b : List Limb) : List Limb × Bool := add a b false

/-- `ct_bn_sub_words`. -/
def ctBnSubWords (a b : List Limb) : List Limb × Bool := sub a b false

/-- `cnd_add_words`. -/
def cndAddWords (r : List Limb) (flag : Bool) (a : List Limb) : List Limb × Bool :=
  ctBnAddWords r (masked flag a)

/-- `cnd_sub_words`. -/
def cndSubWords (r : List Limb) (flag : Bool) (a : List Limb) : List Limb × Bool :=
  ctBnSubWords r (masked flag a)

/-- `cnd_neg_words`. -/
def cndNegWords (r : List Limb) (flag : Bool) : List Limb × Bool :=
  ctBnAddWords (flipped flag r) (ofNat 64 r.length flag.toNat)

/-- The arrays of `scr_inv`. -/
structure ScrState where
  a : List Limb
  b : List Limb
  u : List Limb
  v : List Limb
  deriving DecidableEq, Repr

/-- An iteration of `scr_inv`. -/
def scrStep (m mp1o2 : List Limb) (s : ScrState) : ScrState :=
  let aIsOdd := isOddWords s.a
  let subA := cndSubWords s.a aIsOdd s.b
  let underflow := subA.2
  let b := (cndAddWords s.b underflow subA.1).1
  let negA := (cndNegWords subA.1 underflow).1
  let uv := cndSwap underflow s.u s.v
  let a := divWordsByTwo negA
  let subU := cndSubWords uv.1 aIsOdd uv.2
  let borrow := subU.2
  let addU := (cndAddWords subU.1 borrow m).1
  let uIsOdd := isOddWords addU
  let halfU := divWordsByTwo addU
  ⟨a, b, (cndAddWords halfU uIsOdd mp1o2).1, uv.2⟩

/-- `(m + 1) / 2` as `scr_inv` computes it. -/
def scrHalf (m : List Limb) : List Limb := (ctBnAddWords (divWordsByTwo m) (ofNat 64 m.length 1)).1

/-- The arrays before the first iteration. -/
def scrStart (m x : List Limb) : ScrState :=
  ⟨resized m.length x, m, ofNat 64 m.length 1, ofNat 64 m.length 0⟩

/-- The arrays after `k` iterations. -/
def scrRun (m x : List Limb) (k : ℕ) : ScrState := (scrStep m (scrHalf m))^[k] (scrStart m x)

/-- `mod_t::scr_inv`. -/
def scrInv (m : ℕ) (x : List Limb) : Outcome (List Limb) := do
  cbAssert (decide (value x < m))
  cbAssert (decide (0 < (limbs m).length ∧ (limbs m).length ≤ maxModulusWords))
  .ok (scrRun (limbs m) x ((limbs m).length * 64 * 2)).v

/-- `uint256_t`. -/
structure Uint256 where
  w0 : Limb
  w1 : Limb
  w2 : Limb
  w3 : Limb
  deriving DecidableEq, Repr

namespace Uint256

def words (x : Uint256) : List Limb := [x.w0, x.w1, x.w2, x.w3]

/-- The number modulo `2 ^ 256`, as `from_bn` cuts it into words. -/
def fromNat (x : ℕ) : Uint256 :=
  ⟨BitVec.ofNat 64 x, BitVec.ofNat 64 (x / 2 ^ 64), BitVec.ofNat 64 (x / 2 ^ 64 / 2 ^ 64),
    BitVec.ofNat 64 (x / 2 ^ 64 / 2 ^ 64 / 2 ^ 64)⟩

/-- `uint256_t::is_odd`. -/
def isOdd (x : Uint256) : Bool := x.w0 &&& 1#64 == 1#64

/-- `uint256_t::div_by_two`. -/
def divByTwo (x : Uint256) : Uint256 :=
  let w3 := x.w3 >>> 1
  let w2 := (x.w2 >>> 1) ||| (x.w3 <<< 63)
  let w1 := (x.w1 >>> 1) ||| (x.w2 <<< 63)
  let w0 := (x.w0 >>> 1) ||| (x.w1 <<< 63)
  ⟨w0, w1, w2, w3⟩

/-- `uint256_t::add_raw`. -/
def addRaw (a b : Uint256) : Uint256 × Bool :=
  let t0 := addx a.w0 b.w0 false
  let t1 := addx a.w1 b.w1 t0.2
  let t2 := addx a.w2 b.w2 t1.2
  let t3 := addx a.w3 b.w3 t2.2
  (⟨t0.1, t1.1, t2.1, t3.1⟩, t3.2)

/-- The words of a number under a mask. -/
def andMask (flag : Bool) (a : Uint256) : Uint256 :=
  ⟨a.w0 &&& WordArray.mask 64 flag, a.w1 &&& WordArray.mask 64 flag,
    a.w2 &&& WordArray.mask 64 flag, a.w3 &&& WordArray.mask 64 flag⟩

/-- `uint256_t::cnd_add_raw`. -/
def cndAddRaw (r : Uint256) (flag : Bool) (a : Uint256) : Uint256 × Bool :=
  addRaw r (andMask flag a)

/-- `uint256_t::cnd_sub_raw`. -/
def cndSubRaw (r : Uint256) (flag : Bool) (a : Uint256) : Uint256 × Bool :=
  let s := andMask flag a
  let t0 := subx r.w0 s.w0 false
  let t1 := subx r.w1 s.w1 t0.2
  let t2 := subx r.w2 s.w2 t1.2
  let t3 := subx r.w3 s.w3 t2.2
  (⟨t0.1, t1.1, t2.1, t3.1⟩, t3.2)

/-- `uint256_t::cnd_neg_raw`. -/
def cndNegRaw (r : Uint256) (flag : Bool) : Uint256 × Bool :=
  let t0 := addx (r.w0 ^^^ WordArray.mask 64 flag) (BitVec.ofNat 64 flag.toNat) false
  let t1 := addx (r.w1 ^^^ WordArray.mask 64 flag) 0#64 t0.2
  let t2 := addx (r.w2 ^^^ WordArray.mask 64 flag) 0#64 t1.2
  let t3 := addx (r.w3 ^^^ WordArray.mask 64 flag) 0#64 t2.2
  (⟨t0.1, t1.1, t2.1, t3.1⟩, t3.2)

/-- `uint256_t::cnd_swap`. -/
def cndSwap (flag : Bool) (a b : Uint256) : Uint256 × Uint256 :=
  let d0 := (a.w0 ^^^ b.w0) &&& WordArray.mask 64 flag
  let d1 := (a.w1 ^^^ b.w1) &&& WordArray.mask 64 flag
  let d2 := (a.w2 ^^^ b.w2) &&& WordArray.mask 64 flag
  let d3 := (a.w3 ^^^ b.w3) &&& WordArray.mask 64 flag
  (⟨a.w0 ^^^ d0, a.w1 ^^^ d1, a.w2 ^^^ d2, a.w3 ^^^ d3⟩,
    ⟨b.w0 ^^^ d0, b.w1 ^^^ d1, b.w2 ^^^ d2, b.w3 ^^^ d3⟩)

/-- The numbers of `inv_mod`. -/
structure Run where
  a : Uint256
  b : Uint256
  u : Uint256
  v : Uint256
  deriving DecidableEq, Repr

/-- An iteration of `inv_mod`. -/
def invStep (m mp1o2 : Uint256) (s : Run) : Run :=
  let aIsOdd := s.a.isOdd
  let subA := s.a.cndSubRaw aIsOdd s.b
  let underflow := subA.2
  let b := (s.b.cndAddRaw underflow subA.1).1
  let negA := (subA.1.cndNegRaw underflow).1
  let uv := cndSwap underflow s.u s.v
  let a := negA.divByTwo
  let subU := uv.1.cndSubRaw aIsOdd uv.2
  let borrow := subU.2
  let addU := (subU.1.cndAddRaw borrow m).1
  let uIsOdd := addU.isOdd
  let halfU := addU.divByTwo
  ⟨a, b, (halfU.cndAddRaw uIsOdd mp1o2).1, uv.2⟩

/-- `uint256_t::inv_mod`. -/
def invMod (x m : Uint256) : Uint256 :=
  let u : Uint256 := ⟨1, 0, 0, 0⟩
  let v : Uint256 := ⟨0, 0, 0, 0⟩
  let mp1o2 := (m.addRaw u).1.divByTwo
  ((invStep m mp1o2)^[512] ⟨x, m, u, v⟩).v

end Uint256

theorem isOddWords_eq (xs : List Limb) : isOddWords xs = decide (value xs % 2 = 1) := by
  cases xs with
  | nil => rfl
  | cons x xs =>
    have hbit : x &&& 1#64 = 1#64 ↔ x.toNat % 2 = 1 := by
      rw [← BitVec.toNat_inj, BitVec.toNat_and, BitVec.toNat_ofNat, Nat.mod_eq_of_lt (by norm_num),
        Nat.and_one_is_mod]
    rw [isOddWords, value_mod_two (by norm_num), Bool.beq_eq_decide_eq]
    exact decide_eq_decide.mpr hbit

theorem length_divWordsByTwo (r : List Limb) : (divWordsByTwo r).length = r.length := length_half r

theorem value_divWordsByTwo (r : List Limb) : value (divWordsByTwo r) = value r / 2 :=
  value_half (by norm_num) r

theorem cndSubWords_borrow {r a : List Limb} (hlen : r.length = a.length) (flag : Bool) :
    (cndSubWords r flag a).2 = (flag && decide (value r < value a)) := by
  rw [cndSubWords, ctBnSubWords, sub_borrow (by rw [hlen, length_masked]), value_masked]
  cases flag <;> simp

theorem length_cndSubWords {r a : List Limb} (hlen : r.length = a.length) (flag : Bool) :
    (cndSubWords r flag a).1.length = r.length := length_sub (by rw [hlen, length_masked]) false

/-- An operation whose flag is not set leaves the number alone. -/
theorem value_cndSubWords_false {r a : List Limb} (hlen : r.length = a.length) :
    value (cndSubWords r false a).1 = value r := by
  rw [cndSubWords, ctBnSubWords,
    value_sub_of_le (by rw [hlen, length_masked]) (by rw [value_masked]; simp), value_masked]
  simp

theorem length_cndAddWords {r a : List Limb} (hlen : r.length = a.length) (flag : Bool) :
    (cndAddWords r flag a).1.length = r.length := length_add (by rw [hlen, length_masked]) false

theorem value_cndAddWords {r a : List Limb} (hlen : r.length = a.length) (flag : Bool) :
    value (cndAddWords r flag a).1 = (value r + flag.toNat * value a) % 2 ^ (64 * r.length) := by
  rw [cndAddWords, ctBnAddWords, value_add_mod (by rw [hlen, length_masked]), value_masked]

theorem value_cndAddWords_false {r a : List Limb} (hlen : r.length = a.length) :
    value (cndAddWords r false a).1 = value r := by
  rw [value_cndAddWords hlen, Bool.toNat_false, zero_mul, add_zero, Nat.mod_eq_of_lt (value_lt r)]

theorem length_cndNegWords (r : List Limb) (flag : Bool) :
    (cndNegWords r flag).1.length = r.length := by
  rw [cndNegWords, ctBnAddWords, length_add (by rw [length_flipped, length_ofNat]), length_flipped]

theorem value_cndNegWords_false (r : List Limb) : value (cndNegWords r false).1 = value r := by
  rw [cndNegWords, ctBnAddWords, value_add_mod (by rw [length_flipped, length_ofNat]),
    flipped_false, value_ofNat]
  simp [Nat.mod_eq_of_lt (value_lt r)]

theorem value_cndNegWords_true {r : List Limb} (hr : 0 < value r) :
    value (cndNegWords r true).1 = 2 ^ (64 * r.length) - value r := by
  have hflip := value_flipped r
  have hlt := value_lt r
  rw [cndNegWords, ctBnAddWords, value_add_mod (by rw [length_flipped, length_ofNat]),
    length_flipped, Bool.toNat_true, value_ofNat_of_lt (by omega : 1 < 2 ^ (64 * r.length)),
    Nat.mod_eq_of_lt (by omega)]
  omega

/-- The arrays have the modulus' length. -/
structure ScrState.Sized (n : ℕ) (s : ScrState) : Prop where
  a : s.a.length = n
  b : s.b.length = n
  u : s.u.length = n
  v : s.v.length = n

/-- The numbers in the arrays. -/
def ScrState.numbers (s : ScrState) : BinaryInverse.State :=
  ⟨value s.a, value s.b, value s.u, value s.v⟩

/-- The difference of `a` and `b`, its sign taken away, and the smaller one of the two. -/
theorem scr_difference {a b : List Limb} (hlen : a.length = b.length) (flag : Bool) :
    value (cndNegWords (cndSubWords a flag b).1 (cndSubWords a flag b).2).1 =
        (if flag then (if value a < value b then value b - value a else value a - value b) else
          value a) ∧
      value (cndAddWords b (cndSubWords a flag b).2 (cndSubWords a flag b).1).1 =
        (if flag && decide (value a < value b) then value a else value b) := by
  have ha := value_lt a
  have hb := value_lt b
  have hsub := length_cndSubWords hlen flag
  rw [cndSubWords_borrow hlen]
  cases flag with
  | false =>
    simp only [Bool.false_and, Bool.false_eq_true, if_false]
    rw [value_cndNegWords_false, value_cndSubWords_false hlen, value_cndAddWords_false (by omega)]
    exact ⟨rfl, rfl⟩
  | true =>
    by_cases hlt : value a < value b
    · have hval : value (cndSubWords a true b).1 = value a + 2 ^ (64 * a.length) - value b := by
        rw [cndSubWords, ctBnSubWords, masked_true, value_sub_of_lt hlen hlt]
      rw [← hlen] at hb
      simp only [hlt, decide_true, Bool.and_self, if_true]
      rw [value_cndNegWords_true (by omega), value_cndAddWords (by omega), hsub, hval,
        Bool.toNat_true, one_mul, ← hlen,
        show value b + (value a + 2 ^ (64 * a.length) - value b) =
          value a + 2 ^ (64 * a.length) by omega, Nat.add_mod_right, Nat.mod_eq_of_lt ha]
      omega
    · have hval : value (cndSubWords a true b).1 = value a - value b := by
        rw [cndSubWords, ctBnSubWords, masked_true, value_sub_of_le hlen (by omega)]
      simp only [hlt, decide_false, Bool.and_false, Bool.false_eq_true, if_false, if_true]
      rw [value_cndNegWords_false, hval, value_cndAddWords_false (by omega)]
      exact ⟨rfl, rfl⟩

/-- A difference of residues that adds the modulus back when it borrows. -/
theorem scr_subMod {u v m : List Limb} (hv : v.length = u.length) (hm : m.length = u.length) 
    (hv' : value v < value m) (flag : Bool) :
    value (cndAddWords (cndSubWords u flag v).1 (cndSubWords u flag v).2 m).1 =
      if flag then BinaryInverse.subMod (value m) (value u) (value v) else value u := by
  have hmlt := value_lt m
  have hvlt := value_lt v
  have hsub := length_cndSubWords hv.symm flag
  rw [cndSubWords_borrow hv.symm]
  cases flag with
  | false =>
    simp only [Bool.false_and, Bool.false_eq_true, if_false]
    rw [value_cndAddWords_false (by omega), value_cndSubWords_false hv.symm]
  | true =>
    rw [hm] at hmlt
    rw [hv] at hvlt
    by_cases hlt : value u < value v
    · have hval : value (cndSubWords u true v).1 = value u + 2 ^ (64 * u.length) - value v := by
        rw [cndSubWords, ctBnSubWords, masked_true, value_sub_of_lt hv.symm hlt]
      simp only [hlt, decide_true, Bool.and_self, if_true, BinaryInverse.subMod]
      rw [value_cndAddWords (by omega), hsub, hval, Bool.toNat_true, one_mul,
        show value u + 2 ^ (64 * u.length) - value v + value m = value u + value m - value v +
          2 ^ (64 * u.length) by omega, Nat.add_mod_right, Nat.mod_eq_of_lt (by omega)]
    · have hval : value (cndSubWords u true v).1 = value u - value v := by
        rw [cndSubWords, ctBnSubWords, masked_true, value_sub_of_le hv.symm (by omega)]
      simp only [hlt, decide_false, Bool.and_false, if_true, BinaryInverse.subMod, if_false]
      rw [value_cndAddWords_false (by omega), hval]

/-- Half of a residue, with the constant for odd ones. -/
theorem scr_halfMod {u h : List Limb} (hh : h.length = u.length)
    (hfit : value u / 2 + value h < 2 ^ (64 * u.length)) :
    value (cndAddWords (divWordsByTwo u) (isOddWords u) h).1 =
      BinaryInverse.halfMod (value h) (value u) := by
  have hlen : (divWordsByTwo u).length = h.length := by rw [length_divWordsByTwo, hh]
  rw [value_cndAddWords hlen, hlen, hh, value_divWordsByTwo, isOddWords_eq, BinaryInverse.halfMod]
  by_cases hodd : value u % 2 = 1
  · rw [decide_eq_true hodd, Bool.toNat_true, one_mul, Nat.mod_eq_of_lt hfit, if_pos hodd]
  · rw [decide_eq_false hodd, Bool.toNat_false, zero_mul, add_zero, Nat.mod_eq_of_lt (by omega),
      if_neg hodd]

/-- An iteration takes a step of the numbers, and no carry is lost. -/
theorem scrStep_spec {n : ℕ} {m h : List Limb} {s : ScrState} (hs : s.Sized n)
    (hm : m.length = n) (hh : h.length = n) (hodd : value m % 2 = 1)
    (hhalf : value h ≤ BinaryInverse.halfUp (value m)) (hu : value s.u < value m)
    (hv : value s.v < value m) :
    (scrStep m h s).Sized n ∧
      (scrStep m h s).numbers = BinaryInverse.step (value m) (value h) s.numbers := by
  obtain ⟨ha, hb, hul, hvl⟩ := hs
  have hmlt := value_lt m
  have hab : s.a.length = s.b.length := ha.trans hb.symm
  obtain ⟨hneg, hmin⟩ := scr_difference hab (isOddWords s.a)
  have hborrow := cndSubWords_borrow hab (isOddWords s.a)
  have hsubA := length_cndSubWords hab (isOddWords s.a)
  have hswap := swapped_eq (hul.trans hvl.symm) (cndSubWords s.a (isOddWords s.a) s.b).2
  simp only [scrStep, cndSwap, hswap]
  -- The cofactors, exchanged or not, are residues of the right length.
  obtain ⟨u, v, huv, hu', hv', hulen, hvlen⟩ : ∃ u v : List Limb,
      (if (cndSubWords s.a (isOddWords s.a) s.b).2 = true then
        (s.v, s.u) else (s.u, s.v)) = (u, v) ∧
        value u < value m ∧ value v < value m ∧ u.length = n ∧ v.length = n := by
    split
    · exact ⟨s.v, s.u, rfl, hv, hu, hvl, hul⟩
    · exact ⟨s.u, s.v, rfl, hu, hv, hul, hvl⟩
  have hsubU := length_cndSubWords (hulen.trans hvlen.symm) (isOddWords s.a)
  have hsubMod := scr_subMod (hvlen.trans hulen.symm) (hm.trans hulen.symm) hv' (isOddWords s.a)
  have haddU := length_cndAddWords (hsubU.trans (hulen.trans hm.symm))
    (cndSubWords u (isOddWords s.a) v).2
  rw [huv]
  simp only
  generalize (cndAddWords (cndSubWords u (isOddWords s.a) v).1
    (cndSubWords u (isOddWords s.a) v).2 m).1 = r at *
  have hr : value r < value m := by
    rw [hsubMod]
    split
    · exact BinaryInverse.subMod_lt hu' hv'
    · exact hu'
  have hrlen : r.length = n := haddU.trans (hsubU.trans hulen)
  have hfit : value r / 2 + value h < 2 ^ (64 * r.length) := by
    rw [hrlen, ← hm]
    unfold BinaryInverse.halfUp at hhalf
    omega
  have hhalfR := scr_halfMod (hh.trans hrlen.symm) hfit
  refine ⟨⟨?_, ?_, ?_, hvlen⟩, ?_⟩
  · rw [length_divWordsByTwo, length_cndNegWords, hsubA, ha]
  · rw [length_cndAddWords (hb.trans (hsubA.trans ha).symm), hb]
  · rw [length_cndAddWords (by rw [length_divWordsByTwo, hrlen, hh]), length_divWordsByTwo, hrlen]
  · simp only [ScrState.numbers, hmin, hhalfR, hsubMod, value_divWordsByTwo, hneg]
    rw [hborrow] at huv
    rw [isOddWords_eq] at huv ⊢
    unfold BinaryInverse.step
    by_cases ho : value s.a % 2 = 1
    · by_cases hlt : value s.a < value s.b
      · simp only [ho, hlt, decide_true, Bool.and_self, if_true, Prod.mk.injEq] at huv ⊢
        simp only [huv]
      · simp only [ho, hlt, decide_true, decide_false, Bool.and_false, if_true, if_false,
          Bool.false_eq_true, Prod.mk.injEq] at huv ⊢
        simp only [huv]
    · simp only [ho, decide_false, Bool.false_and, if_false, Bool.false_eq_true,
        Prod.mk.injEq] at huv ⊢
      simp only [huv]

/-- The run of the word arrays is the run of their numbers. -/
theorem iterate_scrStep {n : ℕ} {m h : List Limb} {x : ℕ} {s : ScrState}
    (hm : m.length = n) (hh : h.length = n) (hodd : value m % 2 = 1)
    (hhalf : value h = BinaryInverse.halfUp (value m)) (hs : s.Sized n)
    (hinv : BinaryInverse.Invariant (value m) x s.numbers) (k : ℕ) :
    ((scrStep m h)^[k] s).Sized n ∧
      ((scrStep m h)^[k] s).numbers =
        (BinaryInverse.step (value m) (BinaryInverse.halfUp (value m)))^[k] s.numbers := by
  induction k with
  | zero => exact ⟨hs, rfl⟩
  | succ k ih =>
    have hk := BinaryInverse.iterate_invariant hodd hinv k
    rw [← ih.2] at hk
    have hstep := scrStep_spec ih.1 hm hh hodd hhalf.le hk.u_lt hk.v_lt
    rw [Function.iterate_succ_apply', Function.iterate_succ_apply']
    exact ⟨hstep.1, by rw [hstep.2, ih.2, hhalf]⟩

theorem length_scrHalf (m : List Limb) : (scrHalf m).length = m.length := by
  rw [scrHalf, ctBnAddWords, length_add (by rw [length_divWordsByTwo, length_ofNat]),
    length_divWordsByTwo]

/-- Halving before the one is added leaves room for it. -/
theorem value_scrHalf {m : List Limb} (h1 : 1 < value m) :
    value (scrHalf m) = BinaryInverse.halfUp (value m) := by
  have hlt := value_lt m
  rw [scrHalf, ctBnAddWords, value_add_mod (by rw [length_divWordsByTwo, length_ofNat]),
    length_divWordsByTwo, value_divWordsByTwo, value_ofNat_of_lt (by omega),
    Nat.mod_eq_of_lt (by omega), BinaryInverse.halfUp]

theorem scrStart_spec {m x : List Limb} (hx : value x < value m) :
    (scrStart m x).Sized m.length ∧
    (scrStart m x).numbers = BinaryInverse.start (value m) (value x) := by
  have hlt := value_lt m
  refine ⟨⟨length_resized _ _, rfl, length_ofNat _ _, length_ofNat _ _⟩, ?_⟩
  simp only [ScrState.numbers, scrStart, BinaryInverse.start]
  rw [value_resized, Nat.mod_eq_of_lt (by omega), value_ofNat_of_lt (by omega),
    value_ofNat_of_lt (by omega)]

/-- Every iteration of `scr_inv` keeps the invariant of the numbers. -/
theorem scrRun_spec {m x : List Limb} (hodd : value m % 2 = 1) (h1 : 1 < value m)
    (hx : value x < value m) (k : ℕ) :
    (scrRun m x k).Sized m.length ∧
      (scrRun m x k).numbers =
        (BinaryInverse.step (value m) (BinaryInverse.halfUp (value m)))^[k]
          (BinaryInverse.start (value m) (value x)) := by
  obtain ⟨hsized, hstart⟩ := scrStart_spec hx
  have hinv := BinaryInverse.start_invariant hodd h1 hx
  rw [← hstart] at hinv ⊢
  exact iterate_scrStep rfl (length_scrHalf m) hodd (value_scrHalf h1) hsized hinv k

theorem value_limbs (m : ℕ) : value (limbs m) = m :=
  value_ofNat_of_lt (lt_two_pow_wordCount (by norm_num) m)

theorem length_limbs (m : ℕ) : (limbs m).length = wordCount 64 m := length_ofNat _ _

theorem isValidModulus_iff (m : ℕ) :
    isValidModulus m = true ↔ 1 < m ∧ m.size ≤ maxModulusBits ∧ m % 2 = 1 := by
  unfold isValidModulus
  rw [decide_eq_true_iff, Int.natAbs_natCast]
  omega

/-- A modulus that is accepted has as many words as the buffers. -/
theorem limbs_bound {m : ℕ} (hm : isValidModulus m = true) :
    0 < (limbs m).length ∧ (limbs m).length ≤ maxModulusWords := by
  obtain ⟨h1, hsize, -⟩ := (isValidModulus_iff m).mp hm
  have hlt := lt_two_pow_wordCount (by norm_num : 0 < 64) m
  rw [length_limbs]
  constructor
  · by_contra h0
    rw [Nat.eq_zero_of_not_pos h0] at hlt
    norm_num at hlt
    omega
  · unfold wordCount maxModulusWords
    omega

/-- The cofactor after `2 * 64` iterations a word is the one inverse below the modulus. -/
theorem scrInv_spec {m : ℕ} (hm : isValidModulus m = true) {x : List Limb} (hx : value x < m)
    (hcop : Nat.Coprime (value x) m) :
    ∃ y, scrInv m x = .ok y ∧ y.length = (limbs m).length ∧ value y < m ∧
    (value y : ZMod m) * value x = 1 := by
  obtain ⟨h1, -, hodd⟩ := (isValidModulus_iff m).mp hm
  have hval := value_limbs m
  have hspec := scrRun_spec (x := x) (by rwa [hval]) (by rwa [hval]) (by rwa [hval])
    ((limbs m).length * 64 * 2)
  have hinv := BinaryInverse.iterate_invariant hodd (BinaryInverse.start_invariant hodd h1 hx)
    ((limbs m).length * 64 * 2)
  have hone := BinaryInverse.inverse_of_run hodd h1 hx hcop
    (by rw [length_limbs]; exact (lt_two_pow_wordCount (by norm_num) m).le : m ≤
      2 ^ (64 * (limbs m).length))
  rw [hval] at hspec
  rw [show 2 * (64 * (limbs m).length) = (limbs m).length * 64 * 2 by ring, ← hspec.2] at hone
  rw [← hspec.2] at hinv
  refine ⟨_, ?_, hspec.1.v, hinv.v_lt, hone⟩
  simp only [scrInv, hx, limbs_bound hm, and_self, decide_true, cbAssert_true, ok_bind]

/-- Two inverses below the modulus are equal. -/
theorem inverse_unique {m x y z : ℕ} (hy : y < m) (hz : z < m) (hyx : (y : ZMod m) * x = 1)
    (hzx : (z : ZMod m) * x = 1) :
    y = z := by
  have h : (y : ZMod m) = z := by
    calc (y : ZMod m) = y * (z * x) := by rw [hzx, mul_one]
      _ = z * (y * x) := by ring
      _ = z := by rw [hyx, mul_one]
  have hmod := (ZMod.natCast_eq_natCast_iff' y z m).mp h
  rwa [Nat.mod_eq_of_lt hy, Nat.mod_eq_of_lt hz] at hmod

namespace Uint256

theorem words_fromNat (x : ℕ) : (fromNat x).words = ofNat 64 4 x := rfl

theorem value_fromNat {x : ℕ} (h : x < 2 ^ 256) : value (fromNat x).words = x := by
  rw [words_fromNat]
  exact value_ofNat_of_lt h

theorem words_divByTwo (x : Uint256) : x.divByTwo.words = divWordsByTwo x.words := by
  simp [divByTwo, words, divWordsByTwo, half]

theorem words_addRaw (a b : Uint256) :
    (a.addRaw b).1.words = (ctBnAddWords a.words b.words).1 := rfl

theorem words_cndAddRaw (r : Uint256) (flag : Bool) (a : Uint256) :
    (r.cndAddRaw flag a).1.words = (cndAddWords r.words flag a.words).1 := rfl

theorem words_cndSubRaw (r : Uint256) (flag : Bool) (a : Uint256) :
    (r.cndSubRaw flag a).1.words = (cndSubWords r.words flag a.words).1 ∧
      (r.cndSubRaw flag a).2 = (cndSubWords r.words flag a.words).2 := ⟨rfl, rfl⟩

theorem words_cndNegRaw (r : Uint256) (flag : Bool) :
    (r.cndNegRaw flag).1.words = (cndNegWords r.words flag).1 := by
  cases flag <;> rfl

theorem words_cndSwap (flag : Bool) (a b : Uint256) :
    CbMpc.cndSwap flag a.words b.words = ((cndSwap flag a b).1.words, (cndSwap flag a b).2.words) :=
  rfl

theorem isOdd_eq (x : Uint256) : x.isOdd = isOddWords x.words := rfl

def Run.arrays (s : Run) : ScrState := ⟨s.a.words, s.b.words, s.u.words, s.v.words⟩

/-- An iteration over four words is one over arrays of four words. -/
theorem arrays_invStep (m mp1o2 : Uint256) (s : Run) :
    (invStep m mp1o2 s).arrays = scrStep m.words mp1o2.words s.arrays := by
  simp only [invStep, scrStep, Run.arrays, words_cndSwap, words_divByTwo, words_cndAddRaw,
    words_cndSubRaw, words_cndNegRaw, isOdd_eq]

theorem arrays_iterate (m mp1o2 : Uint256) (s : Run) (k : ℕ) :
    ((invStep m mp1o2)^[k] s).arrays = (scrStep m.words mp1o2.words)^[k] s.arrays := by
  induction k with
  | zero => rfl
  | succ k ih => rw [Function.iterate_succ_apply', Function.iterate_succ_apply', arrays_invStep, ih]

theorem value_v_iterate (m mp1o2 : Uint256) (s : Run) (k : ℕ) :
    value ((invStep m mp1o2)^[k] s).v.words =
      ((scrStep m.words mp1o2.words)^[k] s.arrays).numbers.v := by
  rw [← arrays_iterate]
  rfl

/-- Adding one before halving is right unless the sum leaves the four words. -/
theorem value_mp1o2 {m : Uint256} (hodd : value m.words % 2 = 1)
    (hmax : value m.words ≠ 2 ^ 256 - 1) :
    value (m.addRaw ⟨1, 0, 0, 0⟩).1.divByTwo.words = BinaryInverse.halfUp (value m.words) := by
  have hlt : value m.words < 2 ^ 256 := value_lt m.words
  have hone : value (⟨1, 0, 0, 0⟩ : Uint256).words = 1 := by decide
  have hlen : m.words.length = (⟨1, 0, 0, 0⟩ : Uint256).words.length := rfl
  have hsum : value (ctBnAddWords m.words (⟨1, 0, 0, 0⟩ : Uint256).words).1 =
      (value m.words + 1) % 2 ^ 256 := by
    rw [ctBnAddWords, value_add_mod hlen, hone]
    rfl
  rw [words_divByTwo, value_divWordsByTwo, words_addRaw, hsum, Nat.mod_eq_of_lt (by omega),
    BinaryInverse.halfUp]
  omega

/-- `inv_mod` is right for every modulus but the greatest one. -/
theorem invMod_spec {x m : Uint256} (hodd : value m.words % 2 = 1) (h1 : 1 < value m.words)
    (hmax : value m.words ≠ 2 ^ 256 - 1) (hx : value x.words < value m.words)
    (hcop : Nat.Coprime (value x.words) (value m.words)) :
    value (x.invMod m).words < value m.words ∧
      (value (x.invMod m).words : ZMod (value m.words)) * value x.words = 1 := by
  have hlt : value m.words ≤ 2 ^ 256 := (value_lt m.words).le
  have hstart : (Run.arrays ⟨x, m, ⟨1, 0, 0, 0⟩, ⟨0, 0, 0, 0⟩⟩).numbers =
      BinaryInverse.start (value m.words) (value x.words) := by
    simp only [Run.arrays, ScrState.numbers, BinaryInverse.start,
      BinaryInverse.State.mk.injEq, true_and]
    decide
  have hinv := BinaryInverse.start_invariant hodd h1 hx
  have hlen : (m.addRaw ⟨1, 0, 0, 0⟩).1.divByTwo.words.length = 4 := rfl
  have hrun := fun k => iterate_scrStep rfl hlen hodd (value_mp1o2 hodd hmax)
    (⟨rfl, rfl, rfl, rfl⟩ : (Run.arrays ⟨x, m, ⟨1, 0, 0, 0⟩, ⟨0, 0, 0, 0⟩⟩).Sized 4)
      (hstart ▸ hinv) k
  have hone := BinaryInverse.inverse_of_run hodd h1 hx hcop hlt
  have hkept := BinaryInverse.iterate_invariant hodd hinv (2 * 256)
  rw [invMod, value_v_iterate, show 512 = 2 * 256 from rfl, (hrun (2 * 256)).2, hstart]
  exact ⟨hkept.v_lt, hone⟩

end Uint256

/-- What is asked of an inversion modulo `m`: `scr_inv` returns the one inverse below `m`, each
iteration takes the step of the numbers and keeps their invariant, and for four words
`inv_mod` returns the same number. -/
def InverseCorrect (m : ℕ) : Prop :=
  (∀ x : List Limb, value x < m → Nat.Coprime (value x) m →
    (∃ y, scrInv m x = .ok y ∧ y.length = (limbs m).length ∧
      ∀ z, z < m → (value x * z ≡ 1 [MOD m] ↔ z = value y)) ∧
    ∀ k, (scrRun (limbs m) x k).Sized (limbs m).length ∧
      BinaryInverse.Invariant m (value x) (scrRun (limbs m) x k).numbers ∧
      (scrRun (limbs m) x (k + 1)).numbers =
        BinaryInverse.step m (BinaryInverse.halfUp m) (scrRun (limbs m) x k).numbers) ∧
  (m < 2 ^ 256 → ∀ x : Uint256, value x.words < m → Nat.Coprime (value x.words) m →
    ∃ y, scrInv m x.words = .ok y ∧ value (x.invMod (Uint256.fromNat m)).words = value y)

theorem mul_modEq_one_iff {m x y z : ℕ} (hy : y < m) (hyx : (y : ZMod m) * x = 1) (hz : z < m) :
    x * z ≡ 1 [MOD m] ↔ z = y := by
  rw [← ZMod.natCast_eq_natCast_iff, Nat.cast_mul, Nat.cast_one, mul_comm]
  constructor
  · intro h
    exact inverse_unique hz hy h hyx
  · rintro rfl
    exact hyx

section AllOnes

open Uint256

/-- Half of a modulus whose bits are all set, rounded up, becomes zero. -/
theorem half_allOnes : ((fromNat (2 ^ 256 - 1)).addRaw ⟨1, 0, 0, 0⟩).1.divByTwo =
      ⟨0, 0, 0, 0⟩ := by decide

/-- Without that half an iteration leaves zeros as they are. -/
theorem invStep_zero {s : Run} (hu : s.u = ⟨0, 0, 0, 0⟩) (hv : s.v = ⟨0, 0, 0, 0⟩) :
    (invStep (fromNat (2 ^ 256 - 1)) ⟨0, 0, 0, 0⟩ s).u = ⟨0, 0, 0, 0⟩ ∧
      (invStep (fromNat (2 ^ 256 - 1)) ⟨0, 0, 0, 0⟩ s).v = ⟨0, 0, 0, 0⟩ := by
  have hswap : ∀ flag, Uint256.cndSwap flag ⟨0, 0, 0, 0⟩ ⟨0, 0, 0, 0⟩ =
    (⟨0, 0, 0, 0⟩, ⟨0, 0, 0, 0⟩) := by decide
  have hsub : ∀ flag, (⟨0, 0, 0, 0⟩ : Uint256).cndSubRaw flag ⟨0, 0, 0, 0⟩ =
    (⟨0, 0, 0, 0⟩, false) := by decide
  have hadd : ((⟨0, 0, 0, 0⟩ : Uint256).cndAddRaw false (fromNat (2 ^ 256 - 1))).1 =
    ⟨0, 0, 0, 0⟩ := by decide
  have hhalf :
    (((⟨0, 0, 0, 0⟩ : Uint256).divByTwo).cndAddRaw (Uint256.isOdd ⟨0, 0, 0, 0⟩) ⟨0, 0, 0, 0⟩).1 =
      ⟨0, 0, 0, 0⟩ := by decide
  simp only [invStep]
  rw [hu, hv, hswap, hsub, hadd, hhalf]
  exact ⟨rfl, rfl⟩

theorem iterate_invStep_zero {s : Run} (hu : s.u = ⟨0, 0, 0, 0⟩) (hv : s.v = ⟨0, 0, 0, 0⟩) (k : ℕ) :
    ((invStep (fromNat (2 ^ 256 - 1)) ⟨0, 0, 0, 0⟩)^[k] s).v = ⟨0, 0, 0, 0⟩ := by
  induction k generalizing s with
  | zero => exact hv
  | succ k ih =>
    obtain ⟨hu', hv'⟩ := invStep_zero hu hv
    rw [Function.iterate_succ_apply]
    exact ih hu' hv'

/-- The inverse of 2 is lost in the first iteration. -/
theorem invMod_allOnes :
    (Uint256.fromNat 2).invMod (Uint256.fromNat (2 ^ 256 - 1)) = ⟨0, 0, 0, 0⟩ := by
  have hfirst :
      (invStep (fromNat (2 ^ 256 - 1)) ⟨0, 0, 0, 0⟩ ⟨fromNat 2, fromNat (2 ^ 256 - 1), ⟨1, 0, 0, 0⟩,
      ⟨0, 0, 0, 0⟩⟩).u =
      ⟨0, 0, 0, 0⟩ := by decide
  have hv :
      (invStep (fromNat (2 ^ 256 - 1)) ⟨0, 0, 0, 0⟩ ⟨fromNat 2, fromNat (2 ^ 256 - 1), ⟨1, 0, 0, 0⟩,
      ⟨0, 0, 0, 0⟩⟩).v =
      ⟨0, 0, 0, 0⟩ := by decide
  rw [invMod, half_allOnes, show 512 = 511 + 1 from rfl, Function.iterate_succ_apply]
  exact iterate_invStep_zero hfirst hv 511

end AllOnes

theorem not_inverseCorrect_allOnes : ¬InverseCorrect (2 ^ 256 - 1) := by
  rintro ⟨hscr, h256⟩
  have htwo : value (Uint256.fromNat 2).words = 2 := Uint256.value_fromNat (by norm_num)
  have hlt : value (Uint256.fromNat 2).words < 2 ^ 256 - 1 := by rw [htwo]; norm_num
  have hcop : Nat.Coprime (value (Uint256.fromNat 2).words) (2 ^ 256 - 1) := by rw [htwo]; norm_num
  obtain ⟨y, hy, hval⟩ := h256 (by norm_num) _ hlt hcop
  obtain ⟨⟨y', hy', -, hunique⟩, -⟩ := hscr _ hlt hcop
  cases hy.symm.trans hy'
  rw [invMod_allOnes, show value (⟨0, 0, 0, 0⟩ : Uint256).words = 0 by decide] at hval
  have hzero := (hunique 0 (by norm_num)).mpr hval
  rw [mul_zero] at hzero
  exact absurd hzero (by decide)

/-- The iteration that drops half of the residue: a modulus of four full words has no inverse of
2. -/
theorem inverse_wrong_allOnes :
    isValidModulus (2 ^ 256 - 1 : ℕ) = true ∧ ¬InverseCorrect (2 ^ 256 - 1) := by
  refine ⟨(isValidModulus_iff _).mpr ⟨by norm_num, ?_, by norm_num⟩, not_inverseCorrect_allOnes⟩
  exact le_trans (Nat.size_le.mpr (by norm_num : 2 ^ 256 - 1 < 2 ^ 256)) (by decide)

theorem inverseCorrect_iff (m : ℕ) (hm : isValidModulus m = true) :
    InverseCorrect m ↔ m ≠ 2 ^ 256 - 1 := by
  obtain ⟨h1, -, hodd⟩ := (isValidModulus_iff m).mp hm
  constructor
  · rintro h rfl
    exact not_inverseCorrect_allOnes h
  · intro hmax
    refine ⟨fun x hx hcop => ⟨?_, fun k => ?_⟩, fun h256 x hx hcop => ?_⟩
    · obtain ⟨y, hy, hlen, hlt, hone⟩ := scrInv_spec hm hx hcop
      exact ⟨y, hy, hlen, fun z hz => mul_modEq_one_iff hlt hone hz⟩
    · have hval := value_limbs m
      have hspec := fun k => scrRun_spec (x := x) (by rwa [hval]) (by rwa [hval]) (by rwa [hval]) k
      simp only [hval] at hspec
      refine ⟨(hspec k).1, ?_, ?_⟩
      · rw [(hspec k).2]
        exact BinaryInverse.iterate_invariant hodd (BinaryInverse.start_invariant hodd h1 hx) k
      · rw [(hspec (k + 1)).2, (hspec k).2, Function.iterate_succ_apply']
    · obtain ⟨y, hy, -, hlt, hone⟩ := scrInv_spec hm hx hcop
      have hval := Uint256.value_fromNat h256
      rw [← hval] at h1 hodd hmax hx hcop
      obtain ⟨hlt', hone'⟩ := Uint256.invMod_spec hodd h1 hmax hx hcop
      rw [hval] at hlt' hone'
      exact ⟨y, hy, inverse_unique hlt' hlt hone' hone⟩

theorem inverseCorrect_iff_three : isValidModulus 3 = true ∧ (InverseCorrect 3 ↔ 3 ≠ 2 ^ 256 - 1) :=
  ⟨by decide, inverseCorrect_iff 3 (by decide)⟩

end CbMpc
