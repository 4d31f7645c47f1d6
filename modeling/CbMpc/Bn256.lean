import CbMpc.Barrett
import CbMpc.WordProducts

/-!
# Arithmetic on 256-bit residues

The portable path of `bn256_t`: additions with one conditional subtraction, products reduced by
Barrett's method, and Montgomery products. The Barrett reduction is the one of `mod_t` for four
words, with the word that its second subtraction does not look at.
-/
namespace CbMpc

open WordArray Uint256

namespace Uint256

/-- The first four words of an array. -/
def ofWords (l : List Limb) : Uint256 :=
  ⟨l.getD 0 0#64, l.getD 1 0#64, l.getD 2 0#64, l.getD 3 0#64⟩

end Uint256

/-- `mul256_noasm`. -/
def mul256Noasm (a b : Uint256) : List Limb := mulSchool a.words b.words (List.replicate 4 0#64)

/-- `uint256_t::sqr_noasm`, where each mixed product is computed once. -/
def sqrNoasm (a : Uint256) : List Limb :=
  let t := addWide (wideMul a.w0 a.w0) 0#64 0#64
  let r0 := t.1
  let t01 := wideMul a.w1 a.w0
  let t := addWide t01 0#64 t.2
  let r1 := t.1
  let t02 := wideMul a.w2 a.w0
  let t := addWide t02 0#64 t.2
  let r2 := t.1
  let t03 := wideMul a.w3 a.w0
  let t := addWide t03 0#64 t.2
  let r3 := t.1
  let r4 := t.2
  let t := addWide t01 r1 0#64
  let r1 := t.1
  let t := addWide (wideMul a.w1 a.w1) r2 t.2
  let r2 := t.1
  let t12 := wideMul a.w2 a.w1
  let t := addWide t12 r3 t.2
  let r3 := t.1
  let t13 := wideMul a.w3 a.w1
  let t := addWide t13 r4 t.2
  let r4 := t.1
  let r5 := t.2
  let t := addWide t02 r2 0#64
  let r2 := t.1
  let t := addWide t12 r3 t.2
  let r3 := t.1
  let t := addWide (wideMul a.w2 a.w2) r4 t.2
  let r4 := t.1
  let t23 := wideMul a.w3 a.w2
  let t := addWide t23 r5 t.2
  let r5 := t.1
  let r6 := t.2
  let t := addWide t03 r3 0#64
  let r3 := t.1
  let t := addWide t13 r4 t.2
  let r4 := t.1
  let t := addWide t23 r5 t.2
  let r5 := t.1
  let t := addWide (wideMul a.w3 a.w3) r6 t.2
  let r6 := t.1
  let r7 := t.2
  [r0, r1, r2, r3, r4, r5, r6, r7]

/-- `barrett_reduce256_noasm`. -/
def barrettReduce256Noasm (x m mu : List Limb) : List Limb :=
  let q1 := x.drop 3
  let q2 := mulSchool mu q1 (List.replicate 5 0#64)
  let q3 := q2.drop 5
  let r2 := mulLow 5 q3 m
  let d := sub (x.take 5) r2 false
  let w := d.1.take 4
  let r4 := d.1.getD 4 0#64
  let r2 := sub w m false
  let borrow := r2.2 && r4 == 0#64
  let w := blend (!borrow) r2.1 w
  let r2 := sub w m false
  blend (!r2.2) r2.1 w

/-- The words of `mod_t` that `bn256_t` reads: the modulus, `mu`, and `n0` and `RR` of the
Montgomery context. -/
structure Bn256Mod where
  m : Uint256
  mu : List Limb
  n0 : Limb
  rr : Uint256

/-- The words of a modulus: `n0` is the negative inverse modulo `2 ^ 64`, and `RR` is the square of
`2 ^ 256`. -/
def Bn256Mod.make (m : ℕ) : Bn256Mod where
  m := fromNat m
  mu := ofNat 64 5 (2 ^ (64 * (2 * 4)) / m)
  n0 := BitVec.ofInt 64 (-Int.gcdA m (2 ^ 64))
  rr := fromNat (2 ^ (2 * 256) % m)

variable (mod : Bn256Mod)

/-- `bn256_t::add_mod`. -/
def addMod (a b : Uint256) : Uint256 :=
  let s := add a.words b.words false
  let t := sub s.1 mod.m.words false
  let borrow := (subx (BitVec.ofNat 64 s.2.toNat) 0#64 t.2).2
  ofWords (blend borrow s.1 t.1)

/-- `bn256_t::sub_mod`. -/
def subMod (a b : Uint256) : Uint256 :=
  let s := sub a.words b.words false
  ofWords (add s.1 (masked s.2 mod.m.words) false).1

/-- `bn256_t::neg_mod`. -/
def negMod (a : Uint256) : Uint256 :=
  let s := sub [0#64, 0#64, 0#64, 0#64] a.words false
  ofWords (add s.1 (masked s.2 mod.m.words) false).1

/-- `bn256_t::barrett_reduce`. -/
def barrettReduce256 (x : List Limb) : Uint256 :=
  ofWords (barrettReduce256Noasm x mod.m.words mod.mu)

/-- `bn256_t::reduce`. -/
def reduce (x : List Limb) : Outcome Uint256 := do
  cbAssert (decide (wordCount 64 (value mod.m.words) = 4))
  cbAssert (decide (wordCount 64 (value mod.mu) = 5))
  .ok (barrettReduce256 mod x)

/-- `bn256_t::operator*`. -/
def mulMod256 (a b : Uint256) : Uint256 := barrettReduce256 mod (mul256Noasm a b)

/-- The conditional subtraction at the end of `mont_mul` and `mont_reduce`. -/
def montFinish (t : List Limb × Bool) : Uint256 :=
  let s := sub t.1 mod.m.words false
  ofWords (blend (s.2 != t.2) t.1 s.1)

/-- `bn256_t::mont_mul`. -/
def montMul (a b : Uint256) : Uint256 :=
  montFinish mod (montMulRows mod.m.words mod.n0 a.words b.words ([0#64, 0#64, 0#64, 0#64], false))

/-- `bn256_t::mont_reduce`. -/
def montReduce (u : List Limb) : Uint256 :=
  montFinish mod (montReduceRows mod.m.words mod.n0 (u.drop 4) (u.take 4, false))

/-- `bn256_t::to_mont`. -/
def toMont (a : Uint256) : Uint256 := montMul mod a mod.rr

/-- `bn256_t::from_mont`. -/
def fromMont (a : Uint256) : Uint256 := montReduce mod (a.words ++ [0#64, 0#64, 0#64, 0#64])

theorem wideMul_comm {w : ℕ} (u v : BitVec w) : wideMul u v = wideMul v u := BitVec.mul_comm _ _

/-- The square is the product, row by row. -/
theorem sqrNoasm_eq (a : Uint256) : sqrNoasm a = mul256Noasm a a := by
  simp only [sqrNoasm, mul256Noasm, words, mulSchool, mulAddRow, mac, List.replicate,
    List.headD_cons, List.tail_cons, List.cons_append, List.nil_append]
  rw [wideMul_comm a.w1 a.w0, wideMul_comm a.w2 a.w0, wideMul_comm a.w3 a.w0,
    wideMul_comm a.w2 a.w1, wideMul_comm a.w3 a.w1, wideMul_comm a.w3 a.w2]

theorem length_words (a : Uint256) : a.words.length = 4 := rfl

theorem words_ofWords {l : List Limb} (h : l.length = 4) : (ofWords l).words = l := by
  obtain ⟨a, b, c, d, rfl⟩ := List.length_eq_four.mp h
  rfl

theorem subx_carry (carry borrow : Bool) :
    (subx (BitVec.ofNat 64 carry.toNat) 0#64 borrow).2 = (!carry && borrow) := by
  cases carry <;> cases borrow <;> decide

/-- A conditional subtraction from an array and a carry above it. -/
theorem condSub_spec {ws ms : List Limb} (hlen : ws.length = ms.length) {carry : Bool}
    (hlt : value ws + 2 ^ (64 * ws.length) * carry.toNat < value ms + 2 ^ (64 * ws.length)) :
    (blend (!carry && (sub ws ms false).2) ws (sub ws ms false).1).length = ws.length ∧
      value (blend (!carry && (sub ws ms false).2) ws (sub ws ms false).1) =
        if value ws + 2 ^ (64 * ws.length) * carry.toNat < value ms then
          value ws + 2 ^ (64 * ws.length) * carry.toNat
        else value ws + 2 ^ (64 * ws.length) * carry.toNat - value ms := by
  have hsub := length_sub hlen false
  have hm := value_lt ms
  rw [← hlen] at hm
  rw [blend_eq hsub.symm, sub_borrow hlen]
  cases carry with
  | false =>
    rw [Bool.toNat_false, mul_zero, add_zero, Bool.not_false, Bool.true_and]
    by_cases h : value ws < value ms
    · rw [decide_eq_true h, if_pos rfl, if_pos h]
      exact ⟨rfl, rfl⟩
    · rw [decide_eq_false h, if_neg Bool.false_ne_true, if_neg h]
      exact ⟨hsub, value_sub_of_le hlen (not_lt.mp h)⟩
  | true =>
    rw [Bool.toNat_true, mul_one] at hlt ⊢
    have hborrow : value ws < value ms := by omega
    rw [Bool.not_true, Bool.false_and, if_neg Bool.false_ne_true, if_neg (by omega)]
    exact ⟨hsub, value_sub_of_lt hlen hborrow⟩

/-- Below twice the modulus one subtraction reduces. -/
theorem ite_sub_eq_mod {T m : ℕ} (h : T < 2 * m) : (if T < m then T else T - m) = T % m := by
  split_ifs with hT
  · exact (Nat.mod_eq_of_lt hT).symm
  · rw [Nat.mod_eq_sub_mod (not_lt.mp hT), Nat.mod_eq_of_lt (by omega)]

/-- The moduli of four words. -/
structure Modulus256 (m : ℕ) : Prop where
  odd : m % 2 = 1
  gt : 2 ^ 192 < m
  lt : m < 2 ^ 256

variable {m : ℕ}

theorem Modulus256.value_m (hm : Modulus256 m) :
    value (Bn256Mod.make m).m.words = m := value_fromNat hm.lt

theorem value_addMod (hm : Modulus256 m) {a b : Uint256} (ha : value a.words < m)
    (hb : value b.words < m) :
    value (addMod (Bn256Mod.make m) a b).words = (value a.words + value b.words) % m := by
  have hlen : a.words.length = b.words.length := rfl
  have hsum := value_add hlen false
  have hsumlen := length_add hlen false
  have hlt := hm.lt
  simp only [addMod, subx_carry]
  generalize add a.words b.words false = s at hsum hsumlen
  have hs : s.1.length = (Bn256Mod.make m).m.words.length := hsumlen
  rw [Bool.toNat_false, add_zero, ← hsumlen] at hsum
  have h4 : s.1.length = 4 := hsumlen
  have hbound : value s.1 + 2 ^ (64 * s.1.length) * s.2.toNat < value (Bn256Mod.make m).m.words +
      2 ^ (64 * s.1.length) := by
    rw [hsum, hm.value_m, h4]
    omega
  obtain ⟨hlen', hval⟩ := condSub_spec hs hbound
  rw [words_ofWords (hlen'.trans h4), hval, hsum, hm.value_m]
  exact ite_sub_eq_mod (by omega)

/-- The difference of two arrays, with the modulus added where it borrows. -/
theorem value_add_masked {xs ys ms : List Limb} (hxy : xs.length = ys.length)
    (hxm : xs.length = ms.length) (hx : value xs < value ms) (hy : value ys < value ms) :
    value (add (sub xs ys false).1 (masked (sub xs ys false).2 ms) false).1 =
      if value xs < value ys then value xs + value ms - value ys else value xs - value ys := by
  have hsub := length_sub hxy false
  have hm := value_lt ms
  have hadd := @value_add_mod 64 (sub xs ys false).1 (masked (sub xs ys false).2 ms)
    (by rw [hsub, length_masked, hxm])
  rw [hadd, value_masked, sub_borrow hxy, hsub, hxm]
  by_cases h : value xs < value ys
  · rw [if_pos h, decide_eq_true h, Bool.toNat_true, one_mul, value_sub_of_lt hxy h, hxm,
      Nat.mod_eq_sub_mod (by omega), Nat.mod_eq_of_lt (by omega)]
    omega
  · rw [if_neg h, decide_eq_false h, Bool.toNat_false, zero_mul, add_zero,
      value_sub_of_le hxy (not_lt.mp h), Nat.mod_eq_of_lt (by omega)]

theorem length_add_masked {xs ys ms : List Limb} (hxy : xs.length = ys.length)
    (hxm : xs.length = ms.length) (flag : Bool) :
    (add (sub xs ys false).1 (masked flag ms) false).1.length = xs.length := by
  have hsub := length_sub hxy false
  rw [length_add (by rw [hsub, length_masked, hxm]), hsub]

theorem emod_of_ite {x y m : ℕ} (hx : x < m) (hy : y < m) :
    ((if x < y then x + m - y else x - y : ℕ) : ℤ) = ((x : ℤ) - y) % m := by
  split_ifs with h
  · rw [Nat.cast_sub (by omega), Nat.cast_add, ← Int.add_emod_right,
      Int.emod_eq_of_lt (by omega) (by omega)]
    ring
  · rw [Nat.cast_sub (by omega), Int.emod_eq_of_lt (by omega) (by omega)]

theorem value_subMod (hm : Modulus256 m) {a b : Uint256} (ha : value a.words < m)
    (hb : value b.words < m) :
    (value (subMod (Bn256Mod.make m) a b).words : ℤ) =
      ((value a.words : ℤ) - value b.words) % m := by
  have hval := @value_add_masked a.words b.words (Bn256Mod.make m).m.words rfl rfl
    (by rwa [hm.value_m]) (by rwa [hm.value_m])
  have hlen := @length_add_masked a.words b.words (Bn256Mod.make m).m.words rfl rfl
    (sub a.words b.words false).2
  rw [subMod, words_ofWords hlen, hval, hm.value_m]
  exact emod_of_ite ha hb

theorem value_negMod (hm : Modulus256 m) {a : Uint256} (ha : value a.words < m) :
    (value (negMod (Bn256Mod.make m) a).words : ℤ) = -(value a.words : ℤ) % m := by
  have hgt := hm.gt
  have hzero : value [0#64, 0#64, 0#64, 0#64] = 0 := by decide
  have hval := @value_add_masked [0#64, 0#64, 0#64, 0#64] a.words (Bn256Mod.make m).m.words rfl rfl
    (by rw [hzero, hm.value_m]; omega) (by rwa [hm.value_m])
  have hlen := @length_add_masked [0#64, 0#64, 0#64, 0#64] a.words (Bn256Mod.make m).m.words rfl rfl
    (sub [0#64, 0#64, 0#64, 0#64] a.words false).2
  rw [negMod, words_ofWords hlen, hval, hm.value_m, hzero]
  have hmod := emod_of_ite (x := 0) (y := value a.words) (by omega) ha
  rwa [Nat.cast_zero, zero_sub] at hmod

/-- The reduction of `bn256_t` is the one of `mod_t` for four words. -/
theorem barrettReduce256Noasm_eq {x mm mu : List Limb} (hx : x.length = 8)
    (hm : mm.length = 4) (hmu : mu.length = 5) :
    barrettReduce256Noasm x mm mu = barrettReduce mm mu x := by
  have hq1 : (x.drop 3).length = 5 := by rw [List.length_drop, hx]
  obtain ⟨hlen, hval⟩ := @mulSchool_spec 64 mu (x.drop 3) (List.replicate 5 0#64) (by omega)
    (by rw [hmu, List.length_replicate])
  have hq2 : mulSchool mu (x.drop 3) (List.replicate 5 0#64) = bnMulNormal (x.drop 3) mu := by
    apply eq_of_value
    · rw [hlen, bnMulNormal, length_ofNat]
    · rw [hval, value_bnMulNormal, value_replicate, add_zero, mul_comm]
  have hresized : resized 5 x = x.take 5 := by
    rw [resized, hx]
    exact List.append_nil _
  have hselect : ∀ (flag : Bool) (xs ys : List Limb), xs.length = ys.length →
      blend (!flag) xs ys = selected flag ys xs := by
    intro flag xs ys h
    rw [blend_eq h, selected_eq h.symm]
    cases flag <;> rfl
  have htake : ∀ {ys : List Limb}, ys.length = 5 → (ys.take 4).length = mm.length := by
    intro ys hys
    rw [List.length_take, hys, hm]
    rfl
  have hr2 := length_mulLow 5 ((mulSchool mu (x.drop 3) (List.replicate 5 0#64)).drop 5) mm
  have hd := @length_sub 64 (x.take 5)
    (mulLow 5 ((mulSchool mu (x.drop 3) (List.replicate 5 0#64)).drop 5) mm)
    (by rw [hr2, List.length_take, hx]; rfl) false
  rw [List.length_take, hx] at hd
  simp only [barrettReduce256Noasm, barrettReduce, hm, barrettPartialMul, hresized, hq2,
    ctBnSubWords] at hd ⊢
  generalize sub (x.take 5) (mulLow 5 ((bnMulNormal (x.drop 3) mu).drop 5) mm) false = r1 at hd
  have hw := htake hd
  have hfirst := length_sub hw false
  rw [hselect _ _ _ hfirst]
  generalize hlow :
    selected ((sub (r1.1.take 4) mm false).2 && r1.1.getD 4 0#64 == 0#64) (r1.1.take 4)
    (sub (r1.1.take 4) mm false).1 = low
  have hlowlen : low.length = mm.length := by
    rw [← hlow, selected_eq hfirst.symm]
    split_ifs
    · exact hw
    · rw [hfirst, hw]
  rw [hselect _ _ _ (length_sub hlowlen false)]

theorem Modulus256.valid (hm : Modulus256 m) : isValidModulus m = true := by
  have hgt := hm.gt
  refine (isValidModulus_iff m).mpr ⟨by omega, ?_, hm.odd⟩
  exact (Nat.size_le.mpr hm.lt).trans (by decide)

theorem Modulus256.wordCount (hm : Modulus256 m) : wordCount 64 m = 4 := wordCount_eq hm.gt.le hm.lt

theorem Modulus256.limbs (hm : Modulus256 m) : limbs m = (Bn256Mod.make m).m.words := by
  rw [CbMpc.limbs, hm.wordCount]
  rfl

theorem Modulus256.mu (hm : Modulus256 m) : barrettMu m = (Bn256Mod.make m).mu := by
  obtain ⟨k, hk, -, -, hle, hlt⟩ := modulus_words hm.valid
  have hcount := hk.symm.trans hm.wordCount
  rw [barrettMu, CbMpc.limbs, hk, wordCount_eq hle hlt, Bn256Mod.make]
  simp only [hcount]

/-- What the reduction of eight words returns: the remainder, or one that has lost its top word. -/
theorem value_barrettReduce256 (hm : Modulus256 m) {x : List Limb} (hx : x.length = 8) :
    value (barrettReduce256 (Bn256Mod.make m) x).words =
      if Dropped m (value x) then value x % m + m - 2 ^ 256 else value x % m := by
  have hmulen : (Bn256Mod.make m).mu.length = 5 := length_ofNat _ _
  have hlimbslen : (limbs m).length = 4 := (length_limbs m).trans hm.wordCount
  obtain ⟨hlen, hval⟩ := value_barrettReduce_eq hm.valid
    (hx.trans_le (by rw [hlimbslen]) : x.length ≤ 2 * (limbs m).length)
  rw [barrettReduce256, barrettReduce256Noasm_eq hx rfl hmulen, ← hm.mu, ← hm.limbs,
    words_ofWords (hlen.trans hlimbslen), hval, hm.wordCount]

theorem value_mul256Noasm (a b : Uint256) :
    (mul256Noasm a b).length = 8 ∧ value (mul256Noasm a b) = value a.words * value b.words := by
  have hzero : value (List.replicate 4 (0#64)) = 0 := by decide
  obtain ⟨hlen, hval⟩ := @mulSchool_spec 64 a.words b.words
    (List.replicate 4 0#64) (Nat.succ_pos 3) rfl
  rw [hzero, add_zero] at hval
  exact ⟨hlen, hval⟩

theorem value_mulMod256 (hm : Modulus256 m) (a b : Uint256) :
    value (mulMod256 (Bn256Mod.make m) a b).words =
      if Dropped m (value a.words * value b.words) then
        value a.words * value b.words % m + m - 2 ^ 256
      else value a.words * value b.words % m := by
  obtain ⟨hlen, hval⟩ := value_mul256Noasm a b
  rw [mulMod256, value_barrettReduce256 hm hlen, hval]

/-- The multiplier of the Montgomery context. -/
theorem Modulus256.n0 (hm : Modulus256 m) :
    ((Bn256Mod.make m).n0.toNat * value (Bn256Mod.make m).m.words + 1) % 2 ^ 64 = 0 := by
  have hcoprime : Int.gcd m (2 ^ 64) = 1 :=
    (Nat.coprime_two_right.mpr (Nat.odd_iff.mpr hm.odd)).pow_right 64
  have hbezout := Int.gcd_eq_gcd_ab m (2 ^ 64)
  have hn0 : ((Bn256Mod.make m).n0.toNat : ℤ) ≡ -Int.gcdA m (2 ^ 64) [ZMOD 2 ^ 64] := by
    show ((BitVec.ofInt 64 (-Int.gcdA m (2 ^ 64))).toNat : ℤ) ≡ _ [ZMOD 2 ^ 64]
    rw [BitVec.toNat_ofInt, Int.toNat_of_nonneg (Int.emod_nonneg _ (by norm_num))]
    exact Int.mod_modEq _ _
  have hzero : (((Bn256Mod.make m).n0.toNat * m + 1 : ℕ) : ℤ) ≡ 0 [ZMOD 2 ^ 64] := by
    rw [hcoprime, Nat.cast_one] at hbezout
    calc (((Bn256Mod.make m).n0.toNat * m + 1 : ℕ) : ℤ)
        = (Bn256Mod.make m).n0.toNat * m + 1 := by push_cast; rfl
      _ ≡ -Int.gcdA m (2 ^ 64) * m + 1 [ZMOD 2 ^ 64] := (hn0.mul_right _).add_right _
      _ = 2 ^ 64 * Int.gcdB m (2 ^ 64) := by linear_combination hbezout
      _ ≡ 0 [ZMOD 2 ^ 64] := Int.modEq_zero_iff_dvd.mpr (dvd_mul_right _ _)
  rw [hm.value_m]
  exact Nat.dvd_iff_mod_eq_zero.mp (by exact_mod_cast Int.modEq_zero_iff_dvd.mp hzero)

/-- The last subtraction of a Montgomery product. -/
theorem value_montFinish (hm : Modulus256 m) {t : List Limb × Bool} (hlen : t.1.length = 4)
    (ht : carryValue t < 2 * m) :
    value (montFinish (Bn256Mod.make m) t).words = carryValue t % m := by
  have hlt := hm.lt
  have hms : t.1.length = (Bn256Mod.make m).m.words.length := hlen
  have hT : value t.1 + 2 ^ (64 * t.1.length) * t.2.toNat = carryValue t := rfl
  have hbound : value t.1 + 2 ^ (64 * t.1.length) * t.2.toNat < value (Bn256Mod.make m).m.words +
      2 ^ (64 * t.1.length) := by
    rw [hT, hm.value_m, hlen]
    omega
  have hflag : ((sub t.1 (Bn256Mod.make m).m.words false).2 != t.2) =
      (!t.2 && (sub t.1 (Bn256Mod.make m).m.words false).2) := by
    cases hcarry : t.2 with
    | false => rw [Bool.bne_false, Bool.not_false, Bool.true_and]
    | true =>
      rw [hcarry, hlen, hm.value_m] at hbound
      rw [sub_borrow hms, hm.value_m, decide_eq_true (by simpa using hbound)]
      rfl
  obtain ⟨hlen', hval⟩ := condSub_spec hms hbound
  rw [montFinish, hflag, words_ofWords (hlen'.trans hlen), hval, hT, hm.value_m]
  exact ite_sub_eq_mod ht

/-- A number whose product with `2 ^ 256` is known up to a multiple of the modulus. -/
theorem montgomery_mod {T q n : ℕ} (hq : q < 2 ^ 256) (hn : n < m * 2 ^ 256)
    (hT : 2 ^ 256 * T = q * m + n) :
    T < 2 * m ∧ T % m * 2 ^ 256 ≡ n [MOD m] := by
  refine ⟨?_, ?_⟩
  · have hqm := Nat.mul_le_mul_right m hq.le
    refine Nat.lt_of_mul_lt_mul_left (?_ : 2 ^ 256 * T < 2 ^ 256 * (2 * m))
    rw [mul_comm m] at hn
    rw [hT, two_mul, mul_add]
    omega
  · calc T % m * 2 ^ 256 ≡ T * 2 ^ 256 [MOD m] := (Nat.mod_modEq _ _).mul_right _
      _ = n + m * q := by rw [mul_comm, hT]; ring
      _ ≡ n [MOD m] := Nat.add_mul_mod_self_left _ _ _

theorem montMul_spec (hm : Modulus256 m) {a b : Uint256} (ha : value a.words < m) :
    value (montMul (Bn256Mod.make m) a b).words < m ∧
      value (montMul (Bn256Mod.make m) a b).words * 2 ^ 256 ≡
        value a.words * value b.words [MOD m] := by
  have hgt := hm.gt
  have hb : value b.words < 2 ^ 256 := value_lt b.words
  obtain ⟨hlen, q, hq, hT⟩ :=
    @montMulRows_spec 64 (Bn256Mod.make m).m.words (Bn256Mod.make m).n0 a.words
      rfl (Nat.succ_pos 3) hm.n0
    b.words ([0#64, 0#64, 0#64, 0#64], false) rfl
  have hzero : carryValue ([0#64, 0#64, 0#64, 0#64], false) = 0 := by decide
  rw [hzero, add_zero, hm.value_m] at hT
  obtain ⟨hlt, hmod⟩ := montgomery_mod hq (Nat.mul_lt_mul'' ha hb) hT
  rw [montMul, value_montFinish hm hlen hlt]
  exact ⟨Nat.mod_lt _ (by omega), hmod⟩

theorem montReduce_spec (hm : Modulus256 m) {u : List Limb} (hu : u.length = 8)
    (hlt : value u < m * 2 ^ 256) :
    value (montReduce (Bn256Mod.make m) u).words < m ∧
      value (montReduce (Bn256Mod.make m) u).words * 2 ^ 256 ≡ value u [MOD m] := by
  have hgt := hm.gt
  have hlow : (u.take 4).length = 4 := by rw [List.length_take, hu]; rfl
  have hhigh : (u.drop 4).length = 4 := by rw [List.length_drop, hu]
  obtain ⟨hlen, q, hq, hT⟩ :=
    @montReduceRows_spec 64 (Bn256Mod.make m).m.words (Bn256Mod.make m).n0 (Nat.succ_pos 3) hm.n0
    (u.drop 4) (u.take 4, false) hlow
  have hsplit : carryValue (u.take 4, false) + 2 ^ 256 * value (u.drop 4) = value u := by
    have happend := value_append (u.take 4) (u.drop 4)
    rw [List.take_append_drop, hlow] at happend
    rw [carryValue_eq hlow, happend]
    rfl
  rw [hhigh] at hq hT
  rw [hm.value_m, add_assoc] at hT
  obtain ⟨hlt, hmod⟩ := montgomery_mod hq (hsplit ▸ hlt) (hT.trans (congrArg (q * m + ·) rfl))
  rw [montReduce, value_montFinish hm hlen hlt]
  exact ⟨Nat.mod_lt _ (by omega), hmod.trans (congrArg (· % m) hsplit)⟩

theorem value_toMont (hm : Modulus256 m) {a : Uint256} (ha : value a.words < m) :
    value (toMont (Bn256Mod.make m) a).words = value a.words * 2 ^ 256 % m := by
  have hgt := hm.gt
  have hrr : value (Bn256Mod.make m).rr.words = 2 ^ (2 * 256) % m :=
    value_fromNat ((Nat.mod_lt _ (by omega)).trans hm.lt)
  obtain ⟨hlt, hmod⟩ := @montMul_spec m hm a (Bn256Mod.make m).rr ha
  have hcoprime : Nat.gcd m (2 ^ 256) = 1 :=
    (Nat.coprime_two_right.mpr (Nat.odd_iff.mpr hm.odd)).pow_right 256
  have hcancel : value (toMont (Bn256Mod.make m) a).words ≡ value a.words * 2 ^ 256 [MOD m] := by
    apply Nat.ModEq.cancel_right_of_coprime hcoprime
    calc value (toMont (Bn256Mod.make m) a).words * 2 ^ 256
        ≡ value a.words * (2 ^ (2 * 256) % m) [MOD m] := by rw [← hrr]; exact hmod
      _ ≡ value a.words * 2 ^ (2 * 256) [MOD m] := (Nat.mod_modEq _ _).mul_left _
      _ = value a.words * 2 ^ 256 * 2 ^ 256 := by rw [two_mul 256, pow_add, mul_assoc]
  exact (Nat.mod_eq_of_lt hlt).symm.trans hcancel

theorem fromMont_spec (hm : Modulus256 m) {a : Uint256} (ha : value a.words < m) :
    value (fromMont (Bn256Mod.make m) a).words < m ∧
      value (fromMont (Bn256Mod.make m) a).words * 2 ^ 256 ≡ value a.words [MOD m] := by
  have hval : value (a.words ++ [0#64, 0#64, 0#64, 0#64]) = value a.words := by
    have hzero : value [0#64, 0#64, 0#64, 0#64] = 0 := by decide
    rw [value_append, hzero, mul_zero, add_zero]
  have h := @montReduce_spec m hm (a.words ++ [0#64, 0#64, 0#64, 0#64]) rfl
    (by rw [hval]; exact lt_of_lt_of_le ha (Nat.le_mul_of_pos_right m (Nat.two_pow_pos 256)))
  rwa [hval] at h

/-- What is asked of the residue arithmetic on two residues, an array of eight words to reduce,
another one for `mont_reduce`, and a number to square. -/
structure ResidueExact (m : ℕ) (a b : Uint256) (x u : List Limb) (c : Uint256) : Prop where
  add : value (addMod (Bn256Mod.make m) a b).words = (value a.words + value b.words) % m
  sub : (value (subMod (Bn256Mod.make m) a b).words : ℤ) = ((value a.words : ℤ) - value b.words) % m
  neg : (value (negMod (Bn256Mod.make m) a).words : ℤ) = -(value a.words : ℤ) % m
  mul : value (mulMod256 (Bn256Mod.make m) a b).words = value a.words * value b.words % m
  montMul : value (montMul (Bn256Mod.make m) a b).words < m ∧
    value (montMul (Bn256Mod.make m) a b).words * 2 ^ 256 ≡ value a.words * value b.words [MOD m]
  montReduce : value u < m * 2 ^ 256 → value (montReduce (Bn256Mod.make m) u).words < m ∧
    value (montReduce (Bn256Mod.make m) u).words * 2 ^ 256 ≡ value u [MOD m]
  toMont : value (toMont (Bn256Mod.make m) a).words = value a.words * 2 ^ 256 % m
  fromMont : value (fromMont (Bn256Mod.make m) a).words < m ∧
    value (fromMont (Bn256Mod.make m) a).words * 2 ^ 256 ≡ value a.words [MOD m]
  barrett : value (barrettReduce256 (Bn256Mod.make m) x).words = value x % m
  sqr : sqrNoasm c = mul256Noasm c c

/-- A remainder that lost its top word is not the remainder. -/
theorem barrett_exact_iff (hm : Modulus256 m) {r n : ℕ}
    (h : r = if Dropped m n then n % m + m - 2 ^ 256 else n % m) : r = n % m ↔ ¬Dropped m n := by
  constructor
  · intro hr hd
    have hne := dropped_ne hd
    rw [hm.wordCount] at hne
    rw [if_pos hd, hr] at h
    omega
  · intro hd
    rw [h, if_neg hd]

/-- All the residue arithmetic is exact where the two Barrett reductions lose no word. -/
theorem residueExact_iff {m : ℕ} (hm : Modulus256 m) {a b : Uint256} (ha : value a.words < m)
    (hb : value b.words < m) {x u : List Limb} (hx : x.length = 8)
    (hu : u.length = 8) (c : Uint256) :
    ResidueExact m a b x u c ↔ ¬Dropped m (value a.words * value b.words) ∧
    ¬Dropped m (value x) := by
  have hmul := barrett_exact_iff hm (value_mulMod256 hm a b)
  have hbarrett := barrett_exact_iff hm (value_barrettReduce256 hm hx)
  constructor
  · intro h
    exact ⟨hmul.mp h.mul, hbarrett.mp h.barrett⟩
  · rintro ⟨hab, hxm⟩
    exact {
      add := value_addMod hm ha hb
      sub := value_subMod hm ha hb
      neg := value_negMod hm ha
      mul := hmul.mpr hab
      montMul := montMul_spec hm ha
      montReduce := fun hlt => montReduce_spec hm hu hlt
      toMont := value_toMont hm ha
      fromMont := fromMont_spec hm ha
      barrett := hbarrett.mpr hxm
      sqr := sqrNoasm_eq c }

theorem droppingModulus256 : Modulus256 droppingModulus := ⟨by decide, by decide, by decide⟩

/-- Numbers that lose a word modulo the modulus, and numbers that do not. -/
theorem droppingModulus_cases :
    Dropped droppingModulus ((droppingModulus - 1) * (droppingModulus - 2 ^ 170)) ∧
    Dropped droppingModulus ((droppingModulus - 1) * (droppingModulus - 2 ^ 170) %
      (2 ^ 256 * droppingModulus)) ∧
    ¬Dropped droppingModulus (value (List.replicate 8 (0#64 : Limb))) ∧
    ¬Dropped droppingModulus (value (fromNat 2).words * value (fromNat 3).words) := by
  decide +kernel

theorem residueExact_iff_sample :
    ResidueExact droppingModulus (fromNat 2) (fromNat 3) (List.replicate 8 0#64)
      (List.replicate 8 0#64) (fromNat 5) := by
  refine (residueExact_iff droppingModulus256 ?_ ?_ rfl rfl _).mpr ⟨?_, ?_⟩
  · decide
  · decide
  · exact droppingModulus_cases.2.2.2
  · exact droppingModulus_cases.2.2.1

/-- Two reduced factors for which a word is lost. -/
theorem value_droppingFactors : value (fromNat (droppingModulus - 1)).words = droppingModulus - 1 ∧
    value (fromNat (droppingModulus - 2 ^ 170)).words = droppingModulus - 2 ^ 170 :=
  ⟨value_fromNat (by norm_num [droppingModulus]), value_fromNat (by norm_num [droppingModulus])⟩

theorem droppingFactors_lt : value (fromNat (droppingModulus - 1)).words < droppingModulus ∧
    value (fromNat (droppingModulus - 2 ^ 170)).words < droppingModulus := by
  rw [value_droppingFactors.1, value_droppingFactors.2]
  norm_num [droppingModulus]

/-- Two reduced factors whose product loses a word. -/
theorem residue_product_loses_word : Modulus256 droppingModulus ∧
    value (fromNat (droppingModulus - 1)).words < droppingModulus ∧
    value (fromNat (droppingModulus - 2 ^ 170)).words < droppingModulus ∧
    ¬ResidueExact droppingModulus (fromNat (droppingModulus - 1))
      (fromNat (droppingModulus - 2 ^ 170))
      (List.replicate 8 0#64) (List.replicate 8 0#64) (fromNat 0) := by
  have hd := droppingModulus_cases.1
  refine ⟨droppingModulus256, droppingFactors_lt.1, droppingFactors_lt.2, fun h => ?_⟩
  have hmul :=
    (barrett_exact_iff droppingModulus256 (value_mulMod256 droppingModulus256 _ _)).mp h.mul
  rw [value_droppingFactors.1, value_droppingFactors.2] at hmul
  exact hmul hd

end CbMpc
