import CbMpc.BarrettEstimate
import CbMpc.ScrInverse

/-!
# Barrett reduction

`mod_t::_mod` outside a `vartime_scope_t`, over word arrays. What the quotient estimate leaves
over has `k + 1` words and may be three times the modulus. The first conditional subtraction
looks at the top word and the second one no longer does, so a remainder that needs both loses
a word that is still set.
-/
namespace CbMpc

open WordArray

/-- A `BIGNUM`: its sign and the words at hand. -/
structure Bignum where
  neg : Bool
  d : List Limb

/-- The `mu` of `mod_t::init`. -/
def barrettMu (m : ℕ) : List Limb := limbs (2 ^ (64 * (2 * wordCount 64 m)) / m)

/-- `bn_mul_normal`. -/
def bnMulNormal (a b : List Limb) : List Limb := ofNat 64 (a.length + b.length) (value a * value b)

/-- `barrett_partial_mul`. -/
def barrettPartialMul (resultLength : ℕ) (u v : List Limb) : List Limb := mulLow resultLength u v

/-- The word arithmetic of `mod_t::_mod` on an operand of at least `k` words. -/
def barrettReduce (mm mu x : List Limb) : List Limb :=
  let k := mm.length
  let q1 := x.drop (k - 1)
  let q2 := bnMulNormal q1 mu
  let q3 := q2.drop (k + 1)
  let r2 := barrettPartialMul (k + 1) q3 mm
  let r1 := (ctBnSubWords (resized (k + 1) x) r2).1
  let first := ctBnSubWords (r1.take k) mm
  let borrow := first.2 && r1.getD k 0#64 == 0#64
  let r1 := selected borrow (r1.take k) first.1
  let second := ctBnSubWords r1 mm
  selected second.2 r1 second.1

/-- `mod_t::_mod` on a `BIGNUM`. -/
def modBignum (m : ℕ) (x : Bignum) : Outcome (List Limb) := do
  cbAssert (!x.neg)
  let mm := limbs m
  let mu := barrettMu m
  cbAssert (decide (mu.length = mm.length + 1))
  cbAssert (decide (x.d.length ≤ 2 * mm.length))
  if x.d.length < mm.length then .ok x.d
  else do
    cbAssert (decide (mm.length ≤ maxModulusWords))
    cbAssert (decide (x.d.length - (mm.length - 1) + mu.length ≤ 2 * maxModulusWords + 2))
    .ok (barrettReduce mm mu x.d)

/-- `mod_t::_mod` on a `bn_t`: a longer operand is first reduced modulo the square. -/
def modBnAux : ℕ → ℕ → Bignum → Outcome (List Limb)
  | 0, _, _ => throwing .assertionFailed
  | fuel + 1, m, x =>
    if x.d.length ≤ 2 * (limbs m).length then modBignum m x
    else do
      cbAssert (decide ((m * m).size ≤ maxModulusBits))
      let temp ← modBnAux fuel (m * m) x
      modBignum m ⟨false, temp⟩

/-- The squares of a modulus above 1 pass the bound of `init` within fourteen squarings. -/
def modBn (m : ℕ) (x : Bignum) : Outcome (List Limb) := modBnAux 14 m x

/-- `mod_t::_mul`. -/
def mulWords (m : ℕ) (a b : List Limb) : Outcome (List Limb) := do
  cbAssert (decide (value a < m))
  cbAssert (decide (value b < m))
  if a.isEmpty || b.isEmpty then .ok []
  else do
    cbAssert (decide (a.length + b.length ≤ 2 * maxModulusWords))
    modBignum m ⟨false, bnMulNormal a b⟩

/-- The second subtraction loses a word: the quotient estimate is two too small, and the remainder
with one modulus on it leaves the `k` words. -/
def Dropped (m x : ℕ) : Prop :=
  x / 2 ^ (64 * (wordCount 64 m - 1)) * (2 ^ (64 * (2 * wordCount 64 m)) / m) <
      (x / m - 1) * 2 ^ (64 * (wordCount 64 m + 1)) ∧
    2 ^ (64 * wordCount 64 m) ≤ x % m + m

instance decidableDropped (m x : ℕ) : Decidable (Dropped m x) := inferInstanceAs (Decidable (_ ∧ _))

/-- No stage of the reduction loses a word. -/
def Undropped : ℕ → ℕ → List Limb → Prop
  | 0, _, _ => False
  | fuel + 1, m, x =>
    if x.length ≤ 2 * (limbs m).length then ¬Dropped m (value x)
    else (m * m).size ≤ maxModulusBits ∧ Undropped fuel (m * m) x ∧ ¬Dropped m (value x % (m * m))

theorem two_pow_words (k : ℕ) : 2 ^ (64 * (k + 1)) = 2 * 2 ^ (64 * k + 63) := by
  rw [show 64 * (k + 1) = 64 * k + 63 + 1 by ring, pow_succ']

/-- A modulus has `k` words, and one word more than `k` holds its reciprocal. -/
theorem modulus_words {m : ℕ} (hm : isValidModulus m = true) :
    ∃ k, wordCount 64 m = k + 1 ∧ 2 ^ (64 * k) < m ∧ m < 2 ^ (64 * (k + 1)) ∧
      2 ^ (64 * (k + 1)) ≤ 2 ^ (64 * (2 * (k + 1))) / m ∧
      2 ^ (64 * (2 * (k + 1))) / m < 2 ^ (64 * (k + 2)) := by
  obtain ⟨h1, -, hodd⟩ := (isValidModulus_iff m).mp hm
  obtain ⟨k, hk⟩ : ∃ k, wordCount 64 m = k + 1 :=
    ⟨wordCount 64 m - 1, by have := (limbs_bound hm).1; rw [length_limbs] at this; omega⟩
  have hle := two_pow_le_of_wordCount (by norm_num) hk
  have hlt := lt_two_pow_wordCount (by norm_num : 0 < 64) m
  rw [hk] at hlt
  have hgt : 2 ^ (64 * k) < m := by
    refine lt_of_le_of_ne hle fun h => ?_
    cases k with
    | zero => omega
    | succ k =>
      have heven : 2 ^ (64 * (k + 1)) % 2 = 0 := by rw [two_pow_words, Nat.mul_mod_right]
      omega
  refine ⟨k, hk, hgt, hlt, ?_, ?_⟩
  · rw [Nat.le_div_iff_mul_le (by omega),
      show 64 * (2 * (k + 1)) = 64 * (k + 1) + 64 * (k + 1) by ring, pow_add]
    exact Nat.mul_le_mul_left _ hlt.le
  · rw [Nat.div_lt_iff_lt_mul (by omega),
      show 64 * (2 * (k + 1)) = 64 * (k + 2) + 64 * k by ring, pow_add]
    exact Nat.mul_lt_mul_of_pos_left hgt (Nat.two_pow_pos _)

theorem wordCount_eq {x n : ℕ} (hle : 2 ^ (64 * n) ≤ x) (hlt : x < 2 ^ (64 * (n + 1))) :
    wordCount 64 x = n + 1 := by
  refine Nat.le_antisymm (wordCount_le (by norm_num) hlt) ?_
  by_contra h
  have hx := lt_of_lt_of_le (lt_two_pow_wordCount (by norm_num : 0 < 64) x)
    (Nat.pow_le_pow_right (by norm_num) (by omega : 64 * wordCount 64 x ≤ 64 * n))
  omega

theorem value_bnMulNormal (a b : List Limb) : value (bnMulNormal a b) = value a * value b := by
  refine value_ofNat_of_lt ?_
  rw [Nat.mul_add, pow_add]
  exact Nat.mul_lt_mul'' (value_lt a) (value_lt b)

/-- The two conditional subtractions, on what the estimate leaves over. -/
def subtractTwice (k : ℕ) (m R : ℕ) : ℕ :=
  let first := if R < m then R else (R - m) % 2 ^ (64 * k)
  if first < m then first else first - m

/-- The word arithmetic of the two subtractions. The second one sees `k` words only. -/
theorem value_subtractWords {mm r1 : List Limb} {m k R : ℕ}
    (hlen : mm.length = k) (hval : value mm = m) (hlt : m < 2 ^ (64 * k))
    (hr1len : r1.length = k + 1) (hr1 : value r1 = R) :
    let first := ctBnSubWords (r1.take k) mm
    let low := selected (first.2 && r1.getD k 0#64 == 0#64) (r1.take k) first.1
    (selected (ctBnSubWords low mm).2 low (ctBnSubWords low mm).1).length = k ∧
      value (selected (ctBnSubWords low mm).2 low (ctBnSubWords low mm).1) =
        subtractTwice k m R := by
  intro first low
  have htake : (r1.take k).length = k := List.length_take_of_le (by omega)
  have hlow : value (r1.take k) = R % 2 ^ (64 * k) := by rw [value_take, hr1]
  have htop : (r1.getD k 0#64 == 0#64) = decide (R < 2 ^ (64 * k)) := by
    rw [Bool.beq_eq_decide_eq]
    refine decide_eq_decide.mpr ?_
    rw [← BitVec.toNat_inj, toNat_getD hr1len, hr1, BitVec.toNat_ofNat, Nat.zero_mod,
      Nat.div_eq_zero_iff]
    have := Nat.two_pow_pos (64 * k)
    omega
  have hfirst : first.1.length = k := (length_sub (htake.trans hlen.symm) false).trans htake
  have hborrow : first.2 = decide (R % 2 ^ (64 * k) < m) := by
    rw [← hlow, ← hval]
    exact sub_borrow (htake.trans hlen.symm)
  have hlowlen : low.length = k := by
    simp only [low]
    rw [selected_eq (htake.trans hfirst.symm)]
    split
    · exact htake
    · exact hfirst
  have hlowval : value low = if R < m then R else (R - m) % 2 ^ (64 * k) := by
    simp only [low]
    rw [selected_eq (htake.trans hfirst.symm), hborrow, htop]
    by_cases hRm : R < m
    · have hRk : R < 2 ^ (64 * k) := by omega
      rw [Nat.mod_eq_of_lt hRk, if_pos hRm]
      simp only [hRm, hRk, decide_true, Bool.and_self, if_true]
      rw [hlow, Nat.mod_eq_of_lt hRk]
    · have hkeep : (decide (R % 2 ^ (64 * k) < m) && decide (R < 2 ^ (64 * k))) = false := by
        by_cases hRk : R < 2 ^ (64 * k)
        · rw [Nat.mod_eq_of_lt hRk, decide_eq_false hRm, Bool.false_and]
        · rw [decide_eq_false hRk, Bool.and_false]
      rw [hkeep, if_neg hRm]
      simp only [Bool.false_eq_true, if_false]
      have hmod := value_sub_modEq (htake.trans hlen.symm)
      have hv := value_lt first.1
      rw [hfirst] at hv
      rw [htake, hval, hlow] at hmod
      have hsplit : R - m + m = R := by omega
      have hcancel : value first.1 ≡ R - m [MOD 2 ^ (64 * k)] := by
        refine (Nat.ModEq.refl m).add_right_cancel (hmod.trans ((Nat.mod_modEq _ _).trans ?_))
        rw [hsplit]
      exact (Nat.mod_eq_of_lt hv).symm.trans hcancel
  have hsecond : (ctBnSubWords low mm).1.length = k :=
    (length_sub (hlowlen.trans hlen.symm) false).trans hlowlen
  have hborrow2 : (ctBnSubWords low mm).2 = decide (value low < m) := by
    rw [← hval]
    exact sub_borrow (hlowlen.trans hlen.symm)
  rw [selected_eq (hlowlen.trans hsecond.symm), hborrow2, subtractTwice]
  simp only [← hlowval, decide_eq_true_eq]
  by_cases h : value low < m
  · rw [if_pos h, if_pos h]
    exact ⟨hlowlen, rfl⟩
  · rw [if_neg h, if_neg h]
    refine ⟨hsecond, ?_⟩
    rw [ctBnSubWords, value_sub_of_le (hlowlen.trans hlen.symm) (by omega), hval]

/-- The word arithmetic computes the remainder of the estimate and subtracts twice. -/
theorem value_barrettReduce {m k : ℕ} (hk : wordCount 64 m = k + 1) (hgt : 2 ^ (64 * k) < m)
    (hlt : m < 2 ^ (64 * (k + 1))) {x : List Limb} (hx : x.length ≤ 2 * (k + 1)) :
    (barrettReduce (limbs m) (barrettMu m) x).length = k + 1 ∧
      value (barrettReduce (limbs m) (barrettMu m) x) = subtractTwice (k + 1) m
        (value x - BarrettEstimate.quotient (2 ^ (64 * k))
          (2 ^ (64 * (k + 2))) m (value x) * m) := by
  have hlen : (limbs m).length = k + 1 := (length_limbs m).trans hk
  have hval := value_limbs m
  have hxlt : value x < 2 ^ (64 * k) * 2 ^ (64 * (k + 2)) := by
    refine lt_of_lt_of_le (value_lt x) ?_
    rw [← pow_add]
    exact Nat.pow_le_pow_right (by norm_num) (by omega)
  have hest := BarrettEstimate.quotient_mul_le (B := 2 ^ (64 * k)) (m := m) (x := value x)
    (Nat.two_pow_pos (64 * (k + 2)))
  have hthree := BarrettEstimate.lt_quotient_mul (Nat.two_pow_pos (64 * k))
    (Nat.two_pow_pos (64 * (k + 2))) hgt.le hxlt
  have hq3 : value ((bnMulNormal (x.drop k) (barrettMu m)).drop (k + 2)) =
      BarrettEstimate.quotient (2 ^ (64 * k)) (2 ^ (64 * (k + 2))) m (value x) := by
    rw [value_drop, value_bnMulNormal, value_drop, barrettMu, value_limbs, hk,
      BarrettEstimate.quotient, ← pow_add]
    congr 4
    ring
  generalize hQ : BarrettEstimate.quotient (2 ^ (64 * k)) (2 ^ (64 * (k + 2))) m (value x) = q at *
  -- The difference modulo `k + 1` words is the difference itself.
  obtain ⟨R, hR⟩ : ∃ R, value x = q * m + R := ⟨value x - q * m, by omega⟩
  have hB : 2 ^ (64 * (k + 2)) = 2 ^ (64 * (k + 1)) * 2 ^ 64 := by
    rw [← pow_add]
    congr 1
  have hRlt : R < 2 ^ (64 * (k + 2)) := by
    rw [Nat.add_mul] at hthree
    omega
  have hr2len :
      (barrettPartialMul (k + 2) ((bnMulNormal (x.drop k) (barrettMu m)).drop (k + 2))
        (limbs m)).length = k + 2 :=
    length_mulLow _ _ _
  have hr2 :
      value (barrettPartialMul (k + 2)
        ((bnMulNormal (x.drop k) (barrettMu m)).drop (k + 2)) (limbs m)) =
      q * m % 2 ^ (64 * (k + 2)) := by
    rw [barrettPartialMul, value_mulLow, hq3, hval]
  have hres := length_resized (k + 2) x
  have hr1len : (ctBnSubWords (resized (k + 2) x)
      (barrettPartialMul (k + 2) ((bnMulNormal (x.drop k) (barrettMu m)).drop (k + 2))
        (limbs m))).1.length = k + 2 :=
    (length_sub (hres.trans hr2len.symm) false).trans hres
  have hr1 : value (ctBnSubWords (resized (k + 2) x)
      (barrettPartialMul (k + 2)
        ((bnMulNormal (x.drop k) (barrettMu m)).drop (k + 2)) (limbs m))).1 = R := by
    have hmod := value_sub_modEq (hres.trans hr2len.symm)
    have hv := value_lt (ctBnSubWords (resized (k + 2) x)
      (barrettPartialMul (k + 2) ((bnMulNormal (x.drop k) (barrettMu m)).drop (k + 2)) (limbs m))).1
    rw [hr1len] at hv
    rw [hres, hr2, value_resized, hR] at hmod
    have hsum : value (ctBnSubWords (resized (k + 2) x)
        (barrettPartialMul (k + 2)
          ((bnMulNormal (x.drop k) (barrettMu m)).drop (k + 2)) (limbs m))).1 ≡
        R [MOD 2 ^ (64 * (k + 2))] := by
      refine (Nat.mod_modEq (q * m) (2 ^ (64 * (k + 2)))).add_right_cancel
        (hmod.trans ((Nat.mod_modEq _ _).trans ?_))
      rw [Nat.add_comm (q * m)]
    rw [← Nat.mod_eq_of_lt hv, ← Nat.mod_eq_of_lt hRlt]
    exact hsum
  rw [show value x - q * m = R by omega]
  simp only [barrettReduce, hlen, Nat.add_sub_cancel]
  generalize (ctBnSubWords (resized (k + 2) x)
    (barrettPartialMul (k + 2) ((bnMulNormal (x.drop k) (barrettMu m)).drop (k + 2)) (limbs m))).1 =
      r1 at *
  exact value_subtractWords hlen hval hlt hr1len hr1

/-- A remainder above two multiples of the modulus loses the word that the first subtraction
leaves. -/
theorem subtractTwice_eq {k m r t : ℕ} (hlt : m < 2 ^ (64 * k)) (hr : r < m) (ht : t ≤ 2) :
    subtractTwice k m (r + t * m) = if 2 ≤ t ∧ 2 ^ (64 * k) ≤ r + m then
      r + m - 2 ^ (64 * k) else r := by
  unfold subtractTwice
  interval_cases t
  · rw [Nat.zero_mul, Nat.add_zero, if_neg (by omega : ¬(2 ≤ 0 ∧ _))]
    simp only [if_pos hr]
  · have hfirst : (r + 1 * m - m) % 2 ^ (64 * k) = r := by
      rw [Nat.one_mul, Nat.add_sub_cancel, Nat.mod_eq_of_lt (by omega)]
    rw [if_neg (by omega : ¬(2 ≤ 1 ∧ _))]
    simp only [if_neg (by omega : ¬r + 1 * m < m), hfirst, if_pos hr]
  · simp only [if_neg (by omega : ¬r + 2 * m < m), show r + 2 * m - m = r + m by omega,
      le_refl, true_and]
    by_cases hbig : 2 ^ (64 * k) ≤ r + m
    · rw [if_pos hbig, Nat.mod_eq_sub_mod hbig, Nat.mod_eq_of_lt (by omega), if_pos (by omega)]
    · rw [if_neg hbig, Nat.mod_eq_of_lt (by omega), if_neg (by omega), Nat.add_sub_cancel]

theorem not_dropped_of_lt {m x : ℕ} (h : x < m) : ¬Dropped m x := by
  rintro ⟨hlt, -⟩
  rw [Nat.div_eq_of_lt h, Nat.zero_sub, Nat.zero_mul] at hlt
  exact absurd hlt (Nat.not_lt_zero _)

/-- An operand of half of what twice the words hold never loses a word. -/
theorem not_dropped_of_le {m x : ℕ} (hm : isValidModulus m = true)
    (hx : 2 * x ≤ 2 ^ (64 * (2 * wordCount 64 m))) : ¬Dropped m x := by
  rintro ⟨hlt, hle⟩
  obtain ⟨k, hk, hgt, -⟩ := modulus_words hm
  rw [hk] at hx hlt hle
  have hB := Nat.two_pow_pos (64 * k)
  have hR := Nat.two_pow_pos (64 * (k + 2))
  have hBR : 2 ^ (64 * (2 * (k + 1))) = 2 ^ (64 * k) * 2 ^ (64 * (k + 2)) := by
    rw [← pow_add, show 64 * (2 * (k + 1)) = 64 * k + 64 * (k + 2) by ring]
  have hdouble : 2 ^ (64 * (k + 1)) = 2 ^ (64 * k) * 2 ^ 64 := by
    rw [← pow_add, show 64 * (k + 1) = 64 * k + 64 by ring]
  rw [Nat.add_sub_cancel, hBR, show 64 * (k + 1 + 1) = 64 * (k + 2) by ring] at hlt
  rw [hBR] at hx
  rw [hdouble] at hle
  generalize 2 ^ (64 * k) = B at *
  generalize 2 ^ (64 * (k + 2)) = R at *
  have hmod := Nat.mod_lt x (by omega : 0 < m)
  have hBm : 2 * B ≤ m := by omega
  have hq1 : 2 * (x / B) ≤ R := by
    have hdiv := Nat.div_mul_le_self x B
    refine Nat.le_of_mul_le_mul_right (?_ : 2 * (x / B) * B ≤ R * B) hB
    rw [Nat.mul_assoc, Nat.mul_comm R]
    omega
  have hcost : x / B * m + B * R ≤ m * R := by
    have h1 := Nat.mul_le_mul_right m hq1
    have h2 := Nat.mul_le_mul_right R hBm
    rw [Nat.mul_assoc, Nat.mul_comm R] at h1
    rw [Nat.mul_assoc] at h2
    omega
  have hquot := BarrettEstimate.lt_quotient_two_mul hB hR (by omega : 0 < m) hcost
  have hdiv := (Nat.div_lt_iff_lt_mul (by omega : 0 < m)).mpr hquot
  have htwo := (BarrettEstimate.two_le_sub_quotient hR).mpr hlt
  omega

/-- What the reduction computes: the remainder, or the remainder and the modulus without the word
that was lost. -/
theorem value_barrettReduce_eq {m : ℕ} (hm : isValidModulus m = true) {x : List Limb}
    (hx : x.length ≤ 2 * (limbs m).length) :
    (barrettReduce (limbs m) (barrettMu m) x).length = (limbs m).length ∧
      value (barrettReduce (limbs m) (barrettMu m) x) =
        if Dropped m (value x) then
          value x % m + m - 2 ^ (64 * wordCount 64 m) else value x % m := by
  obtain ⟨k, hk, hgt, hlt, -, -⟩ := modulus_words hm
  have hlen : (limbs m).length = k + 1 := (length_limbs m).trans hk
  rw [hlen] at hx ⊢
  have hB := Nat.two_pow_pos (64 * k)
  have hR := Nat.two_pow_pos (64 * (k + 2))
  have hxlt : value x < 2 ^ (64 * k) * 2 ^ (64 * (k + 2)) := by
    refine lt_of_lt_of_le (value_lt x) ?_
    rw [← pow_add]
    exact Nat.pow_le_pow_right (by norm_num) (by omega)
  obtain ⟨hreducelen, hreduce⟩ := value_barrettReduce hk hgt hlt hx
  obtain ⟨hle, htwo, hsub⟩ := BarrettEstimate.sub_quotient_mul hB hR hgt.le hxlt
  have hdropped : Dropped m (value x) ↔
      2 ≤ value x / m - BarrettEstimate.quotient (2 ^ (64 * k)) (2 ^ (64 * (k + 2))) m (value x) ∧
        2 ^ (64 * (k + 1)) ≤ value x % m + m := by
    rw [BarrettEstimate.two_le_sub_quotient hR, Dropped, hk, ← pow_add, Nat.add_sub_cancel,
      show 64 * (2 * (k + 1)) = 64 * k + 64 * (k + 2) by ring]
  refine ⟨hreducelen, ?_⟩
  rw [hreduce, hsub, subtractTwice_eq hlt (Nat.mod_lt _ (by omega)) (by omega), hk]
  exact if_congr hdropped.symm rfl rfl

/-- The reduction of at most twice the modulus' words: the remainder, or the remainder and the
modulus without the word that was lost. -/
theorem modBignum_spec {m : ℕ} (hm : isValidModulus m = true) {x : List Limb}
    (hx : x.length ≤ 2 * (limbs m).length) :
    ∃ r, modBignum m ⟨false, x⟩ = .ok r ∧ r.length ≤ (limbs m).length ∧
      value r = if Dropped m (value x) then
        value x % m + m - 2 ^ (64 * wordCount 64 m) else value x % m := by
  obtain ⟨k, hk, hgt, hlt, hmu, hmu'⟩ := modulus_words hm
  have hlen : (limbs m).length = k + 1 := (length_limbs m).trans hk
  have hmulen : (barrettMu m).length = k + 1 + 1 := by
    rw [barrettMu, length_limbs, hk]
    exact wordCount_eq hmu hmu'
  have hbound := (limbs_bound hm).2
  have hxlen := hx
  simp only [modBignum, Bool.not_false, cbAssert_true, ok_bind, hmulen, hlen, decide_true] at hx ⊢
  rw [decide_eq_true hx, cbAssert_true, ok_bind]
  by_cases hshort : x.length < k + 1
  · have hxm : value x < m := by
      refine lt_of_lt_of_le (value_lt x) (le_trans ?_ hgt.le)
      exact Nat.pow_le_pow_right (by norm_num) (by omega)
    rw [if_pos hshort, if_neg (not_dropped_of_lt hxm), Nat.mod_eq_of_lt hxm]
    exact ⟨x, rfl, hshort.le, rfl⟩
  · obtain ⟨hreducelen, hreduce⟩ := value_barrettReduce_eq hm hxlen
    rw [hlen] at hbound hreducelen
    rw [if_neg hshort, decide_eq_true hbound, cbAssert_true, ok_bind, decide_eq_true (by omega),
      cbAssert_true, ok_bind]
    exact ⟨_, rfl, hreducelen.le, hreduce⟩

/-- Losing a word makes the result wrong, and still less than the modulus. -/
theorem dropped_ne {m x : ℕ} (h : Dropped m x) :
    x % m + m - 2 ^ (64 * wordCount 64 m) < x % m := by
  have hlt := lt_two_pow_wordCount (by norm_num : 0 < 64) m
  have hle := h.2
  omega

theorem modBignum_exact_iff {m : ℕ} (hm : isValidModulus m = true) {x : List Limb}
    (hx : x.length ≤ 2 * (limbs m).length) :
    (∃ r, modBignum m ⟨false, x⟩ = .ok r ∧ value r = value x % m) ↔ ¬Dropped m (value x) := by
  obtain ⟨r, hr, -, hval⟩ := modBignum_spec hm hx
  constructor
  · rintro ⟨r', hr', hval'⟩ hd
    cases hr.symm.trans hr'
    rw [if_pos hd] at hval
    have := dropped_ne hd
    omega
  · intro hd
    rw [if_neg hd] at hval
    exact ⟨r, hr, hval⟩

/-- The square of a modulus within the bound is a modulus of at most twice the words. -/
theorem isValidModulus_square {m : ℕ} (hm : isValidModulus m = true)
    (hsize : (m * m).size ≤ maxModulusBits) :
    isValidModulus ((m * m : ℕ) : ℤ) = true ∧ (limbs (m * m)).length ≤ 2 * (limbs m).length := by
  obtain ⟨h1, -, hodd⟩ := (isValidModulus_iff m).mp hm
  refine ⟨(isValidModulus_iff _).mpr ⟨by nlinarith, hsize, by rw [Nat.mul_mod, hodd]⟩, ?_⟩
  have hlt := lt_two_pow_wordCount (by norm_num : 0 < 64) m
  rw [length_limbs, length_limbs]
  refine wordCount_le (by norm_num) ?_
  rw [show 64 * (2 * wordCount 64 m) = 64 * wordCount 64 m + 64 * wordCount 64 m by ring, pow_add]
  exact Nat.mul_lt_mul'' hlt hlt

/-- A reduction in which no stage loses a word is exact. -/
theorem modBnAux_of_undropped (fuel : ℕ) {m : ℕ} (hm : isValidModulus m = true) {x : List Limb}
    (h : Undropped fuel m x) :
    ∃ r, modBnAux fuel m ⟨false, x⟩ = .ok r ∧ r.length ≤ (limbs m).length ∧
    value r = value x % m := by
  induction fuel generalizing m with
  | zero => exact False.elim h
  | succ fuel ih =>
    unfold Undropped at h
    unfold modBnAux
    by_cases hx : x.length ≤ 2 * (limbs m).length
    · rw [if_pos hx] at h ⊢
      obtain ⟨r, hr, hlen, hval⟩ := modBignum_spec hm hx
      rw [if_neg h] at hval
      exact ⟨r, hr, hlen, hval⟩
    · rw [if_neg hx] at h ⊢
      obtain ⟨hsize, hsq, hd⟩ := h
      obtain ⟨hvalid, hwords⟩ := isValidModulus_square hm hsize
      obtain ⟨temp, htemp, htlen, htval⟩ := ih hvalid hsq
      obtain ⟨r, hr, hlen, hval⟩ := modBignum_spec hm (htlen.trans hwords)
      rw [htval, if_neg hd, Nat.mod_mul_right_mod] at hval
      refine ⟨r, ?_, hlen, hval⟩
      rw [decide_eq_true hsize, cbAssert_true, ok_bind, htemp, ok_bind, hr]

/-- A modulus that can lose a word is above half of what its words hold, so its square has twice the
words. -/
theorem wordCount_square {m k : ℕ} (hhalf : 2 ^ (64 * (k + 1)) < 2 * m)
    (hlt : m < 2 ^ (64 * (k + 1))) : wordCount 64 (m * m) = 2 * (k + 1) := by
  have hle : 2 ^ (64 * k + 63) ≤ m := by
    have hdouble := two_pow_words k
    omega
  have hlow : 2 ^ (64 * (2 * k + 1)) ≤ m * m := by
    refine le_trans ?_ (Nat.mul_le_mul hle hle)
    rw [← pow_add]
    exact Nat.pow_le_pow_right (by norm_num) (by omega)
  have hhigh : m * m < 2 ^ (64 * (2 * k + 1 + 1)) := by
    rw [show 64 * (2 * k + 1 + 1) = 64 * (k + 1) + 64 * (k + 1) by ring, pow_add]
    exact Nat.mul_lt_mul'' hlt hlt
  exact wordCount_eq hlow hhigh

/-- A lost word of the square cannot be made up for by losing another one. -/
theorem square_dropped_wrong {m x r : ℕ} (hm : isValidModulus m = true) (hd : Dropped (m * m) x)
    (hr : r = if Dropped m (x % (m * m) + m * m - 2 ^ (64 * wordCount 64 (m * m))) then
        (x % (m * m) + m * m - 2 ^ (64 * wordCount 64 (m * m))) % m + m - 2 ^ (64 * wordCount 64 m)
      else (x % (m * m) + m * m - 2 ^ (64 * wordCount 64 (m * m))) % m) : r ≠ x % m := by
  obtain ⟨h1, -, hodd⟩ := (isValidModulus_iff m).mp hm
  have hlt := lt_two_pow_wordCount (by norm_num : 0 < 64) m
  have hltSq := lt_two_pow_wordCount (by norm_num : 0 < 64) (m * m)
  have hunit : ∀ n, Nat.Coprime m (2 ^ n) := fun n =>
    (Nat.coprime_two_right.mpr (Nat.odd_iff.mpr hodd)).pow_right n
  have hleSq := hd.2
  rintro hrx
  rw [hrx] at hr
  obtain ⟨y, hy⟩ : ∃ y, x % (m * m) + m * m = y + 2 ^ (64 * wordCount 64 (m * m)) :=
    ⟨_, (Nat.sub_add_cancel hleSq).symm⟩
  rw [hy, Nat.add_sub_cancel] at hr
  have hyx : y + 2 ^ (64 * wordCount 64 (m * m)) ≡ x [MOD m] := by
    rw [← hy]
    exact ((Nat.modEq_of_dvd (by simp)).trans (Nat.ModEq.refl _) : _ ≡ x % (m * m) [MOD m]).trans
      ((Nat.mod_modEq x (m * m)).of_mul_right m)
  by_cases hdy : Dropped m y
  · rw [if_pos hdy] at hr
    obtain ⟨k, hk, -⟩ := modulus_words hm
    have hdy2 := hdy.2
    have hylt := Nat.mod_lt y (by omega : 0 < m)
    rw [hk] at hr hlt hdy2
    have hcount := wordCount_square (by omega) hlt
    have hB2 : 2 ^ (64 * wordCount 64 (m * m)) = 2 ^ (64 * (k + 1)) * 2 ^ (64 * (k + 1)) := by
      rw [hcount, show 64 * (2 * (k + 1)) = 64 * (k + 1) + 64 * (k + 1) by ring, pow_add]
    have hBeven := two_pow_words k
    -- Both lost words together would be a multiple of the modulus.
    have hxB : x + 2 ^ (64 * (k + 1)) ≡ y [MOD m] := by
      have hsum : x % m + 2 ^ (64 * (k + 1)) = y % m + m := by omega
      calc x + 2 ^ (64 * (k + 1)) ≡ x % m + 2 ^ (64 * (k + 1)) [MOD m] :=
        (Nat.mod_modEq x m).symm.add_right _
        _ = y % m + m := hsum
        _ ≡ y % m [MOD m] := Nat.add_mod_right _ _
        _ ≡ y [MOD m] := Nat.mod_modEq y m
    have hdvd : m ∣ 2 ^ (64 * (k + 1)) * (2 ^ (64 * (k + 1)) + 1) := by
      have hzero : y + (2 ^ (64 * wordCount 64 (m * m)) + 2 ^ (64 * (k + 1))) ≡ y + 0 [MOD m] := by
        rw [← Nat.add_assoc]
        exact (hyx.add_right _).trans hxB
      have := (Nat.modEq_zero_iff_dvd).mp hzero.add_left_cancel'
      rwa [hB2, ← Nat.mul_succ] at this
    obtain ⟨c, hc⟩ := (hunit (64 * (k + 1))).dvd_of_dvd_mul_left hdvd
    have hc2 : c = 2 := by
      have hle : c ≤ 2 := Nat.le_of_mul_le_mul_left (by omega : m * c ≤ m * 2) (by omega)
      interval_cases c <;> omega
    rw [hc2] at hc
    omega
  · rw [if_neg hdy] at hr
    -- The modulus would divide a power of two.
    have hdvd : m ∣ 2 ^ (64 * wordCount 64 (m * m)) := by
      have : y + 2 ^ (64 * wordCount 64 (m * m)) ≡ y + 0 [MOD m] := hyx.trans hr
      exact (Nat.modEq_zero_iff_dvd).mp this.add_left_cancel'
    have := Nat.Coprime.eq_one_of_dvd (hunit _) hdvd
    omega

/-- What is asked of `_mod`: the result is the remainder. -/
def ReducesTo (m : ℕ) (x : List Limb) : Prop :=
  ∃ r, modBn m ⟨false, x⟩ = .ok r ∧ value r = value x % m

/-- What is asked of `_mul`. -/
def MultipliesTo (m : ℕ) (a b : List Limb) : Prop :=
  ∃ r, mulWords m a b = .ok r ∧ value r = value a * value b % m

/-- Up to twice the words of the square, and where the square is no modulus, losing no word is
needed as well. -/
theorem reducesTo_iff {m : ℕ} (hm : isValidModulus m = true) {x : List Limb}
    (hx : x.length ≤ 2 * (limbs (m * m)).length ∨ maxModulusBits < (m * m).size) :
    ReducesTo m x ↔ Undropped 14 m x := by
  constructor
  · rintro ⟨r, hr, hval⟩
    unfold modBn modBnAux at hr
    unfold Undropped
    by_cases hshort : x.length ≤ 2 * (limbs m).length
    · rw [if_pos hshort] at hr ⊢
      exact (modBignum_exact_iff hm hshort).mp ⟨r, hr, hval⟩
    · rw [if_neg hshort] at hr ⊢
      obtain ⟨hsize, hr⟩ := cbAssert_bind_ok_iff.mp hr
      have hsize := of_decide_eq_true hsize
      have hx := hx.resolve_right (by omega)
      obtain ⟨hvalid, hwords⟩ := isValidModulus_square hm hsize
      obtain ⟨temp, htemp, htlen, htval⟩ := modBignum_spec hvalid hx
      unfold modBnAux at hr
      rw [if_pos hx, htemp, ok_bind] at hr
      obtain ⟨r', hr', -, hval'⟩ := modBignum_spec hm (htlen.trans hwords)
      cases hr.symm.trans hr'
      unfold Undropped
      rw [if_pos hx]
      have hd : ¬Dropped (m * m) (value x) := by
        intro hd
        rw [if_pos hd] at htval
        rw [htval] at hval'
        exact square_dropped_wrong hm hd hval' hval
      rw [if_neg hd] at htval
      rw [htval] at hval'
      refine ⟨hsize, hd, fun hd' => ?_⟩
      rw [if_pos hd', Nat.mod_mul_right_mod] at hval'
      have := dropped_ne hd'
      rw [Nat.mod_mul_right_mod] at this
      omega
  · intro h
    obtain ⟨r, hr, -, hval⟩ := modBnAux_of_undropped 14 hm h
    exact ⟨r, hr, hval⟩

theorem reducesTo_iff_of_short {m : ℕ} (hm : isValidModulus m = true) {x : List Limb}
    (hx : x.length ≤ 2 * (limbs m).length) :
    ReducesTo m x ↔ ¬Dropped m (value x) := by
  have h := modBignum_exact_iff hm hx
  unfold ReducesTo modBn modBnAux
  rwa [if_pos hx]

theorem multipliesTo_iff {m : ℕ} (hm : isValidModulus m = true) {a b : List Limb}
    (ha : value a < m) (hb : value b < m) (halen : a.length ≤ (limbs m).length)
    (hblen : b.length ≤ (limbs m).length) :
    MultipliesTo m a b ↔ ¬Dropped m (value a * value b) := by
  have hbound := (limbs_bound hm).2
  have hproduct : (bnMulNormal a b).length ≤ 2 * (limbs m).length := by
    rw [bnMulNormal, length_ofNat]
    omega
  unfold MultipliesTo mulWords
  rw [decide_eq_true ha, decide_eq_true hb, cbAssert_true, ok_bind, ok_bind]
  by_cases hzero : (a.isEmpty || b.isEmpty) = true
  · have hval : value a * value b = 0 := by
      rcases Bool.or_eq_true _ _ ▸ hzero with h | h
      · rw [List.isEmpty_iff.mp h, value_nil, zero_mul]
      · rw [List.isEmpty_iff.mp h, value_nil, mul_zero]
    rw [if_pos hzero, hval]
    exact iff_of_true ⟨[], rfl, by simp⟩ (not_dropped_of_lt (by omega))
  · rw [if_neg hzero, decide_eq_true (by omega), cbAssert_true, ok_bind]
    have h := modBignum_exact_iff hm hproduct
    rwa [value_bnMulNormal] at h

/-- `_mod` and `_mul` are exact where no stage loses a word. For operands of at most twice the words
of the square that is needed, and for longer ones it is enough. -/
theorem barrett_iff (m : ℕ) (hm : isValidModulus m = true) :
    (∀ x : List Limb, x.length ≤ 2 * (limbs m).length → (ReducesTo m x ↔ ¬Dropped m (value x))) ∧
    (∀ x : List Limb, x.length ≤ 2 * (limbs (m * m)).length ∨ maxModulusBits < (m * m).size →
      (ReducesTo m x ↔ Undropped 14 m x)) ∧
    (∀ x : List Limb, Undropped 14 m x → ReducesTo m x) ∧
    (∀ a b : List Limb, value a < m → value b < m → a.length ≤ (limbs m).length →
      b.length ≤ (limbs m).length →
      (MultipliesTo m a b ↔ ¬Dropped m (value a * value b))) := by
  refine ⟨fun x hx => reducesTo_iff_of_short hm hx, fun x hx => reducesTo_iff hm hx, fun x h => ?_,
    fun a b ha hb halen hblen => multipliesTo_iff hm ha hb halen hblen⟩
  obtain ⟨r, hr, -, hval⟩ := modBnAux_of_undropped 14 hm h
  exact ⟨r, hr, hval⟩

theorem barrett_iff_three :
    isValidModulus (3 : ℕ) = true ∧ (∀ x : List Limb, Undropped 14 3 x → ReducesTo 3 x) :=
  ⟨by decide, (barrett_iff 3 (by decide)).2.2.1⟩

/-- A modulus of four full words and two reduced factors whose product loses a word. -/
def droppingModulus : ℕ := 2 ^ 256 - 2 ^ 128 + 1

theorem droppingModulus_valid : isValidModulus droppingModulus = true := by
  refine (isValidModulus_iff _).mpr ⟨by decide, ?_, by decide⟩
  exact le_trans (Nat.size_le.mpr (by decide : droppingModulus < 2 ^ 256)) (by decide)

theorem product_loses_word : isValidModulus droppingModulus = true ∧
    ¬MultipliesTo droppingModulus (limbs (droppingModulus - 1))
      (limbs (droppingModulus - 2 ^ 170)) ∧
    ¬ReducesTo droppingModulus (limbs ((droppingModulus - 1) * (droppingModulus - 2 ^ 170))) := by
  have hd : Dropped droppingModulus ((droppingModulus - 1) * (droppingModulus - 2 ^ 170)) := by
    decide +kernel
  refine ⟨droppingModulus_valid, fun h => ?_, fun h => ?_⟩
  · refine (multipliesTo_iff droppingModulus_valid ?_ ?_ ?_ ?_).mp h ?_ <;> simp only [value_limbs,
      length_limbs]
    all_goals first | exact hd | decide +kernel
  · have hlen : (limbs ((droppingModulus - 1) * (droppingModulus - 2 ^ 170))).length ≤
        2 * (limbs droppingModulus).length := by
      rw [length_limbs, length_limbs]
      decide +kernel
    refine (reducesTo_iff_of_short droppingModulus_valid hlen).mp h ?_
    rwa [value_limbs]

end CbMpc
