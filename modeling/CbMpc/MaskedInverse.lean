import CbMpc.Bytes
import CbMpc.Curve

/-!
# Inverses under random masks

Outside of a `vartime_scope_t`, `mod_t::inv` multiplies its operand with values of `mod_t::rand`.
These are Montgomery's reductions of random strings that are longer than the modulus by
`SEC_P_COM` bits, and they are residues when the modulus has three words or more.
-/
namespace CbMpc

/-- The multiple of `m` that clears the low digit of `a` in base `R`. -/
def montgomeryDigit (R m a : ℤ) : ℤ := -(a * Int.gcdA m R) % R

/-- `BN_from_montgomery`: the low `2k` words of the operand are reduced, and at most one modulus is
subtracted. -/
def fromMontgomery (m : ℕ) (a : ℤ) : ℤ :=
  let R : ℤ := 2 ^ (64 * bnTop m)
  let low := a % (R * R)
  let t := (low + montgomeryDigit R m low * m) / R
  if t < m then t else t - m

/-- What `gen_random` yields to `mod_t::rand`, as a number. -/
abbrev RandDraw (m : ℕ) : Type := Fin (2 ^ (8 * bitsToBytes (m.size + secPCom)))

/-- `mod_t::rand` outside a `vartime_scope_t`. -/
def modRand (m : ℕ) (bin : RandDraw m) : ℤ := fromMontgomery m (bin.val : ℕ)

/-- The loop of `random_masking_inv` over the masks that it draws. -/
def randomMaskingLoop (m : ℕ) (a : ℤ) : List ℤ → Outcome ℤ
  | [] => throwing .assertionFailed
  | mask :: masks =>
    if mask = 0 then randomMaskingLoop m a masks
    else do
      let maskedA ← modMul false m a mask
      if Int.gcd maskedA m = 1 then do
        let r ← modInv m maskedA
        modMul false m r mask
      else randomMaskingLoop m a masks

/-- `max_attempts`. -/
def maxAttempts : ℕ := 128

/-- `mod_t::random_masking_inv` on the strings that it draws. -/
def randomMaskingInv (m : ℕ) (a : ℤ) (bins : Fin maxAttempts → RandDraw m) : Outcome ℤ :=
  randomMaskingLoop m a (List.ofFn fun i => modRand m (bins i))

/-- `mod_t::inv` outside a `vartime_scope_t` for any odd modulus. A shorter one than this may draw
masks that are not below it, which the product with the operand asserts. -/
def modInvMasked (m : ℕ) (a : ℤ) : Outcome ℤ := do
  cbAssert (decide (3 ≤ bnTop m))
  modInvCt m a

/-- `mod_t::coprime` on the strings that its inversion draws: a failed inversion is caught. -/
def coprimeMasked (m : ℕ) (a : ℤ) (bins : Fin maxAttempts → RandDraw m) : Outcome Bool := do
  let aMod ← modReduce m a
  let inverted := do
    let aInv ← randomMaskingInv m aMod bins
    modMul false m aInv aMod
  match inverted with
  | .ok v => .ok (decide (v = 1))
  | .error _ => .ok false

/-- `mod_t::coprime`: outside a `vartime_scope_t` the operand is reduced and inverted. -/
def coprime (vartime : Bool) (a : ℤ) (m : ℕ) : Outcome Bool :=
  if vartime then .ok (decide (Int.gcd a m = 1))
  else do
    let aMod ← modReduce m a
    .ok (decide (3 ≤ bnTop m ∧ Int.gcd aMod m = 1))

section Montgomery

variable {R m : ℤ}

theorem montgomeryDigit_nonneg_lt (hR : 0 < R) (a : ℤ) :
    0 ≤ montgomeryDigit R m a ∧ montgomeryDigit R m a < R :=
  ⟨Int.emod_nonneg _ hR.ne', Int.emod_lt_of_pos _ hR⟩

/-- The sum that `fromMontgomery` divides has no rest. -/
theorem dvd_add_montgomeryDigit (hcop : Int.gcd m R = 1) (a : ℤ) :
    R ∣ a + montgomeryDigit R m a * m := by
  have hbez := Int.gcd_eq_gcd_ab m R
  have hdiv := Int.emod_add_mul_ediv (-(a * Int.gcdA m R)) R
  rw [hcop, Nat.cast_one] at hbez
  refine ⟨a * Int.gcdB m R - -(a * Int.gcdA m R) / R * m, ?_⟩
  rw [montgomeryDigit]
  linear_combination a * hbez + m * hdiv

end Montgomery

theorem modInv_modEq {m : ℕ} {a : ℤ} (hcop : Int.gcd a m = 1) :
    ∃ v, modInv m a = .ok v ∧ a * v ≡ 1 [ZMOD m] := by
  refine ⟨_, by rw [modInv, if_pos hcop], ?_⟩
  have h := Int.gcd_eq_gcd_ab a m
  rw [hcop] at h
  rw [Int.modEq_iff_dvd]
  refine ⟨Int.gcdB a m + a * (Int.gcdA a m / m), ?_⟩
  have hdiv := Int.emod_add_mul_ediv (Int.gcdA a m) m
  push_cast at h
  linear_combination h - a * hdiv

theorem modInv_of_gcd {m : ℕ} (hm : 0 < m) {a : ℤ} (hcop : Int.gcd a m = 1) :
    ∃ v, modInv m a = .ok v ∧ isInRange m v = true ∧ (a : ZMod m) * v = 1 := by
  obtain ⟨v, hv, hmod⟩ := modInv_modEq hcop
  have hcast := (ZMod.intCast_eq_intCast_iff _ _ _).mpr hmod
  rw [Int.cast_mul, Int.cast_one] at hcast
  refine ⟨v, hv, ?_, hcast⟩
  rw [modInv, if_pos hcop] at hv
  rw [← Except.ok.inj hv]
  exact isInRange_emod hm _

/-- A number has three words from `2 ^ 128` on. -/
theorem three_le_bnTop_iff {m : ℕ} : 3 ≤ bnTop m ↔ 2 ^ 128 ≤ m := by
  rw [← Nat.lt_size, bnTop, Int.natAbs_natCast]
  omega

theorem lt_two_pow_bnTop (m : ℕ) : m < 2 ^ (64 * bnTop m) := by
  refine lt_of_lt_of_le (Nat.lt_size_self m) (Nat.pow_le_pow_right (by norm_num) ?_)
  rw [bnTop, Int.natAbs_natCast]
  omega

variable {m : ℕ}

theorem gcd_two_pow_of_odd (hodd : m % 2 = 1) (k : ℕ) : Int.gcd m (2 ^ k) = 1 := by
  have hcop : Nat.Coprime m (2 ^ k) :=
    Nat.Coprime.pow_right k (Nat.coprime_two_right.mpr (Nat.odd_iff.mpr hodd))
  rw [show (2 : ℤ) ^ k = ((2 ^ k : ℕ) : ℤ) by push_cast; rfl, Int.gcd_natCast_natCast]
  exact hcop

/-- Below `m * R` the reduction is exact: it leaves a residue that `R` takes back to the operand. -/
theorem fromMontgomery_spec (hodd : m % 2 = 1) {a : ℤ} (h0 : 0 ≤ a)
    (ha : a < m * 2 ^ (64 * bnTop m)) :
    isInRange m (fromMontgomery m a) = true ∧
    (m : ℤ) ∣ 2 ^ (64 * bnTop m) * fromMontgomery m a - a := by
  have hR : (0 : ℤ) < 2 ^ (64 * bnTop m) := by positivity
  have hmR : (m : ℤ) < 2 ^ (64 * bnTop m) := by exact_mod_cast lt_two_pow_bnTop m
  have hdvd := dvd_add_montgomeryDigit (gcd_two_pow_of_odd hodd (64 * bnTop m)) a
  obtain ⟨hd0, hdR⟩ := montgomeryDigit_nonneg_lt (m := (m : ℤ)) hR a
  rw [fromMontgomery]
  generalize (2 : ℤ) ^ (64 * bnTop m) = R at *
  have hlow : a % (R * R) = a := Int.emod_eq_of_lt h0 (lt_trans ha (mul_lt_mul_of_pos_right hmR hR))
  simp only [hlow]
  generalize montgomeryDigit R m a = u at *
  obtain ⟨t, ht⟩ := hdvd
  have hm0 : (0 : ℤ) < m := by omega
  rw [ht, Int.mul_ediv_cancel_left t hR.ne']
  have hum : u * m < R * m := mul_lt_mul_of_pos_right hdR hm0
  have hum0 : 0 ≤ u * m := mul_nonneg hd0 hm0.le
  have ht0 : 0 ≤ t := by
    by_contra h
    have := mul_neg_of_pos_of_neg hR (not_le.mp h)
    omega
  have ht2 : t < 2 * m := by
    refine lt_of_mul_lt_mul_left ?_ hR.le
    calc R * t = a + u * m := ht.symm
      _ < m * R + R * m := add_lt_add ha hum
      _ = R * (2 * m) := by ring
  split
  · exact ⟨(isInRange_iff _).mpr ⟨ht0, by assumption⟩, u, by linear_combination -ht⟩
  · exact ⟨(isInRange_iff _).mpr ⟨by omega, by omega⟩, u - R, by linear_combination -ht⟩

/-- The strings that are drawn for a modulus of three words are below the bound of the reduction. -/
theorem randDraw_lt (h3 : 3 ≤ bnTop m) (bin : RandDraw m) :
    ((bin.val : ℕ) : ℤ) < m * 2 ^ (64 * bnTop m) := by
  have hsize : 3 ≤ (m.size + 63) / 64 := h3
  have hm : 2 ^ (m.size - 1) ≤ m := Nat.lt_size.mp (by omega)
  have hlt : bin.val < m * 2 ^ (64 * bnTop m) :=
    calc bin.val < 2 ^ (8 * bitsToBytes (m.size + secPCom)) := bin.isLt
      _ ≤ 2 ^ (m.size - 1 + 64 * bnTop m) := by
        refine Nat.pow_le_pow_right (by norm_num) ?_
        rw [bitsToBytes, secPCom, bnTop, Int.natAbs_natCast]
        omega
      _ = 2 ^ (m.size - 1) * 2 ^ (64 * bnTop m) := pow_add 2 _ _
      _ ≤ m * 2 ^ (64 * bnTop m) := Nat.mul_le_mul_right _ hm
  exact_mod_cast hlt

theorem isInRange_modRand (hodd : m % 2 = 1) (h3 : 3 ≤ bnTop m) (bin : RandDraw m) :
    isInRange m (modRand m bin) = true :=
  (fromMontgomery_spec hodd (Int.natCast_nonneg _) (randDraw_lt h3 bin)).1

/-- A mask can be inverted exactly when the string can from which it was made. -/
theorem gcd_modRand (hodd : m % 2 = 1) (h3 : 3 ≤ bnTop m) (bin : RandDraw m) :
    Int.gcd (modRand m bin) m = 1 ↔ Nat.Coprime bin.val m := by
  obtain ⟨-, k, hk⟩ := fromMontgomery_spec hodd (Int.natCast_nonneg bin.val) (randDraw_lt h3 bin)
  have hval : ((bin.val : ℕ) : ℤ) = 2 ^ (64 * bnTop m) * modRand m bin + m * -k := by
    rw [modRand]
    linear_combination -hk
  have hpow := gcd_two_pow_of_odd hodd (64 * bnTop m)
  rw [Int.gcd_comm, ← Int.isCoprime_iff_gcd_eq_one] at hpow
  rw [← Nat.isCoprime_iff_coprime, ← Int.isCoprime_iff_gcd_eq_one, hval,
    IsCoprime.add_mul_left_left_iff, IsCoprime.mul_left_iff]
  exact ⟨fun h => ⟨hpow, h⟩, And.right⟩

/-- The largest digit is added to an operand that ends in the modulus, and the high words are the
result. -/
theorem fromMontgomery_add (hodd : m % 2 = 1) {high : ℤ} (h0 : 0 ≤ high)
    (hlt : high * 2 ^ (64 * bnTop m) + m < 2 ^ (64 * bnTop m) * 2 ^ (64 * bnTop m)) :
    fromMontgomery m (high * 2 ^ (64 * bnTop m) + m) = high := by
  have hmR : (m : ℤ) < 2 ^ (64 * bnTop m) := by exact_mod_cast lt_two_pow_bnTop m
  have hbez := Int.gcd_eq_gcd_ab m (2 ^ (64 * bnTop m))
  rw [gcd_two_pow_of_odd hodd, Nat.cast_one] at hbez
  rw [fromMontgomery]
  generalize (2 : ℤ) ^ (64 * bnTop m) = R at *
  have hdigit : montgomeryDigit R m (high * R + m) = R - 1 := by
    have hsum : -((high * R + m) * Int.gcdA m R) =
        R - 1 + R * (Int.gcdB m R - 1 - high * Int.gcdA m R) := by
      linear_combination hbez
    rw [montgomeryDigit, hsum, Int.add_mul_emod_self_left, Int.emod_eq_of_lt (by omega) (by omega)]
  rw [Int.emod_eq_of_lt (by nlinarith) hlt, hdigit,
    show high * R + m + (R - 1) * m =
      R * (high + m) by
    ring, Int.mul_ediv_cancel_left _ (by omega), if_neg (by omega), add_sub_cancel_right]

/-- A shorter modulus has a draw whose reduction is not below it. -/
theorem exists_modRand_ge (hodd : m % 2 = 1) (hm : m < 2 ^ 128) :
    ∃ bin : RandDraw m, isInRange m (modRand m bin) = false := by
  have hsize : m.size ≤ 128 := Nat.size_le.mpr hm
  have hpos : 0 < 2 ^ m.size := Nat.two_pow_pos _
  have hmsize := Nat.lt_size_self m
  have hmR := lt_two_pow_bnTop m
  have htop : 64 * bnTop m ≤ 128 ∧ m.size ≤ 64 * bnTop m := by
    rw [bnTop, Int.natAbs_natCast]
    omega
  have hlow : (2 ^ m.size - 1) * 2 ^ (64 * bnTop m) + m < 2 ^ m.size * 2 ^ (64 * bnTop m) := by
    rw [Nat.sub_mul, one_mul]
    have := Nat.mul_le_mul_right (2 ^ (64 * bnTop m)) hpos
    omega
  have hdraw : (2 ^ m.size - 1) * 2 ^ (64 * bnTop m) + m <
      2 ^ (8 * bitsToBytes (m.size + secPCom)) := by
    refine lt_of_lt_of_le hlow ?_
    rw [← pow_add]
    refine Nat.pow_le_pow_right (by norm_num) ?_
    rw [bitsToBytes, secPCom]
    omega
  have hsquare : ((2 ^ m.size - 1 : ℕ) : ℤ) * 2 ^ (64 * bnTop m) + m < 2 ^ (64 * bnTop m) *
      2 ^ (64 * bnTop m) := by
    exact_mod_cast lt_of_lt_of_le hlow
      (Nat.mul_le_mul_right _ (Nat.pow_le_pow_right (by norm_num) htop.2))
  refine ⟨⟨_, hdraw⟩, ?_⟩
  have hrand := fromMontgomery_add hodd (Int.natCast_nonneg (2 ^ m.size - 1)) hsquare
  rw [modRand, show (((2 ^ m.size - 1) * 2 ^ (64 * bnTop m) + m : ℕ) : ℤ) =
    ((2 ^ m.size - 1 : ℕ) : ℤ) * 2 ^ (64 * bnTop m) +
      m by push_cast; rfl, hrand, Bool.eq_false_iff, ne_eq, isInRange_iff]
  omega

section Masks

variable {a : ℤ} {masks : List ℤ}

/-- No mask makes an operand invertible that is not. -/
theorem randomMaskingLoop_of_gcd_ne (ha : isInRange m a = true) (hcop : Int.gcd a m ≠ 1)
    (hrange : ∀ r ∈ masks, isInRange m r = true) :
    randomMaskingLoop m a masks = throwing .assertionFailed := by
  induction masks with
  | nil => rfl
  | cons mask masks ih =>
    have hrest := ih fun r hr => hrange r (List.mem_cons_of_mem _ hr)
    have hgcd : Int.gcd (a * mask % m) m ≠ 1 := by
      rw [Int.gcd_emod, ne_eq, ← Int.isCoprime_iff_gcd_eq_one, IsCoprime.mul_left_iff,
        Int.isCoprime_iff_gcd_eq_one]
      exact fun h => hcop h.1
    rw [randomMaskingLoop, modMul, modOp_eq_emod _ _ ha (hrange mask List.mem_cons_self), ok_bind,
      if_neg hgcd, hrest, ite_self]

/-- The first mask that is not zero checks the operand. -/
theorem randomMaskingLoop_of_not_isInRange (ha : isInRange m a = false) :
    randomMaskingLoop m a masks = throwing .assertionFailed := by
  induction masks with
  | nil => rfl
  | cons mask masks ih =>
    rw [randomMaskingLoop, ih, modMul, modOp, if_neg Bool.false_ne_true, check, ha]
    exact ite_self _

/-- A mask that can be inverted cancels. -/
theorem randomMaskingLoop_of_gcd (h1 : 1 < m) (ha : isInRange m a = true) (hcop : Int.gcd a m = 1)
    (hrange : ∀ r ∈ masks, isInRange m r = true) (hunit : ∃ r ∈ masks, Int.gcd r m = 1) :
    randomMaskingLoop m a masks = modInv m a := by
  have hm : 0 < m := by omega
  induction masks with
  | nil =>
    obtain ⟨r, hr, -⟩ := hunit
    exact absurd hr List.not_mem_nil
  | cons mask masks ih =>
    have hmask := hrange mask List.mem_cons_self
    have hrest : Int.gcd mask m ≠ 1 → randomMaskingLoop m a masks = modInv m a := by
      intro hne
      refine ih (fun r hr => hrange r (List.mem_cons_of_mem _ hr)) ?_
      obtain ⟨r, hr, hone⟩ := hunit
      rcases List.mem_cons.mp hr with rfl | hr
      · exact absurd hone hne
      · exact ⟨r, hr, hone⟩
    rw [randomMaskingLoop]
    by_cases hzero : mask = 0
    · rw [if_pos hzero]
      refine hrest ?_
      rw [hzero, Int.gcd_zero_left, Int.natAbs_natCast]
      omega
    · rw [if_neg hzero, modMul, modOp_eq_emod _ _ ha hmask, ok_bind]
      by_cases hgcd : Int.gcd (a * mask % m) m = 1
      · obtain ⟨r, hr, hrR, hrone⟩ := modInv_of_gcd hm hgcd
        obtain ⟨v, hv, hvR, hvone⟩ := modInv_of_gcd hm hcop
        rw [if_pos hgcd, hr, ok_bind, modMul, modOp_eq_emod _ _ hrR hmask, hv]
        refine congrArg Except.ok (eq_of_isInRange (isInRange_emod hm _) hvR ?_)
        rw [cast_emod, Int.cast_mul] at hrone ⊢
        linear_combination v * hrone - (r : ZMod m) * mask * hvone
      · rw [if_neg hgcd]
        refine hrest fun hone => hgcd ?_
        rw [Int.gcd_emod, ← Int.isCoprime_iff_gcd_eq_one]
        exact (Int.isCoprime_iff_gcd_eq_one.mpr hcop).mul_left
          (Int.isCoprime_iff_gcd_eq_one.mpr hone)

/-- A mask that is not below the modulus stops the inversion. -/
theorem randomMaskingLoop_of_masks_ge (hm : 0 < m) (hout : ∀ r ∈ masks, isInRange m r = false) :
    randomMaskingLoop m a masks = throwing .assertionFailed := by
  cases masks with
  | nil => rfl
  | cons mask masks =>
    have hmask := hout mask List.mem_cons_self
    have hne : mask ≠ 0 := by
      rintro rfl
      rw [Bool.eq_false_iff, ne_eq, isInRange_iff] at hmask
      omega
    rw [randomMaskingLoop, if_neg hne, modMul, modOp, if_neg Bool.false_ne_true, check,
      check, hmask]
    cases isInRange m a <;> rfl

end Masks

/-- Every modulus below three words has draws on which no operand can be inverted. -/
theorem exists_randomMaskingInv_throws (hodd : m % 2 = 1) (hm : m < 2 ^ 128) :
    ∃ bins : Fin maxAttempts → RandDraw m, ∀ a,
      randomMaskingInv m a bins = throwing .assertionFailed := by
  obtain ⟨bin, hbin⟩ := exists_modRand_ge hodd hm
  refine ⟨fun _ => bin, fun a => randomMaskingLoop_of_masks_ge (by omega) fun r hr => ?_⟩
  obtain ⟨-, rfl⟩ := List.mem_ofFn.mp hr
  exact hbin

/-- The masked inversion is the exact one on every operand, once a string is drawn that can be
inverted. -/
theorem randomMaskingInv_eq (hodd : m % 2 = 1) (h3 : 3 ≤ bnTop m) (a : ℤ)
    {bins : Fin maxAttempts → RandDraw m} (hunit : ∃ i, Nat.Coprime (bins i).val m) :
    randomMaskingInv m a bins = modInvMasked m a := by
  have h1 : 1 < m := lt_of_lt_of_le (by norm_num) (three_le_bnTop_iff.mp h3)
  have hrange : ∀ r ∈ List.ofFn fun i => modRand m (bins i), isInRange m r = true := by
    intro r hr
    obtain ⟨i, rfl⟩ := List.mem_ofFn.mp hr
    exact isInRange_modRand hodd h3 _
  obtain ⟨i, hi⟩ := hunit
  rw [modInvMasked, decide_eq_true h3, cbAssert_true, ok_bind, modInvCt, check, randomMaskingInv]
  cases ha : isInRange m a with
  | false => exact randomMaskingLoop_of_not_isInRange ha
  | true =>
    rw [cbAssert_true, ok_bind]
    by_cases hcop : Int.gcd a m = 1
    · exact randomMaskingLoop_of_gcd h1 ha hcop hrange ⟨_, List.mem_ofFn.mpr ⟨i, rfl⟩,
        (gcd_modRand hodd h3 _).mpr hi⟩
    · rw [randomMaskingLoop_of_gcd_ne ha hcop hrange, modInv, if_neg hcop]

theorem modInvMasked_of_gcd (h3 : 3 ≤ bnTop m) {a : ℤ} (ha : isInRange m a = true)
    (hcop : Int.gcd a m = 1) :
    ∃ v, modInvMasked m a = .ok v ∧ isInRange m v = true ∧ (a : ZMod m) * v = 1 := by
  have hm : 0 < m := lt_of_lt_of_le (by norm_num) (three_le_bnTop_iff.mp h3)
  rw [modInvMasked, decide_eq_true h3, cbAssert_true, ok_bind]
  exact modInvCt_of_gcd hm ha hcop

/-- The test by an inversion that may fail is the exact one. -/
theorem coprimeMasked_eq (hodd : m % 2 = 1) (h3 : 3 ≤ bnTop m) (a : ℤ)
    {bins : Fin maxAttempts → RandDraw m} (hunit : ∃ i, Nat.Coprime (bins i).val m) :
    coprimeMasked m a bins = coprime false a m := by
  have h1 : 1 < m := lt_of_lt_of_le (by norm_num) (three_le_bnTop_iff.mp h3)
  rw [coprimeMasked, coprime, if_neg Bool.false_ne_true]
  cases hmod : modReduce m a with
  | error e => rfl
  | ok aMod =>
    have ha : isInRange m aMod = true := modReduce_ok hmod ▸ isInRange_emod (by omega) a
    rw [ok_bind, ok_bind, randomMaskingInv_eq hodd h3 aMod hunit]
    by_cases hcop : Int.gcd aMod m = 1
    · obtain ⟨v, hv, hvR, hone⟩ := modInvMasked_of_gcd h3 ha hcop
      have hprod : v * aMod % m = 1 := by
        refine eq_of_isInRange (isInRange_emod (by omega) _)
          ((isInRange_iff _).mpr ⟨by omega, by omega⟩) ?_
        rw [cast_emod, Int.cast_mul, mul_comm, hone, Int.cast_one]
      simp only [hv, ok_bind, modMul, modOp_eq_emod _ _ hvR ha, hprod, h3, hcop, and_self,
        decide_true]
    · simp only [modInvMasked, h3, decide_true, cbAssert_true, ok_bind, modInvCt, check, ha,
        modInv, hcop, and_false, decide_false]
      rfl

/-- A test that passes says the same in both scopes. -/
theorem gcd_of_coprime {vartime : Bool} {a : ℤ} (h : coprime vartime a m = .ok true) :
    Int.gcd a m = 1 := by
  cases vartime with
  | true => exact of_decide_eq_true (Except.ok.inj h)
  | false =>
    obtain ⟨aMod, ha, h⟩ := bind_ok_iff.mp h
    have hgcd := (of_decide_eq_true (Except.ok.inj h)).2
    rwa [modReduce_ok ha, Int.gcd_emod] at hgcd

/-- Strings that all spell the number one, which every modulus inverts. -/
def sampleDraws (m : ℕ) : Fin maxAttempts → RandDraw m := fun _ =>
  ⟨1, Nat.one_lt_two_pow (by rw [bitsToBytes, secPCom]; omega)⟩

theorem exists_coprime_sampleDraws (m : ℕ) : ∃ i, Nat.Coprime (sampleDraws m i).val m :=
  ⟨⟨0, by decide⟩, Nat.coprime_one_left m⟩

end CbMpc
