import CbMpc.WordArray

/-!
# Products and Montgomery reductions over machine words

A multiply-add of single words fits into two words, so a row of them is exact with a last carry.
Rows stacked one word further up give the product of two arrays, and rows whose lowest word is
cancelled by a multiple of the modulus give Montgomery's reduction.
-/
namespace WordArray

variable {w : ℕ}

/-- A product in twice the width. -/
def wideMul (u v : BitVec w) : BitVec (2 * w) := u.setWidth (2 * w) * v.setWidth (2 * w)

/-- Two words added to a double word: the low and the high word of the sum. -/
def addWide (t : BitVec (2 * w)) (r h : BitVec w) : BitVec w × BitVec w :=
  let s := t + r.setWidth (2 * w) + h.setWidth (2 * w)
  (s.setWidth w, (s >>> w).setWidth w)

/-- A product of two words with two words added to it. -/
def mac (u v r h : BitVec w) : BitVec w × BitVec w := addWide (wideMul u v) r h

/-- A row of multiply-adds over two arrays of one length, with the carry out of it. -/
def mulAddRow (v : BitVec w) :
    List (BitVec w) → List (BitVec w) → BitVec w → List (BitVec w) × BitVec w
  | u :: us, r :: rs, h =>
    ((mac u v r h).1 :: (mulAddRow v us rs (mac u v r h).2).1,
      (mulAddRow v us rs (mac u v r h).2).2)
  | _, _, h => ([], h)

/-- The rows of a product, where the lowest word of each row is done. -/
def mulSchool (us : List (BitVec w)) : List (BitVec w) → List (BitVec w) → List (BitVec w)
  | [], acc => acc
  | v :: vs, acc =>
    (mulAddRow v us acc 0#w).1.headD 0#w ::
      mulSchool us vs ((mulAddRow v us acc 0#w).1.tail ++ [(mulAddRow v us acc 0#w).2])

/-- The first array where the flag is set, and the second one elsewhere. -/
def blend (flag : Bool) (xs ys : List (BitVec w)) : List (BitVec w) :=
  List.zipWith (fun x y => y ^^^ ((x ^^^ y) &&& mask w flag)) xs ys

theorem blend_eq {xs ys : List (BitVec w)} (hlen : xs.length = ys.length) (flag : Bool) :
    blend flag xs ys = if flag then xs else ys := by
  have h := swapped_eq hlen flag
  cases flag
  · exact congrArg Prod.snd h
  · exact congrArg Prod.snd h

theorem toNat_setWidth_two_mul (x : BitVec w) : (x.setWidth (2 * w)).toNat = x.toNat := by
  have hlt := x.isLt
  have hpow : 2 ^ w ≤ 2 ^ (2 * w) := Nat.pow_le_pow_right two_pos (by omega)
  rw [BitVec.toNat_setWidth, Nat.mod_eq_of_lt (by omega)]

/-- The double word holds the whole sum. -/
theorem mac_lt (u v r h : BitVec w) : u.toNat * v.toNat + r.toNat + h.toNat < 2 ^ (2 * w) := by
  have hcarry := mulRow_carry_lt u v r h
  rwa [Nat.div_lt_iff_lt_mul (Nat.two_pow_pos w), ← pow_add, ← two_mul] at hcarry

theorem mac_spec (u v r h : BitVec w) :
    (mac u v r h).1.toNat + 2 ^ w * (mac u v r h).2.toNat =
      u.toNat * v.toNat + r.toNat + h.toNat := by
  have hlt := mac_lt u v r h
  have hcarry := mulRow_carry_lt u v r h
  have hsum : (wideMul u v + r.setWidth (2 * w) + h.setWidth (2 * w)).toNat =
      u.toNat * v.toNat + r.toNat + h.toNat := by
    rw [BitVec.toNat_add, BitVec.toNat_add, wideMul, BitVec.toNat_mul, toNat_setWidth_two_mul,
      toNat_setWidth_two_mul, toNat_setWidth_two_mul, toNat_setWidth_two_mul,
      Nat.mod_eq_of_lt (by omega : u.toNat * v.toNat < 2 ^ (2 * w)),
      Nat.mod_eq_of_lt (by omega : u.toNat * v.toNat + r.toNat < 2 ^ (2 * w)), Nat.mod_eq_of_lt hlt]
  simp only [mac, addWide]
  rw [BitVec.toNat_setWidth, BitVec.toNat_setWidth, BitVec.toNat_ushiftRight, hsum,
    Nat.shiftRight_eq_div_pow, Nat.mod_eq_of_lt hcarry]
  exact Nat.mod_add_div _ _

theorem length_mulAddRow (v : BitVec w) {us rs : List (BitVec w)}
    (hlen : us.length = rs.length) (h : BitVec w) :
    (mulAddRow v us rs h).1.length = us.length := by
  induction us generalizing rs h with
  | nil => cases rs <;> rfl
  | cons u us ih =>
    cases rs with
    | nil => simp at hlen
    | cons r rs => rw [mulAddRow, List.length_cons, List.length_cons, ih (by simpa using hlen)]

theorem value_mulAddRow (v : BitVec w) {us rs : List (BitVec w)}
    (hlen : us.length = rs.length) (h : BitVec w) :
    value (mulAddRow v us rs h).1 + 2 ^ (w * us.length) * (mulAddRow v us rs h).2.toNat =
      value us * v.toNat + value rs + h.toNat := by
  induction us generalizing rs h with
  | nil =>
    rw [List.length_nil, eq_comm, List.length_eq_zero_iff] at hlen
    simp [mulAddRow, hlen]
  | cons u us ih =>
    cases rs with
    | nil => simp at hlen
    | cons r rs =>
      have hword := mac_spec u v r h
      have hrest := ih (by simpa using hlen : us.length = rs.length) (mac u v r h).2
      simp only [mulAddRow, value_cons, List.length_cons, Nat.mul_succ, pow_add]
      linear_combination hword + 2 ^ w * hrest

/-- An array without its lowest word. -/
theorem value_headD_tail {xs : List (BitVec w)} (hpos : 0 < xs.length) :
    (xs.headD 0#w).toNat + 2 ^ w * value xs.tail = value xs := by
  cases xs with
  | nil => simp at hpos
  | cons x xs => exact (value_cons x xs).symm

theorem value_concat (xs : List (BitVec w)) (x : BitVec w) :
    value (xs ++ [x]) = value xs + 2 ^ (w * xs.length) * x.toNat := by
  rw [value_append, value_cons, value_nil]
  ring

theorem length_tail_concat {xs : List (BitVec w)} (hpos : 0 < xs.length) (x : BitVec w) :
    (xs.tail ++ [x]).length = xs.length := by
  rw [List.length_append, List.length_tail, List.length_singleton]
  omega

theorem mulSchool_spec {us vs acc : List (BitVec w)} (hpos : 0 < us.length)
    (hlen : us.length = acc.length) :
    (mulSchool us vs acc).length = vs.length + us.length ∧
    value (mulSchool us vs acc) = value us * value vs + value acc := by
  induction vs generalizing acc with
  | nil =>
    rw [mulSchool, hlen, List.length_nil, value_nil]
    exact ⟨(Nat.zero_add _).symm, by ring⟩
  | cons v vs ih =>
    have hrow := value_mulAddRow v hlen 0#w
    have hrowlen := length_mulAddRow v hlen 0#w
    generalize hr : mulAddRow v us acc 0#w = row at hrow hrowlen
    have hhead := value_headD_tail (hpos.trans_eq hrowlen.symm)
    have hconcat := value_concat row.1.tail row.2
    rw [List.length_tail, hrowlen] at hconcat
    obtain ⟨hlen', hval⟩ := @ih (row.1.tail ++ [row.2])
      (by rw [length_tail_concat (hpos.trans_eq hrowlen.symm), hrowlen])
    rw [mulSchool, hr, List.length_cons, hlen', List.length_cons, value_cons, value_cons,
      hval, hconcat]
    refine ⟨by ring, ?_⟩
    have hpow : 2 ^ (w * us.length) = 2 ^ w * 2 ^ (w * (us.length - 1)) := by
      rw [← pow_add]
      congr 1
      obtain ⟨n, hn⟩ := Nat.exists_eq_add_one_of_ne_zero hpos.ne'
      rw [hn, Nat.add_sub_cancel]
      ring
    rw [hpow] at hrow
    rw [BitVec.toNat_zero, add_zero] at hrow
    linear_combination hhead + hrow

section Montgomery

variable (m : List (BitVec w)) (n0 : BitVec w)

/-- The lowest word is cancelled by a multiple of the modulus and dropped, and `top` comes in
above. -/
def montStep (ws : List (BitVec w)) (top : BitVec w) (carry : Bool) : List (BitVec w) × Bool :=
  let row := mulAddRow (n0 * ws.headD 0#w) m ws 0#w
  (row.1.tail ++ [(addx top row.2 carry).1], (addx top row.2 carry).2)

/-- A product with a reduction after each row. -/
def montMulRows (a : List (BitVec w)) :
    List (BitVec w) → List (BitVec w) × Bool → List (BitVec w) × Bool
  | [], s => s
  | y :: ys, s =>
    montMulRows a ys (montStep m n0 (mulAddRow y a s.1 0#w).1 (mulAddRow y a s.1 0#w).2 s.2)

/-- The reductions of a number, whose upper words come in one after the other. -/
def montReduceRows : List (BitVec w) → List (BitVec w) × Bool → List (BitVec w) × Bool
  | [], s => s
  | u :: us, s => montReduceRows us (montStep m n0 s.1 u s.2)

/-- The number of an array and the carry above it. -/
def carryValue (s : List (BitVec w) × Bool) : ℕ := value s.1 + 2 ^ (w * s.1.length) * s.2.toNat

variable {m n0}

theorem carryValue_eq {s : List (BitVec w) × Bool} {n : ℕ} (h : s.1.length = n) :
    carryValue s = value s.1 + 2 ^ (w * n) * s.2.toNat := by
  rw [carryValue, h]

theorem length_montStep {ws : List (BitVec w)} (hlen : m.length = ws.length)
    (hpos : 0 < m.length) (top : BitVec w) (carry : Bool) :
    (montStep m n0 ws top carry).1.length = m.length := by
  have hrow := length_mulAddRow (n0 * ws.headD 0#w) hlen 0#w
  rw [montStep, length_tail_concat (hpos.trans_eq hrow.symm), hrow]

/-- The lowest word of a row that the multiplier was chosen for. -/
theorem headD_montRow {ws : List (BitVec w)} (hlen : m.length = ws.length) (hpos : 0 < m.length)
    (hn0 : (n0.toNat * value m + 1) % 2 ^ w = 0) :
    ((mulAddRow (n0 * ws.headD 0#w) m ws 0#w).1.headD 0#w).toNat = 0 := by
  cases m with
  | nil => simp at hpos
  | cons u us =>
    cases ws with
    | nil => simp at hlen
    | cons r rs =>
      have hmac := mac_spec u (n0 * r) r 0#w
      have hlt := (mac u (n0 * r) r 0#w).1.isLt
      rw [BitVec.toNat_zero, add_zero, BitVec.toNat_mul] at hmac
      show (mac u (n0 * r) r 0#w).1.toNat = 0
      have hlow : u.toNat * (n0.toNat * r.toNat % 2 ^ w) + r.toNat ≡ 0 [MOD 2 ^ w] := by
        have hunit : n0.toNat * u.toNat + 1 ≡ 0 [MOD 2 ^ w] := by
          rw [value_cons] at hn0
          have hsplit : n0.toNat * (u.toNat + 2 ^ w * value us) + 1 = n0.toNat * u.toNat + 1 +
              2 ^ w * (n0.toNat * value us) := by
            ring
          rwa [hsplit, Nat.add_mul_mod_self_left] at hn0
        calc u.toNat * (n0.toNat * r.toNat % 2 ^ w) + r.toNat
            ≡ u.toNat * (n0.toNat * r.toNat) + r.toNat [MOD 2 ^ w] :=
              ((Nat.mod_modEq _ _).mul_left _).add_right _
          _ = (n0.toNat * u.toNat + 1) * r.toNat := by ring
          _ ≡ 0 * r.toNat [MOD 2 ^ w] := hunit.mul_right _
          _ = 0 := zero_mul _
      rw [← hmac] at hlow
      have hzero : (mac u (n0 * r) r 0#w).1.toNat % 2 ^ w = 0 := by
        rw [← Nat.add_mul_mod_self_left]
        exact hlow
      rwa [Nat.mod_eq_of_lt hlt] at hzero

theorem montStep_spec {ws : List (BitVec w)} (hlen : m.length = ws.length) (hpos : 0 < m.length)
    (hn0 : (n0.toNat * value m + 1) % 2 ^ w = 0) (top : BitVec w) (carry : Bool) :
    ∃ q < 2 ^ w, 2 ^ w * carryValue (montStep m n0 ws top carry) =
      q * value m + value ws + 2 ^ (w * m.length) * (top.toNat + carry.toNat) := by
  refine ⟨(n0 * ws.headD 0#w).toNat, BitVec.isLt _, ?_⟩
  have hstep := @length_montStep w m n0 ws hlen hpos top carry
  have hhead := headD_montRow hlen hpos hn0
  have hrow := value_mulAddRow (n0 * ws.headD 0#w) hlen 0#w
  have hrowlen := length_mulAddRow (n0 * ws.headD 0#w) hlen 0#w
  rw [carryValue, hstep]
  simp only [montStep]
  generalize mulAddRow (n0 * ws.headD 0#w) m ws 0#w = row at hhead hrow hrowlen
  have htail := value_headD_tail (hpos.trans_eq hrowlen.symm)
  have hadd := addx_spec top row.2 carry
  have hpow : 2 ^ (w * m.length) = 2 ^ w * 2 ^ (w * (m.length - 1)) := by
    rw [← pow_add]
    congr 1
    obtain ⟨n, hn⟩ := Nat.exists_eq_add_one_of_ne_zero hpos.ne'
    rw [hn, Nat.add_sub_cancel]
    ring
  rw [hhead, zero_add] at htail
  rw [BitVec.toNat_zero, add_zero] at hrow
  rw [value_concat, List.length_tail, hrowlen]
  calc 2 ^ w * (value row.1.tail + 2 ^ (w * (m.length - 1)) * (addx top row.2 carry).1.toNat +
        2 ^ (w * m.length) * (addx top row.2 carry).2.toNat)
      = 2 ^ w * value row.1.tail + 2 ^ w * 2 ^ (w * (m.length - 1)) *
        (addx top row.2 carry).1.toNat +
        2 ^ w * 2 ^ (w * m.length) * (addx top row.2 carry).2.toNat := by ring
    _ = value row.1 + 2 ^ (w * m.length) *
        ((addx top row.2 carry).1.toNat + 2 ^ w * (addx top row.2 carry).2.toNat) := by
      rw [← hpow, htail]
      ring
    _ = (value row.1 + 2 ^ (w * m.length) * row.2.toNat) + 2 ^ (w * m.length) *
        (top.toNat + carry.toNat) := by
      rw [hadd]
      ring
    _ = (n0 * ws.headD 0#w).toNat * value m + value ws + 2 ^ (w * m.length) *
        (top.toNat + carry.toNat) := by
      rw [hrow]
      ring

theorem montMulRows_spec {a : List (BitVec w)} (halen : a.length = m.length) (hpos : 0 < m.length)
    (hn0 : (n0.toNat * value m + 1) % 2 ^ w = 0) (ys : List (BitVec w)) {s : List (BitVec w) × Bool}
    (hs : s.1.length = m.length) :
    (montMulRows m n0 a ys s).1.length = m.length ∧
      ∃ q < 2 ^ (w * ys.length), 2 ^ (w * ys.length) * carryValue (montMulRows m n0 a ys s) =
        q * value m + value a * value ys + carryValue s := by
  induction ys generalizing s with
  | nil => exact ⟨hs, 0, by simp, by simp [montMulRows]⟩
  | cons y ys ih =>
    have hlen : a.length = s.1.length := halen.trans hs.symm
    have hrow := value_mulAddRow y hlen 0#w
    have hrowlen := length_mulAddRow y hlen 0#w
    rw [montMulRows]
    generalize mulAddRow y a s.1 0#w = row at hrow hrowlen
    have hws : m.length = row.1.length := halen.symm.trans hrowlen.symm
    obtain ⟨q, hq, hstep⟩ := @montStep_spec w m n0 row.1 hws hpos hn0 row.2 s.2
    obtain ⟨hlen', Q, hQ, hrest⟩ :=
      ih (s := montStep m n0 row.1 row.2 s.2) (length_montStep hws hpos _ _)
    refine ⟨hlen', q + 2 ^ w * Q, ?_, ?_⟩
    · rw [List.length_cons, Nat.mul_succ, pow_add, mul_comm (2 ^ (w * ys.length))]
      calc q + 2 ^ w * Q < 2 ^ w * (Q + 1) := by
            rw [Nat.mul_succ]
            omega
        _ ≤ 2 ^ w * 2 ^ (w * ys.length) := Nat.mul_le_mul_left _ hQ
    · rw [List.length_cons, Nat.mul_succ, pow_add, value_cons]
      rw [BitVec.toNat_zero, add_zero, halen] at hrow
      rw [carryValue_eq hs]
      linear_combination 2 ^ w * hrest + hstep + hrow

theorem montReduceRows_spec (hpos : 0 < m.length)
    (hn0 : (n0.toNat * value m + 1) % 2 ^ w = 0) (us : List (BitVec w)) {s : List (BitVec w) × Bool}
    (hs : s.1.length = m.length) :
    (montReduceRows m n0 us s).1.length = m.length ∧
      ∃ q < 2 ^ (w * us.length), 2 ^ (w * us.length) * carryValue (montReduceRows m n0 us s) =
        q * value m + carryValue s + 2 ^ (w * m.length) * value us := by
  induction us generalizing s with
  | nil => exact ⟨hs, 0, by simp, by simp [montReduceRows]⟩
  | cons u us ih =>
    obtain ⟨q, hq, hstep⟩ := @montStep_spec w m n0 s.1 hs.symm hpos hn0 u s.2
    obtain ⟨hlen', Q, hQ, hrest⟩ :=
      ih (s := montStep m n0 s.1 u s.2) (length_montStep hs.symm hpos _ _)
    rw [montReduceRows]
    refine ⟨hlen', q + 2 ^ w * Q, ?_, ?_⟩
    · rw [List.length_cons, Nat.mul_succ, pow_add, mul_comm (2 ^ (w * us.length))]
      calc q + 2 ^ w * Q < 2 ^ w * (Q + 1) := by
            rw [Nat.mul_succ]
            omega
        _ ≤ 2 ^ w * 2 ^ (w * us.length) := Nat.mul_le_mul_left _ hQ
    · rw [List.length_cons, Nat.mul_succ, pow_add, value_cons]
      rw [carryValue_eq hs]
      linear_combination 2 ^ w * hrest + hstep

end Montgomery

end WordArray
