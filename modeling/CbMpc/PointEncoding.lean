import CbMpc.Bytes
import CbMpc.FieldRoots
import Mathlib.Tactic.NormNum.LegendreSymbol

/-!
# The encoding of Ed25519 points

`from_bin` and `to_bin`. A point is written as its `y`, little-endian, with the parity of `x` in the
top bit. Reading takes a square root of `x ^ 2` by the power with the exponent `(p - 5) / 8`, which
can miss by a root of `-1`.
-/
namespace CbMpc

open WordArray Uint256 LucasTest Edwards

/-! ## The curve over the words -/

/-- `formula_t::get_d`. -/
def curveD : ℕ := 0x52036cee2b6ffe738cc740797779e89800700a4d4141d8ab75eb4dca135978a3

/-- The coefficient of the curve in the field. -/
def edD : ZMod fieldPrime := (curveD : ZMod fieldPrime)

/-- `fe_t` as the formulas use it. -/
def feOps : FieldOps Uint256 where
  zero := Fe.zero
  one := Fe.one
  d := fromNat curveD
  add := feAdd
  sub := feSub
  mul := feMulNoasm
  sqr := feSquareNoasm
  inv := Fe.invert
  isZero := Fe.isZero
  eq := Fe.eq

theorem feVal_fromNat {n : ℕ} (h : n < 2 ^ 256) : feVal (fromNat n) = (n : ZMod fieldPrime) := by
  rw [feVal, value_fromNat h]

theorem feOps_lawful : feOps.Lawful feVal edD where
  zero := Fe.feVal_zero
  one := Fe.feVal_one
  d_eq := feVal_fromNat (by decide)
  add := feVal_feAdd
  sub := feVal_feSub
  mul := feVal_feMulNoasm
  sqr a := (feVal_feSquareNoasm a).trans (sq _).symm
  inv := Fe.inv_eq
  isZero_iff := Fe.isZero_iff
  eq_iff := Fe.eq_iff

theorem edD_nonsquare : ¬IsSquare edD := by
  have hjacobi : jacobiSym (curveD : ℕ) fieldPrime = -1 := by norm_num [curveD, fieldPrime]
  rw [← jacobiSym.legendreSym.to_jacobiSym, legendreSym.eq_neg_one_iff, Int.cast_natCast] at hjacobi
  exact hjacobi

instance completeEd25519 : Complete edD where
  nonsquare := edD_nonsquare
  neg_one := Fe.neg_one_square

/-! ## Reading and writing -/

/-- The root of `-1` in `from_bin`. -/
def sqrtm1 : Uint256 := fromNat 0x2b8324804fc1df0b2b4d00993dfbd7a72f431806ad2fe478c4ee1b274a0ea0b0

/-- The part of `from_bin` that takes the square root of `(y ^ 2 - 1) / (d * y ^ 2 + 1)`. -/
def rootX (y : Uint256) : Outcome Uint256 := do
  let u := feSquareNoasm y
  let v := feMulNoasm u feOps.d
  let u := feSub u Fe.one
  let v := feAdd v Fe.one
  let w := feMulNoasm u v
  let x := Fe.pow22523 w
  let x := feMulNoasm x u
  let vxx := feSquareNoasm x
  let vxx := feMulNoasm vxx v
  if Fe.isZero (feSub vxx u) then .ok x
  else do
    require (Fe.isZero (feAdd vxx u)) .crypto
    .ok (feMulNoasm x sqrtm1)

/-- `from_bin`. -/
def pointFromBin (bin : List (Fin 256)) : Outcome (ProjectivePoint Uint256) := do
  require (decide (bin.length = 32)) .format
  let buf := bin.reverse
  let neg := (buf.getD 0 0).val >>> 7
  let buf := buf.set 0 (Fin.ofNat 256 ((buf.getD 0 0).val &&& 0x7f))
  let yRaw := fromNat (fromBin buf)
  require (decide (value yRaw.words < fieldPrime)) .crypto
  let x ← rootX yRaw
  let xVal := feFreeze x
  require (!(decide (neg ≠ 0) && decide (xVal = Fe.zero))) .crypto
  let x := if neg ≠ (xVal.w0 &&& 1#64).toNat then Fe.neg x else x
  .ok ⟨x, yRaw, Fe.one⟩

/-- `to_bin`. -/
def pointToBin (P : ProjectivePoint Uint256) : List (Fin 256) :=
  if P.isInfinity feOps then 1 :: List.replicate 31 0
  else
    let zi := Fe.invert P.z
    let x := feMulNoasm P.x zi
    let y := feMulNoasm P.y zi
    let r := (binPad 32 (value (feFreeze y).words)).reverse
    r.set 31 (Fin.ofNat 256 ((r.getD 31 0).val ^^^ ((Fe.isOdd x).toNat <<< 7)))

/-! ## Points and their encodings -/

/-- The number that the encoding of a point writes. -/
def encoded (Q : Point edD) : ℕ := Q.y.val + 2 ^ 255 * (Q.x.val % 2)

theorem fieldPrime_lt : fieldPrime < 2 ^ 255 := by norm_num [fieldPrime]

theorem encoded_mod (Q : Point edD) : encoded Q % 2 ^ 255 = Q.y.val := by
  have hy := (ZMod.val_lt Q.y).trans fieldPrime_lt
  rw [encoded]
  omega

theorem encoded_div (Q : Point edD) : encoded Q / 2 ^ 255 = Q.x.val % 2 := by
  have hy := (ZMod.val_lt Q.y).trans fieldPrime_lt
  rw [encoded]
  omega

theorem encoded_lt (Q : Point edD) : encoded Q < 256 ^ 32 := by
  have hy := (ZMod.val_lt Q.y).trans fieldPrime_lt
  have hx := Nat.mod_lt Q.x.val (by decide : 2 > 0)
  rw [encoded]
  norm_num at hy ⊢
  omega

theorem val_feVal (a : Uint256) : (feVal a).val = value (feFreeze a).words := by
  rw [feVal, ZMod.val_natCast, value_feFreeze]

/-- The parities of a number and its negative differ. -/
theorem neg_val_parity {a : ZMod fieldPrime} (ha : a ≠ 0) : (-a).val % 2 = 1 - a.val % 2 := by
  have hodd := Fe.fieldPrime_odd
  have hlt := ZMod.val_lt a
  rw [ZMod.neg_val, if_neg ha]
  omega

/-- Of the two roots of a square the parity picks one. -/
theorem eq_of_parity {a b : ZMod fieldPrime} (hsq : a ^ 2 = b ^ 2)
    (hpar : a.val % 2 = b.val % 2) : a = b := by
  rcases sq_eq_sq_iff_eq_or_eq_neg.mp hsq with h | h
  · exact h
  · by_cases hb : b = 0
    · rw [h, hb, neg_zero]
    · rw [h, neg_val_parity hb] at hpar
      omega

theorem onCurve_iff (X Y : ZMod fieldPrime) :
    -X ^ 2 + Y ^ 2 = 1 + edD * X ^ 2 * Y ^ 2 ↔ X ^ 2 * (edD * Y ^ 2 + 1) = Y ^ 2 - 1 := by
  constructor
  · intro h
    linear_combination -h
  · intro h
    linear_combination -h

/-- The square of `x` is determined by `y`. -/
theorem x_sq_eq {X X' Y : ZMod fieldPrime} (h : X ^ 2 * (edD * Y ^ 2 + 1) = Y ^ 2 - 1)
    (h' : X' ^ 2 * (edD * Y ^ 2 + 1) = Y ^ 2 - 1) : X ^ 2 = X' ^ 2 :=
  mul_right_cancel₀ (Complete.mul_sq_add_one_ne_zero Y) (h.trans h'.symm)

theorem encoded_injective {Q Q' : Point edD} (h : encoded Q = encoded Q') : Q = Q' := by
  have hy : Q.y = Q'.y := ZMod.val_injective _ (by rw [← encoded_mod, ← encoded_mod, h])
  have hx := (onCurve_iff _ _).mp Q.onCurve
  have hx' := (onCurve_iff _ _).mp Q'.onCurve
  rw [← hy] at hx'
  apply Point.ext
  · apply eq_of_parity (x_sq_eq hx hx')
    rw [← encoded_div, ← encoded_div, h]
  · exact hy

/-! ## The square root -/

theorem feVal_sqrtm1 : feVal sqrtm1 ^ 2 = -1 := by
  have hdvd :
      ((0x2b8324804fc1df0b2b4d00993dfbd7a72f431806ad2fe478c4ee1b274a0ea0b0 ^ 2 +
        1 : ℕ) : ZMod fieldPrime) = 0 := by
    rw [ZMod.natCast_eq_zero_iff]
    norm_num [fieldPrime]
  rw [sqrtm1, feVal_fromNat (by decide), eq_neg_iff_add_eq_zero, ← Nat.cast_pow, ← Nat.cast_one,
    ← Nat.cast_add]
  exact hdvd

/-- The power of `from_bin` is a root up to sign where there is one. -/
theorem power_root {X u v : ZMod fieldPrime} (h : X ^ 2 * v = u) :
    ((u * v) ^ (2 ^ 252 - 3) * u) ^ 2 * v = u ∨ ((u * v) ^ (2 ^ 252 - 3) * u) ^ 2 * v = -u := by
  have hpow : ((u * v) ^ (2 ^ 252 - 3) * u) ^ 2 * v = u * (X * v) ^ (fieldPrime / 2) := by
    have hhalf : fieldPrime / 2 = 2 * (2 * (2 ^ 252 - 3) + 1) := by norm_num [fieldPrime]
    have hw : u * v = (X * v) ^ 2 := by rw [← h]; ring
    rw [hhalf, pow_mul, ← hw]
    generalize 2 ^ 252 - 3 = e
    ring
  rw [hpow]
  by_cases hzero : X * v = 0
  · left
    have hu : u = 0 := by rw [← h, sq, mul_assoc, hzero, mul_zero]
    rw [hu, zero_mul]
  · rcases ZMod.pow_div_two_eq_neg_one_or_one fieldPrime hzero with hone | hneg
    · left
      rw [hone, mul_one]
    · right
      rw [hneg, mul_neg_one]

/-- What `from_bin` takes for `x` before the sign. -/
theorem rootX_eq (y : Uint256) : rootX y =
    let w :=
  feMulNoasm (feSub (feSquareNoasm y) Fe.one) (feAdd (feMulNoasm (feSquareNoasm y) feOps.d) Fe.one)
    let x := feMulNoasm (Fe.pow22523 w) (feSub (feSquareNoasm y) Fe.one)
    if feVal x ^ 2 * (edD * feVal y ^ 2 + 1) = feVal y ^ 2 - 1 then .ok x
    else if feVal x ^ 2 * (edD * feVal y ^ 2 + 1) = -(feVal y ^ 2 - 1) then
      .ok (feMulNoasm x sqrtm1)
    else fail .crypto := by
  have hd : feVal feOps.d = edD := feOps_lawful.d_eq
  simp only [rootX]
  generalize hx : feMulNoasm (Fe.pow22523 _) _ = x
  have hvxx :
      feVal (feMulNoasm (feSquareNoasm x) (feAdd (feMulNoasm (feSquareNoasm y) feOps.d) Fe.one)) =
      feVal x ^ 2 * (edD * feVal y ^ 2 + 1) := by
    rw [feVal_feMulNoasm, feVal_feSquareNoasm, feVal_feAdd, feVal_feMulNoasm, feVal_feSquareNoasm,
      hd, Fe.feVal_one]
    ring
  have hu : feVal (feSub (feSquareNoasm y) Fe.one) = feVal y ^ 2 - 1 := by
    rw [feVal_feSub, feVal_feSquareNoasm, Fe.feVal_one, sq]
  have hminus :
      Fe.isZero
        (feSub (feMulNoasm (feSquareNoasm x) (feAdd (feMulNoasm (feSquareNoasm y) feOps.d) Fe.one))
      (feSub (feSquareNoasm y) Fe.one)) =
        decide (feVal x ^ 2 * (edD * feVal y ^ 2 + 1) = feVal y ^ 2 - 1) := by
    rw [Bool.eq_iff_iff, Fe.isZero_iff, decide_eq_true_iff, feVal_feSub, hvxx, hu, sub_eq_zero]
  have hplus :
      Fe.isZero
        (feAdd (feMulNoasm (feSquareNoasm x) (feAdd (feMulNoasm (feSquareNoasm y) feOps.d) Fe.one))
      (feSub (feSquareNoasm y) Fe.one)) =
        decide (feVal x ^ 2 * (edD * feVal y ^ 2 + 1) = -(feVal y ^ 2 - 1)) := by
    rw [Bool.eq_iff_iff, Fe.isZero_iff, decide_eq_true_iff, feVal_feAdd, hvxx, hu,
      eq_neg_iff_add_eq_zero]
  rw [hminus, hplus]
  by_cases hfirst : feVal x ^ 2 * (edD * feVal y ^ 2 + 1) = feVal y ^ 2 - 1
  · simp only [hfirst, decide_true, if_true]
  · by_cases hsecond : feVal x ^ 2 * (edD * feVal y ^ 2 + 1) = -(feVal y ^ 2 - 1)
    · simp only [decide_eq_false hfirst, if_neg hfirst, Bool.false_eq_true, if_false,
        decide_eq_true hsecond, require_true, ok_bind, if_pos hsecond]
    · simp only [decide_eq_false hfirst, if_neg hfirst, Bool.false_eq_true, if_false,
        decide_eq_false hsecond, require_false, if_neg hsecond]
      rfl

theorem rootX_sq {x y : Uint256} (h : rootX y = .ok x) :
    feVal x ^ 2 * (edD * feVal y ^ 2 + 1) = feVal y ^ 2 - 1 := by
  rw [rootX_eq] at h
  dsimp only at h
  split_ifs at h with hfirst hsecond
  · exact Except.ok.inj h ▸ hfirst
  · rw [← Except.ok.inj h, feVal_feMulNoasm]
    linear_combination (feVal sqrtm1 ^ 2) * hsecond - (feVal y ^ 2 - 1) * feVal_sqrtm1
  · cases h

theorem rootX_complete {y : Uint256} {X : ZMod fieldPrime}
    (h : X ^ 2 * (edD * feVal y ^ 2 + 1) = feVal y ^ 2 - 1) :
    ∃ x, rootX y = .ok x := by
  rw [rootX_eq]
  dsimp only
  rw [feVal_feMulNoasm, Fe.isPow_pow22523, feVal_feMulNoasm, feVal_feAdd, feVal_feMulNoasm,
    feOps_lawful.d_eq, feVal_feSub, feVal_feSquareNoasm, Fe.feVal_one, ← sq,
    mul_comm (feVal y ^ 2) edD]
  rcases power_root h with hroot | hroot
  · rw [if_pos hroot]
    exact ⟨_, rfl⟩
  · rw [if_pos hroot]
    split_ifs
    · exact ⟨_, rfl⟩
    · exact ⟨_, rfl⟩

theorem rootX_fail {y : Uint256} {e : Failure} (h : rootX y = .error e) : e = .code .crypto := by
  rw [rootX_eq] at h
  dsimp only at h
  split_ifs at h
  · cases h
    rfl

/-! ## Reading -/

/-- The sign bit and the rest of the bytes. -/
theorem topBit_split {bin : List (Fin 256)} (hlen : bin.length = 32) :
    (bin.reverse.getD 0 0).val >>> 7 = fromBin bin.reverse / 2 ^ 255 ∧
    fromBin (bin.reverse.set 0 (Fin.ofNat 256 ((bin.reverse.getD 0 0).val &&& 0x7f))) =
      fromBin bin.reverse % 2 ^ 255 := by
  have hrev : bin.reverse.length = 32 := by rw [List.length_reverse, hlen]
  generalize bin.reverse = buf at hrev
  cases buf with
  | nil => cases hrev
  | cons b bs =>
    have hbs : bs.length = 31 := by simpa using hrev
    have hlt := fromBin_lt bs
    have hb := b.isLt
    have hmask : (b.val &&& 0x7f) = b.val % 128 := Nat.and_two_pow_sub_one_eq_mod b.val 7
    rw [List.getD_cons_zero, List.set_cons_zero, fromBin_cons, fromBin_cons,
      Fin.val_ofNat, hmask, hbs, Nat.shiftRight_eq_div_pow]
    rw [hbs] at hlt
    norm_num at hlt ⊢
    omega

/-- The sign that `from_bin` gives to the root. -/
def signedX (neg : ℕ) (x : Uint256) : Uint256 :=
  if neg ≠ ((feFreeze x).w0 &&& 1#64).toNat then Fe.neg x else x

theorem lowBit_eq (x : Uint256) : ((feFreeze x).w0 &&& 1#64).toNat = (feVal x).val % 2 := by
  have hone : (1#64 : Limb).toNat = 2 ^ 1 - 1 := rfl
  have hvalue := value_words (feFreeze x)
  rw [val_feVal, BitVec.toNat_and, hone, Nat.and_two_pow_sub_one_eq_mod]
  omega

theorem signedX_spec {neg : ℕ} {x : Uint256} (hneg : neg < 2) (h : neg ≠ 0 → feVal x ≠ 0) :
    feVal (signedX neg x) ^ 2 = feVal x ^ 2 ∧ (feVal (signedX neg x)).val % 2 = neg := by
  rw [signedX, lowBit_eq]
  split_ifs with hpar
  · rw [Fe.feVal_neg]
    have hx : feVal x ≠ 0 := by
      intro hzero
      rw [hzero, ZMod.val_zero] at hpar
      exact h hpar hzero
    refine ⟨neg_sq _, ?_⟩
    rw [neg_val_parity hx]
    omega
  · exact ⟨rfl, (not_not.mp hpar).symm⟩

theorem freeze_eq_zero_iff (x : Uint256) : feFreeze x = Fe.zero ↔ feVal x = 0 := by
  rw [← Fe.isZero_iff, Fe.isZero, decide_eq_true_iff]

/-- `from_bin` on a string of the right length, by the number that it writes. -/
theorem pointFromBin_eq {bin : List (Fin 256)} (hlen : bin.length = 32) : pointFromBin bin = (do
    require (decide (fromBin bin.reverse % 2 ^ 255 < fieldPrime)) .crypto
    let x ← rootX (fromNat (fromBin bin.reverse % 2 ^ 255))
    require (!(decide (fromBin bin.reverse / 2 ^ 255 ≠ 0) && decide (feFreeze x = Fe.zero))) .crypto
    .ok ⟨signedX (fromBin bin.reverse / 2 ^ 255) x, fromNat (fromBin bin.reverse % 2 ^ 255),
        Fe.one⟩) := by
  obtain ⟨hneg, hrest⟩ := topBit_split hlen
  have hvalue : value (fromNat (fromBin bin.reverse % 2 ^ 255)).words =
      fromBin bin.reverse % 2 ^ 255 :=
    value_fromNat ((Nat.mod_lt _ (by positivity)).trans (by norm_num))
  simp only [pointFromBin]
  rw [decide_eq_true hlen, require_true, ok_bind, hneg, hrest, hvalue]
  rfl

theorem fromBin_div_lt {bin : List (Fin 256)} (hlen : bin.length = 32) :
    fromBin bin.reverse / 2 ^ 255 < 2 := by
  have hlt := fromBin_lt bin.reverse
  rw [List.length_reverse, hlen] at hlt
  norm_num at hlt ⊢
  omega

/-- Every number that stands for a point is read. -/
theorem pointFromBin_encoded {bin : List (Fin 256)} (hlen : bin.length = 32) {Q : Point edD}
    (hQ : encoded Q = fromBin bin.reverse) :
    ∃ R, pointFromBin bin = .ok R ∧ Represents feVal R Q := by
  have hyval := ZMod.val_lt Q.y
  have hfromNat : feVal (fromNat Q.y.val) = Q.y := by
    rw [feVal_fromNat ((hyval.trans fieldPrime_lt).trans (by norm_num)), ZMod.natCast_zmod_val]
  have hcurve := (onCurve_iff _ _).mp Q.onCurve
  rw [← hfromNat] at hcurve
  obtain ⟨x, hx⟩ := rootX_complete hcurve
  have hsq := x_sq_eq (rootX_sq hx) hcurve
  have hneg : encoded Q / 2 ^ 255 < 2 := hQ ▸ fromBin_div_lt hlen
  have hnonzero : encoded Q / 2 ^ 255 ≠ 0 → feVal x ≠ 0 := by
    intro hsign hzero
    rw [hzero, zero_pow two_ne_zero] at hsq
    rw [encoded_div, pow_eq_zero_iff two_ne_zero |>.mp hsq.symm, ZMod.val_zero] at hsign
    exact hsign rfl
  have hguard : (!(decide (encoded Q / 2 ^ 255 ≠ 0) && decide (feFreeze x = Fe.zero))) = true := by
    rw [Bool.not_eq_true', Bool.and_eq_false_imp, decide_eq_true_iff, decide_eq_false_iff_not,
      freeze_eq_zero_iff]
    exact hnonzero
  obtain ⟨hsigned, hparity⟩ := signedX_spec hneg hnonzero
  refine ⟨⟨signedX (encoded Q / 2 ^ 255) x, fromNat Q.y.val, Fe.one⟩, ?_, ?_⟩
  · rw [pointFromBin_eq hlen, ← hQ, encoded_mod, decide_eq_true hyval, require_true, ok_bind, hx,
      ok_bind, hguard, require_true, ok_bind]
  · refine ⟨?_, ?_, ?_⟩
    · show feVal Fe.one ≠ 0
      rw [Fe.feVal_one]
      exact one_ne_zero
    · show feVal (signedX (encoded Q / 2 ^ 255) x) = Q.x * feVal Fe.one
      rw [Fe.feVal_one, mul_one]
      apply eq_of_parity (hsigned.trans hsq)
      rw [hparity, encoded_div]
    · show feVal (fromNat Q.y.val) = Q.y * feVal Fe.one
      rw [Fe.feVal_one, mul_one, hfromNat]

/-- What is read is the point that the number stands for. -/
theorem encoded_of_pointFromBin {bin : List (Fin 256)} {R : ProjectivePoint Uint256}
    (h : pointFromBin bin = .ok R) :
    bin.length = 32 ∧ ∃ Q : Point edD, Represents feVal R Q ∧ encoded Q = fromBin bin.reverse := by
  have hlen : bin.length = 32 := by
    simp only [pointFromBin] at h
    exact of_decide_eq_true (require_bind_ok_iff.mp h).1
  rw [pointFromBin_eq hlen, require_bind_ok_iff, decide_eq_true_iff, bind_ok_iff] at h
  obtain ⟨hlt, x, hx, h⟩ := h
  rw [require_bind_ok_iff, Bool.not_eq_true', Bool.and_eq_false_imp, decide_eq_true_iff,
    decide_eq_false_iff_not, freeze_eq_zero_iff] at h
  obtain ⟨hnonzero, h⟩ := h
  obtain ⟨hsigned, hparity⟩ := signedX_spec (fromBin_div_lt hlen) hnonzero
  have hR := (Except.ok.inj h).symm
  have hy : feVal (fromNat (fromBin bin.reverse % 2 ^ 255)) =
      ((fromBin bin.reverse % 2 ^ 255 : ℕ) : ZMod fieldPrime) :=
    feVal_fromNat ((hlt.trans fieldPrime_lt).trans (by norm_num))
  have hroot := rootX_sq hx
  rw [← hsigned] at hroot
  refine ⟨hlen, ⟨_, _, (onCurve_iff _ _).mpr hroot⟩, ⟨?_, ?_, ?_⟩, ?_⟩
  · rw [hR]
    show feVal Fe.one ≠ 0
    rw [Fe.feVal_one]
    exact one_ne_zero
  · rw [hR]
    exact ((mul_one _).symm.trans (congrArg _ Fe.feVal_one.symm) :)
  · rw [hR]
    exact ((mul_one _).symm.trans (congrArg _ Fe.feVal_one.symm) :)
  · rw [encoded]
    dsimp only
    rw [hparity, hy, ZMod.val_natCast, Nat.mod_eq_of_lt hlt]
    exact Nat.mod_add_div _ _

/-! ## Writing -/

/-- The first byte of a number in the reversed string. -/
theorem reverse_cons_set {α : Type} (a b z : α) (l : List α) :
    (a :: l).reverse.getD l.length z = a ∧ (a :: l).reverse.set l.length b = (b :: l).reverse := by
  have hlen : l.reverse.length = l.length := List.length_reverse
  rw [List.reverse_cons, List.reverse_cons, ← hlen, List.getD_append_right _ _ _ _ le_rfl,
    List.set_append_right _ _ le_rfl, Nat.sub_self]
  exact ⟨rfl, rfl⟩

/-- `to_bin` writes the parity of `x` into the free bit of the last byte. -/
theorem write_parity {y : ℕ} (hy : y < 2 ^ 255) (odd : Bool) :
    (binPad 32 y).reverse.set 31
      (Fin.ofNat 256 (((binPad 32 y).reverse.getD 31 0).val ^^^ (odd.toNat <<< 7))) =
      (binPad 32 (y + 2 ^ 255 * odd.toNat)).reverse := by
  have hcons := binPad_succ_eq_cons 31
  have hlow : y + 2 ^ 255 * odd.toNat = y + 256 ^ 31 * (128 * odd.toNat) := by
    norm_num
    ring
  have hset := fun b : Fin 256 => reverse_cons_set (Fin.ofNat 256 (y / 256 ^ 31)) b 0 (binPad 31 y)
  rw [length_binPad] at hset
  have htop : y / 256 ^ 31 < 128 := by
    apply Nat.div_lt_of_lt_mul
    norm_num at hy ⊢
    exact hy
  rw [hcons, hcons, (hset 0).1, (hset _).2, hlow, binPad_add_mul,
    Nat.add_mul_div_left _ _ (by positivity)]
  generalize y / 256 ^ 31 = top at htop
  have hbyte : ∀ t : Fin 128, ∀ o : Bool,
      Fin.ofNat 256 ((Fin.ofNat 256 t.val).val ^^^ (o.toNat <<< 7)) =
      Fin.ofNat 256 (t.val + 128 * o.toNat) := by decide
  rw [hbyte ⟨top, htop⟩ odd]

theorem isOdd_toNat (x : Uint256) : (Fe.isOdd x).toNat = (feVal x).val % 2 := by
  rw [Fe.isOdd, isOdd_eq, isOddWords_eq, val_feVal]
  rcases Nat.mod_two_eq_zero_or_one (value (feFreeze x).words) with h | h
  · rw [h]
    rfl
  · rw [h]
    rfl

/-- All representations of a point are written as its number. -/
theorem pointToBin_eq {P : ProjectivePoint Uint256} {Q : Point edD} (h : Represents feVal P Q) :
    pointToBin P = (binPad 32 (encoded Q)).reverse := by
  have hinf := isInfinity_iff feOps_lawful h
  obtain ⟨hz, hx, hy⟩ := h
  rw [pointToBin]
  split_ifs with hzero
  · have hone : encoded (Point.zero : Point edD) = 1 := by
      show (1 : ZMod fieldPrime).val + 2 ^ 255 * ((0 : ZMod fieldPrime).val % 2) = 1
      rw [ZMod.val_one, ZMod.val_zero, Nat.zero_mod, mul_zero, add_zero]
    rw [hinf.mp hzero, hone]
    decide
  · have hxval : feVal (feMulNoasm P.x (Fe.invert P.z)) = Q.x := by
      rw [feVal_feMulNoasm, Fe.inv_eq, hx, mul_inv_cancel_right₀ hz]
    have hyval : feVal (feMulNoasm P.y (Fe.invert P.z)) = Q.y := by
      rw [feVal_feMulNoasm, Fe.inv_eq, hy, mul_inv_cancel_right₀ hz]
    dsimp only
    rw [← val_feVal, hyval, write_parity ((ZMod.val_lt Q.y).trans fieldPrime_lt),
      isOdd_toNat, hxval]
    rfl

theorem length_pointToBin {P : ProjectivePoint Uint256} {Q : Point edD} (h : Represents feVal P Q) :
    (pointToBin P).length = 32 ∧ fromBin (pointToBin P).reverse = encoded Q := by
  rw [pointToBin_eq h, List.length_reverse, length_binPad, List.reverse_reverse,
    fromBin_binPad (encoded_lt Q)]
  exact ⟨rfl, rfl⟩

/-- What `from_bin` does not read, it rejects with one of two codes. -/
theorem pointFromBin_reject {bin : List (Fin 256)} (hlen : bin.length = 32)
    (h : ∀ Q : Point edD, encoded Q ≠ fromBin bin.reverse) : pointFromBin bin = fail .crypto := by
  cases hres : pointFromBin bin with
  | ok R =>
    obtain ⟨-, Q, -, hQ⟩ := encoded_of_pointFromBin hres
    exact absurd hQ (h Q)
  | error e =>
    rw [pointFromBin_eq hlen] at hres
    cases hlt : decide (fromBin bin.reverse % 2 ^ 255 < fieldPrime) with
    | false =>
      rw [hlt] at hres
      exact hres.symm
    | true =>
      rw [hlt, require_true, ok_bind, bind_error_iff] at hres
      rcases hres with hroot | ⟨x, -, hguard⟩
      · rw [rootX_fail hroot]
        rfl
      · rw [bind_error_iff] at hguard
        rcases hguard with hguard | ⟨_, _, hguard⟩
        · rw [require] at hguard
          split_ifs at hguard
          · cases hguard
            rfl
        · cases hguard

/-- Points have one encoding each, and `from_bin` reads those and nothing else. The strings are
named by the number that they write, least byte first: `y` in its low 255 bits and the sign in the
top one. -/
theorem pointEncoding_exact :
    (∀ (P : ProjectivePoint Uint256) (Q : Point edD), Represents feVal P Q →
      ∃ R, pointFromBin (pointToBin P) = .ok R ∧ Represents feVal R Q) ∧
    (∀ (bin : List (Fin 256)) (R : ProjectivePoint Uint256), pointFromBin bin = .ok R →
      R.isOnCurve feOps = true ∧ pointToBin R = bin ∧ ∃ Q : Point edD, Represents feVal R Q) ∧
    (∀ (bin bin' : List (Fin 256)) (R R' : ProjectivePoint Uint256) (Q : Point edD),
      pointFromBin bin = .ok R →
      pointFromBin bin' = .ok R' → Represents feVal R Q → Represents feVal R' Q → bin = bin') ∧
    (∀ bin : List (Fin 256), bin.length ≠ 32 → pointFromBin bin = fail .format) ∧
    (∀ bin : List (Fin 256), bin.length = 32 →
      (fieldPrime ≤ fromBin bin.reverse % 2 ^ 255 ∨
        (∀ Q : Point edD, Q.y ≠ (fromBin bin.reverse % 2 ^ 255 : ℕ)) ∨
        (2 ^ 255 ≤ fromBin bin.reverse ∧ ∃ Q : Point edD,
          Q.y = (fromBin bin.reverse % 2 ^ 255 : ℕ) ∧ Q.x = 0)) →
      pointFromBin bin = fail .crypto) := by
  have hback : ∀ {bin : List (Fin 256)} {R : ProjectivePoint Uint256},
      pointFromBin bin = .ok R → ∀ {Q : Point edD},
      Represents feVal R Q → encoded Q = fromBin bin.reverse → pointToBin R = bin := by
    intro bin R hR Q hQ henc
    have hlen : bin.reverse.length = 32 := List.length_reverse.trans (encoded_of_pointFromBin hR).1
    rw [pointToBin_eq hQ, henc, ← hlen, binPad_fromBin, List.reverse_reverse]
  have hread : ∀ {bin : List (Fin 256)} {R : ProjectivePoint Uint256}, pointFromBin bin = .ok R →
      ∃ Q : Point edD, Represents feVal R Q ∧ pointToBin R = bin := by
    intro bin R hR
    obtain ⟨-, Q, hQ, henc⟩ := encoded_of_pointFromBin hR
    exact ⟨Q, hQ, hback hR hQ henc⟩
  refine ⟨?_, ?_, ?_, ?_, ?_⟩
  · intro P Q hP
    obtain ⟨hlen, henc⟩ := length_pointToBin hP
    exact pointFromBin_encoded hlen henc.symm
  · intro bin R hR
    obtain ⟨Q, hQ, hbin⟩ := hread hR
    exact ⟨(isOnCurve_iff feOps_lawful hQ.1).mpr ⟨Q, hQ⟩, hbin, Q, hQ⟩
  · intro bin bin' R R' Q hR hR' hQ hQ'
    obtain ⟨_, -, hbin⟩ := hread hR
    obtain ⟨_, -, hbin'⟩ := hread hR'
    rw [← hbin, ← hbin', pointToBin_eq hQ, pointToBin_eq hQ']
  · intro bin hlen
    rw [pointFromBin, decide_eq_false hlen]
    rfl
  · intro bin hlen hbad
    apply pointFromBin_reject hlen
    intro Q henc
    have hyval : Q.y.val = fromBin bin.reverse % 2 ^ 255 := by rw [← henc, encoded_mod]
    have hy : Q.y = (fromBin bin.reverse % 2 ^ 255 : ℕ) := by rw [← hyval, ZMod.natCast_zmod_val]
    rcases hbad with hlarge | hnone | ⟨hsign, Q', hy', hx'⟩
    · rw [← hyval] at hlarge
      exact absurd (ZMod.val_lt Q.y) (not_lt.mpr hlarge)
    · exact hnone Q hy
    · have hsq := x_sq_eq ((onCurve_iff _ _).mp Q.onCurve)
        (hy.trans hy'.symm ▸ (onCurve_iff _ _).mp Q'.onCurve)
      rw [hx', zero_pow two_ne_zero] at hsq
      have hdiv := encoded_div Q
      rw [henc, pow_eq_zero_iff two_ne_zero |>.mp hsq, ZMod.val_zero, Nat.div_eq_zero_iff] at hdiv
      omega

end CbMpc
