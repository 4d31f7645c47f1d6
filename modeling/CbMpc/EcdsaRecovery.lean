import CbMpc.Ecdsa

/-!
# Recovery of ECDSA public keys

`get_recovery_code` and `recover_pub_key` rebuild the point of the nonce from `r`: the first one
from the even point and its negation, the second one from the parity that the code stands for.
-/
namespace CbMpc

/-- A curve whose points have a parity, and are read from octets. -/
structure RecoveryCurve (E : Type) extends EcdsaCurve E where
  odd : E → Bool
  fromOct : List (Fin 256) → Outcome E

/-- The first octet of a compressed point. -/
def octPrefix (odd : Bool) : Fin 256 := if odd then 3 else 2

/-- The order has whole bytes, negation turns the parity round, and a compressed point is the point
with its x-coordinate and its parity. -/
structure RecoveryCurve.Lawful (q : ℕ) {E : Type} [AddCommGroup E] (C : RecoveryCurve E) : Prop
    extends EcdsaCurve.Lawful q C.toEcdsaCurve where
  size_order : q.size = 8 * C.size
  size_le : C.size ≤ 512
  getX_nonneg : ∀ P, 0 ≤ C.getX P
  odd_neg : ∀ P, P ≠ 0 → C.odd (-P) = !C.odd P
  fromOct_iff : ∀ odd bytes P, bytes.length = C.size →
    (C.fromOct (octPrefix odd :: bytes) = .ok P ↔ P ≠ 0 ∧ C.getX P = fromBin bytes ∧ C.odd P = odd)

variable {q : ℕ} [hq : Fact q.Prime] {E : Type} [AddCommGroup E] [Module (ZMod q) E] [DecidableEq E]

/-- The point that is read from `r` with a parity. -/
def noncePoint (C : RecoveryCurve E) (r : ℤ) (odd : Bool) : Outcome E := do
  let bytes ← toBin r C.size
  let R ← C.fromOct (octPrefix odd :: bytes)
  curveCheck false (.on R)

/-- `r_inv * (s * R - e * G)`. -/
def keyFromNonce (curve : Curve q E) (rInv s e : ℤ) (R : E) : Outcome E := do
  let sR ← curve.mul s R
  let eG ← curve.mulToGenerator e
  curve.mul rInv (sR - eG)

/-- `ecdsa_signature_t::get_recovery_code`. -/
def getRecoveryCode (curve : Curve q E) (C : RecoveryCurve E) (r s : ℤ) (hash : List (Fin 256))
    (pubKey : E) : Outcome ℤ := do
  let e := curveMsgToBn C.toEcdsaCurve hash
  let R ← noncePoint C r false
  let rInv ← modInvCt q r
  let Q ← keyFromNonce curve rInv s e R
  if Q = pubKey then .ok 0 else do
    let Q ← keyFromNonce curve rInv s e (-R)
    if Q = pubKey then .ok 1 else fail .crypto

/-- `ecdsa_signature_t::recover_pub_key`. -/
def recoverPubKey (curve : Curve q E) (C : RecoveryCurve E) (r s : ℤ) (hash : List (Fin 256))
    (recoveryCode : ℤ) : Outcome E := do
  require (decide (recoveryCode = 0 ∨ recoveryCode = 1)) .crypto
  let e := curveMsgToBn C.toEcdsaCurve hash
  let R ← noncePoint C r (decide (recoveryCode = 1))
  let rInv ← modInvCt q r
  keyFromNonce curve rInv s e R

variable {curve : Curve q E} {C : RecoveryCurve E}

theorem cast_ne_zero {a : ℤ} (ha : 0 < a ∧ a < q) : (a : ZMod q) ≠ 0 := by
  have hres : a = residue (a : ZMod q) :=
    eq_residue_of_isInRange ((isInRange_iff a).mpr ⟨ha.1.le, ha.2⟩)
  intro h
  rw [h, residue_zero] at hres
  exact ha.1.ne' hres

theorem modInvCt_ok_iff {a rInv : ℤ} :
    modInvCt q a = .ok rInv ↔ (0 < a ∧ a < q) ∧ rInv = residue (a : ZMod q)⁻¹ := by
  by_cases hrange : isInRange q a = true
  · have ha := eq_residue_of_isInRange hrange
    rw [isInRange_iff] at hrange
    by_cases hzero : (a : ZMod q) = 0
    · rw [hzero, residue_zero] at ha
      subst ha
      have hgcd : Int.gcd 0 q ≠ 1 := by
        rw [Int.gcd_zero_left]
        exact hq.out.one_lt.ne'
      rw [modInvCt, check, (isInRange_iff _).mpr ⟨le_refl 0, Int.ofNat_lt.mpr hq.out.pos⟩,
        cbAssert_true, ok_bind, modInv, if_neg hgcd]
      exact iff_of_false (by rintro ⟨⟩) fun h => lt_irrefl _ h.1.1
    · have hinv := modInvCt_residue hzero
      rw [← ha] at hinv
      have hpos : 0 < a := lt_of_le_of_ne hrange.1 fun h => hzero (by rw [← h, Int.cast_zero])
      rw [hinv, Except.ok.injEq, eq_comm, and_iff_right ⟨hpos, hrange.2⟩]
  · rw [modInvCt, check, Bool.eq_false_iff.mpr hrange]
    rw [isInRange_iff] at hrange
    exact iff_of_false (by rintro ⟨⟩) fun h => hrange ⟨h.1.1.le, h.1.2⟩

omit hq [Module (ZMod q) E] in
theorem noncePoint_ok_iff (hC : C.Lawful q) {r : ℤ} (hr : 0 < r ∧ r < q) {odd : Bool} {R : E} :
    noncePoint C r odd = .ok R ↔ R ≠ 0 ∧ C.getX R = r ∧ C.odd R = odd := by
  obtain ⟨n, rfl⟩ := Int.eq_ofNat_of_zero_le hr.1.le
  have hn : n < q := Int.ofNat_lt.mp hr.2
  have hpow : n < 2 ^ (8 * C.size) := by
    rw [← hC.size_order]
    exact hn.trans (Nat.lt_size_self q)
  have hbin : toBin (n : ℤ) C.size = .ok (binPad C.size n) := by
    have hsize : getBinSize n ≤ C.size := by
      rw [getBinSize, bitsToBytes, Int.natAbs_natCast]
      have := Nat.size_le.mpr hpow
      omega
    rw [toBin, decide_eq_true hsize, cbAssert_true, ok_bind, Int.natAbs_natCast]
  have hfrom : fromBin (binPad C.size n) = n := fromBin_binPad (by rwa [pow_mul] at hpow)
  rw [noncePoint, hbin, ok_bind, bind_ok_iff]
  simp only [hC.fromOct_iff odd (binPad C.size n) _ (length_binPad _ _), hfrom]
  constructor
  · rintro ⟨P, hP, hcheck⟩
    rwa [eq_of_curveCheck_on hcheck]
  · intro h
    refine ⟨R, h, ?_⟩
    rw [curveCheck, decide_eq_false h.1]
    rfl

omit [DecidableEq E] in
/-- Whatever integers are multiplied, the key that comes out is that of the signature equation. -/
theorem keyFromNonce_ok {rInv s e : ℤ} {R Q : E} (h : keyFromNonce curve rInv s e R = .ok Q) :
    Q = (rInv : ZMod q) • ((s : ZMod q) • R - (e : ZMod q) • curve.generator) := by
  obtain ⟨sR, hsR, h⟩ := bind_ok_iff.mp h
  obtain ⟨eG, heG, h⟩ := bind_ok_iff.mp h
  rw [mul_ok curve h, mul_ok curve hsR, mulToGenerator_ok curve heG]

omit [AddCommGroup E] [DecidableEq E] in
theorem curveMsgToBn_nonneg (hash : List (Fin 256)) :
    0 ≤ curveMsgToBn C.toEcdsaCurve hash := Int.natCast_nonneg _

omit hq [Module (ZMod q) E] [DecidableEq E] in
theorem curveMsgToBn_lt (hC : C.Lawful q) (hash : List (Fin 256)) :
    curveMsgToBn C.toEcdsaCurve hash < 2 ^ 4096 := by
  have hlen : 8 * (hash.take C.size).length ≤ 4096 := by
    have h := (List.length_take_le C.size hash).trans hC.size_le
    omega
  have hlt : fromBin (hash.take C.size) < 2 ^ (8 * (hash.take C.size).length) := by
    rw [pow_mul]
    exact fromBin_lt _
  calc curveMsgToBn C.toEcdsaCurve hash
    _ < ((2 ^ (8 * (hash.take C.size).length) : ℕ) : ℤ) := Int.ofNat_lt.mpr hlt
    _ = 2 ^ (8 * (hash.take C.size).length) := Nat.cast_pow _ _
    _ ≤ 2 ^ 4096 := pow_le_pow_right₀ one_le_two hlen

omit [DecidableEq E] in
theorem keyFromNonce_eq (hC : C.Lawful q) {s : ℤ} (hs : 0 < s ∧ s < q)
    (hash : List (Fin 256)) (i : ZMod q) (R : E) :
    keyFromNonce curve (residue i) s (curveMsgToBn C.toEcdsaCurve hash) R =
      .ok (i •
        ((s : ZMod q) • R - (curveMsgToBn C.toEcdsaCurve hash : ZMod q) • curve.generator)) := by
  have hrange : isInRange q s = true := (isInRange_iff s).mpr ⟨hs.1.le, hs.2⟩
  have heG := mulToGenerator_of_lt curve (curveMsgToBn_nonneg hash) (curveMsgToBn_lt hC hash)
  rw [keyFromNonce, mul_of_isInRange curve hrange, ok_bind, heG, ok_bind, mul_residue]

omit [DecidableEq E] in
/-- The signature equation, solved for the key. -/
theorem ecdsaPoint_eq_iff {r s : ZMod q} (hr : r ≠ 0) (hs : s ≠ 0) (e : ZMod q) (Q R : E) :
    ecdsaPoint curve Q e r s = R ↔ r⁻¹ • (s • R - e • curve.generator) = Q := by
  rw [ecdsaPoint, inv_smul_eq_iff₀ hr, sub_eq_iff_eq_add]
  constructor
  · rintro rfl
    rw [smul_add, smul_smul, smul_smul, mul_div_cancel₀ _ hs, mul_div_cancel₀ _ hs, add_comm]
  · intro h
    rw [← inv_smul_smul₀ hs R, h, smul_add, smul_smul, smul_smul, add_comm, div_eq_inv_mul,
      div_eq_inv_mul]

/-- The key of the signature equation for the point `R`. -/
def keyOf (curve : Curve q E) (r s e : ℤ) (R : E) : E :=
  (r : ZMod q)⁻¹ • ((s : ZMod q) • R - (e : ZMod q) • curve.generator)

theorem recoverPubKey_eq (hC : C.Lawful q) {r s : ℤ} (hr : 0 < r ∧ r < q)
    (hs : 0 < s ∧ s < q) (hash : List (Fin 256)) {R : E} {odd : Bool}
    (hR : noncePoint C r odd = .ok R) :
    recoverPubKey curve C r s hash odd.toNat =
      .ok (keyOf curve r s (curveMsgToBn C.toEcdsaCurve hash) R) := by
  have hinv : modInvCt q r = .ok (residue (r : ZMod q)⁻¹) := modInvCt_ok_iff.mpr ⟨hr, rfl⟩
  have hkey := @keyFromNonce_eq q hq E _ _ curve C hC s hs hash (r : ZMod q)⁻¹ R
  cases odd
  · show (noncePoint C r false >>= fun R => modInvCt q r >>= fun rInv =>
      keyFromNonce curve rInv s _ R) = _
    rw [hR, ok_bind, hinv, ok_bind, hkey, keyOf]
  · show (noncePoint C r true >>= fun R => modInvCt q r >>= fun rInv =>
      keyFromNonce curve rInv s _ R) = _
    rw [hR, ok_bind, hinv, ok_bind, hkey, keyOf]

theorem getRecoveryCode_eq (hC : C.Lawful q) {r s : ℤ} (hr : 0 < r ∧ r < q)
    (hs : 0 < s ∧ s < q) (hash : List (Fin 256)) {R : E}
    (hR : noncePoint C r false = .ok R) (Q : E) :
    getRecoveryCode curve C r s hash Q =
      if keyOf curve r s (curveMsgToBn C.toEcdsaCurve hash) R = Q then .ok 0
      else if keyOf curve r s (curveMsgToBn C.toEcdsaCurve hash) (-R) = Q then
        .ok 1 else fail .crypto := by
  have hinv : modInvCt q r = .ok (residue (r : ZMod q)⁻¹) := modInvCt_ok_iff.mpr ⟨hr, rfl⟩
  have hkey := @keyFromNonce_eq q hq E _ _ curve C hC s hs hash (r : ZMod q)⁻¹
  rw [getRecoveryCode, hR, ok_bind, hinv, ok_bind, hkey, ok_bind, hkey, ok_bind, keyOf, keyOf]

/-- From either of the two points with the x-coordinate `r`, the key of the signature equation has a
code. -/
theorem recovered (hC : C.Lawful q) {r s : ℤ} (hr : 0 < r ∧ r < q) (hs : 0 < s ∧ s < q)
    (hash : List (Fin 256)) {R : E} (hR : R ≠ 0) (hx : C.getX R = r) {Q : E}
    (hQ : keyOf curve r s (curveMsgToBn C.toEcdsaCurve hash) R = Q) :
    ∃ c, getRecoveryCode curve C r s hash Q = .ok c ∧ recoverPubKey curve C r s hash c = .ok Q := by
  cases hodd : C.odd R with
  | false =>
    have hpoint : noncePoint C r false = .ok R := (noncePoint_ok_iff hC hr).mpr ⟨hR, hx, hodd⟩
    refine ⟨0, ?_, ?_⟩
    · rw [getRecoveryCode_eq hC hr hs hash hpoint, if_pos hQ]
    · rw [← hQ]
      exact recoverPubKey_eq hC hr hs hash hpoint
  | true =>
    -- the point that `get_recovery_code` starts from is the opposite one
    have hneg : noncePoint C r false = .ok (-R) := by
      apply (noncePoint_ok_iff hC hr).mpr
      refine ⟨neg_ne_zero.mpr hR, (hC.getX_neg R).trans hx, ?_⟩
      rw [hC.odd_neg R hR, hodd]
      rfl
    have hpoint : noncePoint C r true = .ok R := (noncePoint_ok_iff hC hr).mpr ⟨hR, hx, hodd⟩
    by_cases hfirst : keyOf curve r s (curveMsgToBn C.toEcdsaCurve hash) (-R) = Q
    · refine ⟨0, ?_, ?_⟩
      · rw [getRecoveryCode_eq hC hr hs hash hneg, if_pos hfirst]
      · rw [← hfirst]
        exact recoverPubKey_eq hC hr hs hash hneg
    · refine ⟨1, ?_, ?_⟩
      · rw [getRecoveryCode_eq hC hr hs hash hneg, if_neg hfirst, neg_neg, if_pos hQ]
      · rw [← hQ]
        exact recoverPubKey_eq hC hr hs hash hpoint

/-- The recovery of a key and the verification of signatures are inverse to each other, on the
signatures whose `s` the verification lets through. -/
theorem recoverPubKey_iff_valid (curve : Curve q E) (hC : C.Lawful q) :
    (∀ (hash : List (Fin 256)) (r s : ℤ) (Q : E),
      EcdsaValid curve C.toEcdsaCurve Q (curveMsgToBn C.toEcdsaCurve hash) r s →
      C.getX (ecdsaPoint curve Q (curveMsgToBn C.toEcdsaCurve hash : ZMod q) r s) < q →
      ∃ c, getRecoveryCode curve C r s hash Q = .ok c ∧ recoverPubKey curve C r s hash c = .ok Q) ∧
    (∀ (hash : List (Fin 256)) (r s c : ℤ) (Q : E),
      recoverPubKey curve C r s hash c = .ok Q → Q ≠ 0 →
      ((EcdsaValid curve C.toEcdsaCurve Q (curveMsgToBn C.toEcdsaCurve hash) r s ∧
        ∃ c', getRecoveryCode curve C r s hash Q = .ok c' ∧
          recoverPubKey curve C r s hash c' = .ok Q) ↔
      0 < s ∧ s < q)) := by
  constructor
  · intro hash r s Q hvalid hx
    obtain ⟨hr, hs, hne, hmod⟩ := hvalid
    rw [Int.emod_eq_of_lt (hC.getX_nonneg _) hx] at hmod
    exact recovered hC hr hs hash hne hmod
      ((ecdsaPoint_eq_iff (cast_ne_zero hr) (cast_ne_zero hs) _ _ _).mp rfl)
  · intro hash r s c Q hrec _
    constructor
    · rintro ⟨⟨-, hs, -⟩, -⟩
      exact hs
    · intro hs
      obtain ⟨-, hrec⟩ := require_bind_ok_iff.mp hrec
      obtain ⟨R, hpoint, hrec⟩ := bind_ok_iff.mp hrec
      obtain ⟨rInv, hinv, hkey⟩ := bind_ok_iff.mp hrec
      obtain ⟨hr, rfl⟩ := modInvCt_ok_iff.mp hinv
      obtain ⟨hne, hx, -⟩ := (noncePoint_ok_iff hC hr).mp hpoint
      have hQ : keyOf curve r s (curveMsgToBn C.toEcdsaCurve hash) R = Q := by
        rw [keyFromNonce_ok hkey, cast_residue, keyOf]
      have hR := (ecdsaPoint_eq_iff (cast_ne_zero hr) (cast_ne_zero hs) _ _ _).mpr hQ
      refine ⟨⟨hr, hs, ?_, ?_⟩, recovered hC hr hs hash hne hx hQ⟩
      · rwa [hR]
      · rw [hR, hx]
        exact Int.emod_eq_of_lt hr.1.le hr.2

section Examples

instance factPrime251 : Fact (Nat.Prime 251) := ⟨by norm_num⟩

/-- The group of the scalars themselves: a point and its negation share the smaller of their two
representatives. -/
def sampleRecoveryGroup : Curve 251 (ZMod 251) := ⟨[99], .ossl, 1, by decide⟩

def sampleGetX (P : ZMod 251) : ℤ := (min P.val (-P).val : ℕ)

def sampleOdd (P : ZMod 251) : Bool := decide (P.val % 2 = 1)

/-- The octets of a point other than zero. -/
def sampleToOct (P : ZMod 251) : Option (List (Fin 256)) :=
  if P = 0 then none else some (octPrefix (sampleOdd P) :: binPad 1 (min P.val (-P).val))

def sampleRecoveryCurve : RecoveryCurve (ZMod 251) where
  size := 1
  getX := sampleGetX
  toDer sig := [Fin.ofNat 256 sig.1.toNat, Fin.ofNat 256 sig.2.toNat]
  fromDer
    | [r, s] => some (r.val, s.val)
    | _ => none
  odd := sampleOdd
  fromOct oct := (List.finRange 251).find? (fun P =>
    decide (sampleToOct P = some oct)) |>.elim (fail .crypto) .ok

theorem val_neg_251 {P : ZMod 251} (h : P ≠ 0) : (-P).val = 251 - P.val := by
  rw [ZMod.neg_val, if_neg h]

theorem sampleOdd_neg {P : ZMod 251} (h : P ≠ 0) : sampleOdd (-P) = !sampleOdd P := by
  have hlt := ZMod.val_lt P
  rw [sampleOdd, sampleOdd, val_neg_251 h, ← decide_not]
  congr 1
  apply propext
  omega

/-- The x-coordinate and the parity determine the point. -/
theorem sample_injective {P Q : ZMod 251} (hP : P ≠ 0) (hQ : Q ≠ 0)
    (hx : sampleGetX P = sampleGetX Q) (hodd : sampleOdd P = sampleOdd Q) : P = Q := by
  have hltP := ZMod.val_lt P
  have hltQ := ZMod.val_lt Q
  rw [sampleOdd, sampleOdd, decide_eq_decide] at hodd
  rw [sampleGetX, sampleGetX, val_neg_251 hP, val_neg_251 hQ] at hx
  apply ZMod.val_injective
  omega

theorem octPrefix_injective {a b : Bool} (h : octPrefix a = octPrefix b) : a = b := by
  revert a b
  decide

theorem sampleToOct_iff {P : ZMod 251} {odd : Bool} {bytes : List (Fin 256)}
    (hlen : bytes.length = 1) :
    sampleToOct P = some (octPrefix odd :: bytes) ↔ P ≠ 0 ∧
    sampleGetX P = fromBin bytes ∧ sampleOdd P = odd := by
  have hlt := ZMod.val_lt P
  have hsmall : min P.val (-P).val < 256 ^ 1 := by omega
  have hbin : binPad 1 (min P.val (-P).val) = bytes ↔ min P.val (-P).val = fromBin bytes := by
    obtain ⟨b, rfl⟩ := List.length_eq_one_iff.mp hlen
    have hb : fromBin [b] = b.val := by simp [fromBin]
    constructor
    · intro h
      rw [← h, fromBin_binPad hsmall]
    · intro h
      rw [h, hb]
      simp [binPad]
  have hx : sampleGetX P = fromBin bytes ↔ min P.val (-P).val = fromBin bytes := Int.ofNat_inj
  rw [sampleToOct, hx]
  split_ifs with hP
  · exact iff_of_false (by rintro ⟨⟩) fun h => h.1 hP
  · rw [Option.some_inj, List.cons.injEq, hbin, and_comm, and_iff_right hP]
    exact and_congr_right fun _ => ⟨octPrefix_injective, congrArg octPrefix⟩

theorem sampleRecoveryCurve_lawful : sampleRecoveryCurve.Lawful 251 where
  getX_neg P := by
    show ((min (-P).val (-(-P)).val : ℕ) : ℤ) = (min P.val (-P).val : ℕ)
    rw [neg_neg, min_comm]
  fromDer_toDer r s hr hs := by
    rw [isInRange_iff] at hr hs
    have hbyte : ∀ n : ℤ, 0 ≤ n ∧ n < (251 : ℕ) → ((Fin.ofNat 256 n.toNat).val : ℤ) = n := by
      intro n hn
      rw [Fin.val_ofNat]
      omega
    show some (((Fin.ofNat 256 r.toNat).val : ℤ), ((Fin.ofNat 256 s.toNat).val : ℤ)) = some (r, s)
    rw [hbyte r hr, hbyte s hs]
  size_order := by decide
  size_le := by decide
  getX_nonneg P := Int.natCast_nonneg (min P.val (-P).val)
  odd_neg P hP := sampleOdd_neg hP
  fromOct_iff odd bytes P hlen := by
    refine Iff.trans ?_ (sampleToOct_iff hlen)
    show ((List.finRange 251).find? (fun P =>
      decide (sampleToOct P = some (octPrefix odd :: bytes)))).elim
      (fail .crypto) .ok = .ok P ↔ _
    cases hfind : (List.finRange 251).find? (fun P =>
      decide (sampleToOct P = some (octPrefix odd :: bytes))) with
    | none =>
      have hnot := List.find?_eq_none.mp hfind P (List.mem_finRange P)
      rw [decide_eq_true_eq] at hnot
      exact iff_of_false (by rintro ⟨⟩) hnot
    | some P' =>
      have hP' := List.find?_some hfind
      rw [decide_eq_true_eq] at hP'
      have hpoint' := (sampleToOct_iff hlen).mp hP'
      constructor
      · intro h
        cases h
        exact hP'
      · intro h
        have hpoint := (sampleToOct_iff hlen).mp h
        rw [sample_injective hpoint.1 hpoint'.1 (hpoint.2.1.trans hpoint'.2.1.symm)
          (hpoint.2.2.trans hpoint'.2.2.symm)]
        rfl

theorem recoverPubKey_iff_valid_sample :
    (∀ (hash : List (Fin 256)) (r s : ℤ) (Q : ZMod 251),
      EcdsaValid sampleRecoveryGroup sampleRecoveryCurve.toEcdsaCurve Q
        (curveMsgToBn sampleRecoveryCurve.toEcdsaCurve hash) r s →
      sampleGetX (ecdsaPoint sampleRecoveryGroup Q
        (curveMsgToBn sampleRecoveryCurve.toEcdsaCurve hash : ZMod 251) r s) < 251 →
      ∃ c, getRecoveryCode sampleRecoveryGroup sampleRecoveryCurve r s hash Q = .ok c ∧
        recoverPubKey sampleRecoveryGroup sampleRecoveryCurve r s hash c = .ok Q) ∧
    (∀ (hash : List (Fin 256)) (r s c : ℤ) (Q : ZMod 251),
      recoverPubKey sampleRecoveryGroup sampleRecoveryCurve r s hash c = .ok Q → Q ≠ 0 →
      ((EcdsaValid sampleRecoveryGroup sampleRecoveryCurve.toEcdsaCurve Q
          (curveMsgToBn sampleRecoveryCurve.toEcdsaCurve hash) r s ∧
        ∃ c', getRecoveryCode sampleRecoveryGroup sampleRecoveryCurve r s hash Q = .ok c' ∧
          recoverPubKey sampleRecoveryGroup sampleRecoveryCurve r s hash c' = .ok Q) ↔
      0 < s ∧ s < 251)) :=
  recoverPubKey_iff_valid sampleRecoveryGroup sampleRecoveryCurve_lawful

/-- With `s = 0` a key comes out, under which the signature does not verify. -/
theorem recoverPubKey_zero :
    ∃ Q, recoverPubKey sampleRecoveryGroup sampleRecoveryCurve 1 0 [5] 1 = .ok Q ∧ Q ≠ 0 ∧
      ¬EcdsaValid sampleRecoveryGroup sampleRecoveryCurve.toEcdsaCurve Q
        (curveMsgToBn sampleRecoveryCurve.toEcdsaCurve [5]) 1 0 := by
  have hpoint : noncePoint sampleRecoveryCurve 1 true = .ok (1 : ZMod 251) :=
    (noncePoint_ok_iff sampleRecoveryCurve_lawful (by decide)).mpr (by decide)
  have hinv : modInvCt 251 1 = .ok 1 :=
    modInvCt_ok_iff.mpr ⟨by decide, by rw [Int.cast_one, inv_one]; decide⟩
  refine ⟨-5, ?_, by decide, fun h => lt_irrefl _ h.2.1.1⟩
  show (noncePoint sampleRecoveryCurve 1 true >>= fun R => modInvCt 251 1 >>= fun rInv =>
    keyFromNonce sampleRecoveryGroup rInv 0 _ R) = _
  rw [hpoint, ok_bind, hinv, ok_bind]
  rfl

end Examples

end CbMpc
