import CbMpc.Messages
import CbMpc.Bytes
import CbMpc.Ecdsa

/-!
# Schnorr signatures

EdDSA on Ed25519 and BIP340 on secp256k1. BIP340 keeps the x-coordinates of the nonce's point and of
the key only, so every party turns its nonce round when the point's y-coordinate is odd, and the
challenge when the key's is.
-/
namespace CbMpc

/-- `variant_e`. -/
inductive SchnorrVariant where
  | eddsa | bip340
  deriving DecidableEq, Repr

/-- What signing and verifying read of a curve and its points. -/
structure SchnorrCurve (q : ℕ) (E : Type) [AddCommGroup E] where
  curve : Curve q E
  p : ℕ
  getX : E → ℤ
  getY : E → ℤ
  toCompressedBin : E → Bytes
  fromBin : Bytes → Outcome E

/-- The hash functions, and OpenSSL's `ED25519_verify` on a message, a signature and a public
key. -/
structure SchnorrHashes where
  sha256 : Bytes → Bytes
  sha512 : Bytes → Bytes
  ed25519Verify : Bytes → Bytes → Bytes → Bool
  length_sha256 : ∀ m, (sha256 m).length = 32
  length_sha512 : ∀ m, (sha512 m).length = 64

/-- `bn_t::is_odd`. -/
def isOdd (x : ℤ) : Bool := decide (x % 2 = 1)

/-- `"BIP0340/challenge"`. -/
def challengeTag : Bytes :=
  [66, 73, 80, 48, 51, 52, 48, 47, 99, 104, 97, 108, 108, 101, 110, 103, 101]

variable {q : ℕ} [hq : Fact q.Prime] {E : Type} [AddCommGroup E] [Module (ZMod q) E] [DecidableEq E]

section Functions

variable (H : SchnorrHashes) (C : SchnorrCurve q E)

/-- `bip340::hash`. -/
def bip340Hash (tag args : Bytes) : Bytes := H.sha256 (H.sha256 tag ++ H.sha256 tag ++ args)

/-- The hash in `bip340::hash_message`, before it is reduced. -/
def bip340Digest (rx : ℤ) (pubKey : E) (message : Bytes) : ℕ :=
  CbMpc.fromBin (bip340Hash H challengeTag
    (binPad 32 rx.natAbs ++ binPad 32 (C.getX pubKey).natAbs ++ message))

/-- `bip340::hash_message`. -/
def hashMessage (rx : ℤ) (pubKey : E) (message : Bytes) : Outcome ℤ := do
  let rxBin ← toBin rx 32
  let xBin ← toBin (C.getX pubKey) 32
  modReduce q (CbMpc.fromBin (bip340Hash H challengeTag (rxBin ++ xBin ++ message)))

/-- `bip340::verify`. -/
def bip340Verify (pubKey : E) (m sig : Bytes) : Outcome Unit := do
  require (decide (sig.length = 64)) .badArg
  require (decide (m.length = 32)) .badArg
  require (decide (C.curve.type = .bitcoin)) .badArg
  let r : ℤ := CbMpc.fromBin (sig.take 32)
  require (decide (r < C.p)) .crypto
  let s : ℤ := CbMpc.fromBin (sig.drop 32)
  require (decide (s < q)) .crypto
  let Q ← C.fromBin ((C.toCompressedBin pubKey).set 0 2)
  let e ← hashMessage H C r Q m
  let sG ← C.curve.mulToGenerator s
  let eQ ← C.curve.mul e Q
  let R := sG - eQ
  require (decide (R ≠ 0)) .crypto
  require (!isOdd (C.getY R)) .crypto
  require (decide (r = C.getX R)) .crypto

/-- The hash in `calc_eddsa_HRAM`, before it is reduced. -/
def eddsaDigest (R Q : E) (m : Bytes) : ℕ :=
  CbMpc.fromBin (H.sha512 (C.toCompressedBin R ++ C.toCompressedBin Q ++ m)).reverse

/-- `calc_eddsa_HRAM`. -/
def calcEddsaHRAM (R Q : E) (m : Bytes) : Outcome ℤ := modReduce q (eddsaDigest H C R Q m)

/-- `ecurve_ed_t::verify`. -/
def eddsaVerify (pubKey : E) (m sig : Bytes) : Outcome Unit := do
  require (decide (sig.length = 64)) .format
  require (H.ed25519Verify m sig (C.toCompressedBin pubKey)) .crypto

/-- The challenge for one message, and the nonce as it enters the signature. -/
def nonceAndChallenge (variant : SchnorrVariant) (Q R : E) (msg : Bytes)
    (k : ℤ) : Outcome (ℤ × ℤ) :=
  match variant with
  | .eddsa => do
    let e ← calcEddsaHRAM H C R Q msg
    .ok (k, e)
  | .bip340 => do
    require (decide (msg.length = 32)) .badArg
    let e ← hashMessage H C (C.getX R) Q msg
    .ok (if isOdd (C.getY R) then q - k else k, if isOdd (C.getY Q) then q - e else e)

/-- The curve that a variant is for. -/
def SchnorrVariant.curveType : SchnorrVariant → CurveType
  | eddsa => .ed25519
  | bip340 => .bitcoin

/-- The nonces and challenges of a batch, with the points and the nonces by their index. -/
def batchChallenges (variant : SchnorrVariant) (Q : E) (msgs : List Bytes) (R : ℕ → E) (k : ℕ → ℤ) :
    Outcome (List (ℤ × ℤ)) := do
  require (decide (C.curve.type = variant.curveType)) .badArg
  msgs.zipIdx.mapM fun m => nonceAndChallenge H C variant Q (R m.2) m.1 (k m.2)

/-- A signature: the nonce's point and the scalar. -/
def candidateSig (R : E) (s : ℤ) : Outcome Bytes :=
  match C.curve.type with
  | .ed25519 => do
    let sBin ← toBin s 32
    .ok (C.toCompressedBin R ++ sBin.reverse)
  | .bitcoin => do
    let rxBin ← toBin (C.getX R) 32
    let sBin ← toBin s 32
    .ok (rxBin ++ sBin)
  | .ossl => throwing .assertionFailed

def verifySig (Q : E) (msg sig : Bytes) : Outcome Unit :=
  match C.curve.type with
  | .ed25519 => eddsaVerify H C Q msg sig
  | .bitcoin => bip340Verify H C Q msg sig
  | .ossl => throwing .assertionFailed

/-- A signature is given out when it verifies. -/
def checkedSig (Q R : E) (msg : Bytes) (s : ℤ) : Outcome Bytes := do
  let sig ← candidateSig C R s
  verifySig H C Q msg sig
  .ok sig

end Functions

/-- The variable of the caller that takes the signatures: cleared first, assigned last. -/
def clearedUntilDone (_sigs : List Bytes) (body : Outcome (List Bytes)) :
    List Bytes × Outcome Unit :=
  match body with
  | .ok sigs => (sigs, .ok ())
  | .error e => ([], .error e)

/-- What secp256k1 is relied on for. -/
structure SchnorrCurve.Secp256k1 (C : SchnorrCurve q E) : Prop where
  type : C.curve.type = .bitcoin
  p_odd : C.p % 2 = 1
  p_le : C.p ≤ 256 ^ 32
  order_le : q ≤ 256 ^ 32
  getX_range : ∀ P, P ≠ 0 → 0 ≤ C.getX P ∧ C.getX P < C.p
  getX_zero : C.getX 0 = 0
  getY_zero : C.getY 0 = 0
  getX_neg : ∀ P, C.getX (-P) = C.getX P
  getY_neg : ∀ P, P ≠ 0 → C.getY (-P) = C.p - C.getY P
  compressed : ∀ P, P ≠ 0 →
    (C.toCompressedBin P) = (if isOdd (C.getY P) then 3 else 2) :: binPad 32 (C.getX P).natAbs
  compressed_zero : C.toCompressedBin 0 = List.replicate 33 0
  /-- The point with this x-coordinate and an even y-coordinate. -/
  fromBin_even : ∀ P, P ≠ 0 → isOdd (C.getY P) = false →
    C.fromBin (2 :: binPad 32 (C.getX P).natAbs) = .ok P
  fromBin_zero : C.fromBin (2 :: List.replicate 32 0) = fail .crypto

/-- What Ed25519 and its verifier are relied on for. -/
structure SchnorrCurve.Ed25519 (H : SchnorrHashes) (C : SchnorrCurve q E) : Prop where
  type : C.curve.type = .ed25519
  order_le : q ≤ 256 ^ 32
  length_compressed : ∀ P, (C.toCompressedBin P).length = 32
  verify : ∀ (m : Bytes) (R Q : E) (s : ℕ), s < q →
    (s : ZMod q) • C.curve.generator = R + (eddsaDigest H C R Q m : ZMod q) • Q →
    H.ed25519Verify m (C.toCompressedBin R ++ (binPad 32 s).reverse) (C.toCompressedBin Q) = true

/-- The curve of a variant. -/
def SchnorrCurve.Lawful (H : SchnorrHashes) (C : SchnorrCurve q E) : SchnorrVariant → Prop
  | .eddsa => C.Ed25519 H
  | .bip340 => C.Secp256k1

section Parity

/-- The one of a point and its negation with an even y-coordinate. -/
def SchnorrCurve.evenY (C : SchnorrCurve q E) (P : E) : E := if isOdd (C.getY P) then -P else P

variable {C : SchnorrCurve q E}

section

omit hq [Module (ZMod q) E] [DecidableEq E]

theorem SchnorrCurve.Secp256k1.isOdd_neg (hC : C.Secp256k1) {P : E} (hP : P ≠ 0) :
    isOdd (C.getY (-P)) = !isOdd (C.getY P) := by
  have hp := hC.p_odd
  rw [hC.getY_neg P hP, isOdd, isOdd, ← decide_not, decide_eq_decide]
  omega

theorem SchnorrCurve.Secp256k1.isOdd_evenY (hC : C.Secp256k1) {P : E} (hP : P ≠ 0) :
    isOdd (C.getY (C.evenY P)) = false := by
  by_cases h : isOdd (C.getY P) = true
  · rw [SchnorrCurve.evenY, if_pos h, hC.isOdd_neg hP, h]
    rfl
  · rw [SchnorrCurve.evenY, if_neg h]
    exact Bool.eq_false_iff.mpr h

theorem SchnorrCurve.Secp256k1.getX_evenY (hC : C.Secp256k1) (P : E) :
    C.getX (C.evenY P) = C.getX P := by
  rw [SchnorrCurve.evenY]
  split
  · exact hC.getX_neg P
  · rfl

theorem SchnorrCurve.evenY_ne_zero {P : E} (hP : P ≠ 0) : C.evenY P ≠ 0 := by
  rw [SchnorrCurve.evenY]
  split
  · exact neg_ne_zero.mpr hP
  · exact hP

/-- `lift_x` of a point's x-coordinate. -/
theorem SchnorrCurve.Secp256k1.lift_x (hC : C.Secp256k1) {P : E} (hP : P ≠ 0) :
    C.fromBin (2 :: binPad 32 (C.getX P).natAbs) = .ok (C.evenY P) := by
  rw [← hC.getX_evenY P]
  exact hC.fromBin_even _ (SchnorrCurve.evenY_ne_zero hP) (hC.isOdd_evenY hP)

/-- The verifier reads the key as the point with its x-coordinate and an even y-coordinate. -/
theorem SchnorrCurve.Secp256k1.fromBin_set (hC : C.Secp256k1) {P : E} (hP : P ≠ 0) :
    C.fromBin ((C.toCompressedBin P).set 0 2) = .ok (C.evenY P) := by
  rw [hC.compressed P hP, List.set_cons_zero]
  exact hC.lift_x hP

/-- Infinity has no x-coordinate that the verifier could lift. -/
theorem SchnorrCurve.Secp256k1.fromBin_set_zero (hC : C.Secp256k1) :
    C.fromBin ((C.toCompressedBin 0).set 0 2) = fail .crypto := by
  rw [hC.compressed_zero]
  exact hC.fromBin_zero

end

end Parity

section Signing

variable {H : SchnorrHashes} {C : SchnorrCurve q E}

omit hq [Module (ZMod q) E] in
theorem SchnorrCurve.Secp256k1.getX_lt (hC : C.Secp256k1) (P : E) :
    (C.getX P).natAbs < 256 ^ 32 := by
  have hp := hC.p_le
  by_cases hP : P = 0
  · rw [hP, hC.getX_zero]
    norm_num
  · obtain ⟨h0, hlt⟩ := hC.getX_range P hP
    omega

theorem toBin_of_lt {x : ℤ} {size : ℕ} (h : x.natAbs < 256 ^ size) :
    toBin x size = .ok (binPad size x.natAbs) := by
  have hsize : getBinSize x ≤ size := by
    have hbits : x.natAbs < 2 ^ (8 * size) := by rwa [pow_mul]
    have := Nat.size_le.mpr hbits
    rw [getBinSize, bitsToBytes]
    omega
  rw [toBin, decide_eq_true hsize, cbAssert_true, ok_bind]

theorem modReduce_fromBin {bytes : Bytes} (h : bytes.length ≤ 64) :
    modReduce q (CbMpc.fromBin bytes) = .ok (residue (CbMpc.fromBin bytes : ZMod q)) := by
  have hlt : (CbMpc.fromBin bytes : ℤ) < 2 ^ (8 * bytes.length) := by
    have hnat := Int.ofNat_lt.mpr (fromBin_lt bytes)
    rw [pow_mul]
    rwa [Nat.cast_pow, Nat.cast_ofNat] at hnat
  have hlt :=
    lt_of_lt_of_le hlt (pow_le_pow_right₀ (by norm_num) (by omega : 8 * bytes.length ≤ 4096))
  rw [modReduce_eq_emod hq.out.two_le (Int.natCast_nonneg _) hlt, emod_eq_residue, Int.cast_natCast]

omit [Module (ZMod q) E] in
theorem SchnorrCurve.Secp256k1.hashMessage_eq (hC : C.Secp256k1) (R Q : E) (m : Bytes) :
    hashMessage H C (C.getX R) Q m = .ok (residue (bip340Digest H C (C.getX R) Q m : ZMod q)) := by
  rw [hashMessage, toBin_of_lt (hC.getX_lt R), ok_bind, toBin_of_lt (hC.getX_lt Q), ok_bind]
  exact modReduce_fromBin (by rw [bip340Hash, H.length_sha256]; norm_num)

omit [Module (ZMod q) E] [DecidableEq E] in
theorem calcEddsaHRAM_eq (R Q : E) (m : Bytes) :
    calcEddsaHRAM H C R Q m = .ok (residue (eddsaDigest H C R Q m : ZMod q)) := by
  refine modReduce_fromBin ?_
  rw [List.length_reverse, H.length_sha512]

variable (H C)

/-- The challenge as a scalar. -/
def schnorrChallenge (variant : SchnorrVariant) (Q R : E) (msg : Bytes) : ZMod q :=
  match variant with
  | .eddsa => eddsaDigest H C R Q msg
  | .bip340 => bip340Digest H C (C.getX R) Q msg

/-- A scalar that goes with a point: BIP340 turns it round when the y-coordinate is odd. -/
def turned (variant : SchnorrVariant) (P : E) (z : ZMod q) : ZMod q :=
  if variant = .bip340 ∧ isOdd (C.getY P) = true then -z else z

variable {H C}

omit [Module (ZMod q) E] [DecidableEq E] in
@[simp] theorem turned_eddsa (P : E) (z : ZMod q) : turned C .eddsa P z = z := by simp [turned]

theorem sub_residue {z : ZMod q} (hz : z ≠ 0) : (q : ℤ) - residue z = residue (-z) := by
  have hrange := residue_pos hz
  have hin : isInRange q ((q : ℤ) - residue z) = true := (isInRange_iff _).mpr ⟨by omega, by omega⟩
  rw [eq_residue_of_isInRange hin]
  push_cast
  rw [cast_residue, ZMod.natCast_self, zero_sub]

omit [Module (ZMod q) E] [DecidableEq E] in
theorem turned_residue {P : E} {z : ZMod q} (hz : z ≠ 0) :
    (if isOdd (C.getY P) then (q : ℤ) - residue z else residue z) =
      residue (turned C .bip340 P z) := by
  by_cases h : isOdd (C.getY P) = true
  · rw [if_pos h, turned, if_pos ⟨rfl, h⟩, sub_residue hz]
  · rw [if_neg h, turned, if_neg fun hc => h hc.2]

/-- What every party computes for one message. -/
theorem nonceAndChallenge_eq {variant : SchnorrVariant} (hC : C.Lawful H variant) {Q R : E}
    {msg : Bytes} {k : ZMod q} (hmsg : variant = .bip340 → msg.length = 32) (hk : k ≠ 0)
    (he : schnorrChallenge (q := q) H C variant Q R msg ≠ 0) :
    nonceAndChallenge H C variant Q R msg (residue k) =
      .ok (residue (turned C variant R k),
        residue (turned C variant Q (schnorrChallenge H C variant Q R msg))) := by
  cases variant with
  | eddsa =>
    rw [nonceAndChallenge, calcEddsaHRAM_eq, ok_bind, turned_eddsa, turned_eddsa]
    rfl
  | bip340 =>
    have hR := turned_residue (C := C) (P := R) hk
    have hQ := turned_residue (C := C) (P := Q) he
    rw [nonceAndChallenge, decide_eq_true (hmsg rfl), require_true, ok_bind,
      SchnorrCurve.Secp256k1.hashMessage_eq hC, ok_bind, hR]
    exact congrArg _ (congrArg _ hQ)

omit [Module (ZMod q) E] [DecidableEq E] in
theorem turned_sum {ι : Type} (variant : SchnorrVariant) (P : E) (s : Finset ι) (f : ι → ZMod q) :
    turned C variant P (∑ i ∈ s, f i) = ∑ i ∈ s, turned C variant P (f i) := by
  simp only [turned]
  split
  · exact (Finset.sum_neg_distrib f).symm
  · rfl

/-- The scalar of the signature, from the secret key and the sum of the nonces. -/
def schnorrScalar (H : SchnorrHashes) (C : SchnorrCurve q E) (variant : SchnorrVariant)
    (x k : ZMod q) (msg : Bytes) : ZMod q :=
  turned C variant (x • C.curve.generator)
      (schnorrChallenge H C variant (x • C.curve.generator) (k • C.curve.generator) msg) * x +
    turned C variant (k • C.curve.generator) k

section

omit [DecidableEq E]

/-- Ed25519: `s * G = R + e * Q`. -/
theorem schnorrScalar_eddsa (x k : ZMod q) (msg : Bytes) :
    schnorrScalar H C .eddsa x k msg • C.curve.generator = k • C.curve.generator +
      schnorrChallenge (q := q) H C .eddsa (x • C.curve.generator) (k • C.curve.generator) msg •
        x • C.curve.generator := by
  rw [schnorrScalar, turned_eddsa, turned_eddsa, add_smul, mul_smul, add_comm]

theorem turned_smul (z w : ZMod q) :
    turned C .bip340 (w • C.curve.generator) z • w • C.curve.generator =
      z • C.evenY (w • C.curve.generator) := by
  rw [turned, SchnorrCurve.evenY]
  by_cases h : isOdd (C.getY (w • C.curve.generator)) = true
  · rw [if_pos ⟨rfl, h⟩, if_pos h, neg_smul, smul_neg]
  · rw [if_neg fun hc => h hc.2, if_neg h]

theorem turned_smul_generator (w : ZMod q) :
    turned C .bip340 (w • C.curve.generator) w • C.curve.generator =
      C.evenY (w • C.curve.generator) := by
  have h := turned_smul (C := C) 1 w
  rw [one_smul] at h
  rw [← h, smul_smul]
  congr 1
  rw [turned, turned]
  split
  · rw [neg_one_mul]
  · rw [one_mul]

/-- BIP340: `s * G = lift_x(R.x) + e * lift_x(Q.x)`. -/
theorem schnorrScalar_bip340 (x k : ZMod q) (msg : Bytes) :
    schnorrScalar H C .bip340 x k msg • C.curve.generator = C.evenY (k • C.curve.generator) +
      schnorrChallenge (q := q) H C .bip340 (x • C.curve.generator) (k • C.curve.generator) msg •
        C.evenY (x • C.curve.generator) := by
  rw [schnorrScalar, add_smul, mul_smul, turned_smul, turned_smul_generator, add_comm]

end

/-- The bytes of a signature. -/
def schnorrSig (C : SchnorrCurve q E) (variant : SchnorrVariant) (R : E) (s : ZMod q) : Bytes :=
  match variant with
  | .eddsa => C.toCompressedBin R ++ (binPad 32 s.val).reverse
  | .bip340 => binPad 32 (C.getX R).natAbs ++ binPad 32 s.val

theorem toBin_residue (hle : q ≤ 256 ^ 32) (s : ZMod q) :
    toBin (residue s) 32 = .ok (binPad 32 s.val) := by
  have habs : (residue s).natAbs = s.val := Int.natAbs_natCast s.val
  rw [toBin_of_lt (by rw [habs]; exact lt_of_lt_of_le s.val_lt hle), habs]

theorem checkedSig_eddsa (hC : C.Ed25519 H) {Q R : E} {s : ZMod q} {msg : Bytes}
    (hs : s • C.curve.generator = R + schnorrChallenge (q := q) H C .eddsa Q R msg • Q) :
    checkedSig H C Q R msg (residue s) = .ok (schnorrSig C .eddsa R s) := by
  have hlen : (schnorrSig C .eddsa R s).length = 64 := by
    rw [schnorrSig, List.length_append, hC.length_compressed, List.length_reverse, length_binPad]
  have hver : H.ed25519Verify msg (schnorrSig C .eddsa R s) (C.toCompressedBin Q) = true := by
    refine hC.verify msg R Q s.val s.val_lt ?_
    rwa [ZMod.natCast_zmod_val]
  have hcand : candidateSig C R (residue s) = .ok (schnorrSig C .eddsa R s) := by
    simp only [candidateSig, hC.type, toBin_residue hC.order_le, ok_bind]
    rfl
  simp only [checkedSig, hcand, ok_bind, verifySig, hC.type, eddsaVerify, hlen, hver, decide_true,
    require_true]

omit hq [Module (ZMod q) E] in
theorem natAbs_getX (hC : C.Secp256k1) (P : E) : ((C.getX P).natAbs : ℤ) = C.getX P := by
  by_cases hP : P = 0
  · rw [hP, hC.getX_zero]
    rfl
  · exact Int.natAbs_of_nonneg (hC.getX_range P hP).1

omit [Module (ZMod q) E] in
theorem candidateSig_bip340 (hC : C.Secp256k1) (R : E) (s : ZMod q) :
    candidateSig C R (residue s) = .ok (schnorrSig C .bip340 R s) := by
  simp only [candidateSig, hC.type, toBin_of_lt (hC.getX_lt R), toBin_residue hC.order_le, ok_bind]
  rfl

/-- What the verifier does with a signature that was put together from a point and a scalar. -/
theorem bip340Verify_schnorrSig (hC : C.Secp256k1) (Q : E) {R : E} (hR : R ≠ 0)
    (s : ZMod q) {msg : Bytes} (hmsg : msg.length = 32) :
    bip340Verify H C Q msg (schnorrSig C .bip340 R s) = (do
      let P ← C.fromBin ((C.toCompressedBin Q).set 0 2)
      let e ← hashMessage H C (C.getX R) P msg
      let sG ← C.curve.mulToGenerator (residue s)
      let eP ← C.curve.mul e P
      require (decide (sG - eP ≠ 0)) .crypto
      require (!isOdd (C.getY (sG - eP))) .crypto
      require (decide (C.getX R = C.getX (sG - eP))) .crypto) := by
  have hlen : (schnorrSig C .bip340 R s).length = 64 := by
    rw [schnorrSig, List.length_append, length_binPad, length_binPad]
  have hr : (CbMpc.fromBin ((schnorrSig C .bip340 R s).take 32) : ℤ) = C.getX R := by
    rw [schnorrSig, List.take_left' (length_binPad _ _), fromBin_binPad (hC.getX_lt R),
      natAbs_getX hC]
  have hs : (CbMpc.fromBin ((schnorrSig C .bip340 R s).drop 32) : ℤ) = residue s := by
    rw [schnorrSig, List.drop_left' (length_binPad _ _),
      fromBin_binPad (lt_of_lt_of_le s.val_lt hC.order_le)]
    rfl
  have hlt := (hC.getX_range R hR).2
  have hsq := ((isInRange_iff _).mp (isInRange_residue s)).2
  simp only [bip340Verify, hlen, hmsg, hC.type, decide_true, require_true, ok_bind, hr,
    hlt, hs, hsq]

theorem bip340Verify_eq (hC : C.Secp256k1) {Q R : E} (hQ : Q ≠ 0) (hR : R ≠ 0)
    {s : ZMod q} {msg : Bytes} (hmsg : msg.length = 32)
    (hs : s • C.curve.generator =
      C.evenY R + schnorrChallenge (q := q) H C .bip340 Q R msg • C.evenY Q) :
    bip340Verify H C Q msg (schnorrSig C .bip340 R s) = .ok () := by
  have hdigest : bip340Digest H C (C.getX R) (C.evenY Q) msg =
      bip340Digest H C (C.getX R) Q msg := by
    rw [bip340Digest, bip340Digest, hC.getX_evenY]
  have hpoint : s • C.curve.generator - (bip340Digest H C (C.getX R) Q msg : ZMod q) •
      C.evenY Q = C.evenY R := by
    rw [hs]
    exact add_sub_cancel_right _ _
  have hmul : C.curve.mul (residue (bip340Digest H C (C.getX R) Q msg : ZMod q)) (C.evenY Q) =
      .ok ((bip340Digest H C (C.getX R) Q msg : ZMod q) • C.evenY Q) := by
    simp only [Curve.mul, hC.type, modReduce_of_isInRange (isInRange_residue _), ok_bind,
      cast_residue]
  simp only [bip340Verify_schnorrSig hC Q hR s hmsg, hC.fromBin_set hQ, ok_bind,
    hC.hashMessage_eq, hdigest, mulToGenerator_residue, hmul, hpoint, SchnorrCurve.evenY_ne_zero hR,
    hC.isOdd_evenY hR, hC.getX_evenY, ne_eq, not_false_eq_true, decide_true, Bool.not_false,
    require_true]

theorem checkedSig_bip340 (hC : C.Secp256k1) {Q R : E} (hQ : Q ≠ 0) (hR : R ≠ 0)
    {s : ZMod q} {msg : Bytes} (hmsg : msg.length = 32)
    (hs : s • C.curve.generator =
      C.evenY R + schnorrChallenge (q := q) H C .bip340 Q R msg • C.evenY Q) :
    checkedSig H C Q R msg (residue s) = .ok (schnorrSig C .bip340 R s) := by
  rw [checkedSig, candidateSig_bip340 hC, ok_bind, verifySig, hC.type]
  simp only [bip340Verify_eq hC hQ hR hmsg hs, ok_bind]

/-- For a key at infinity the verifier finds no point with the x-coordinate of the key. -/
theorem checkedSig_infinity (hC : C.Secp256k1) {R : E} (hR : R ≠ 0) {s : ZMod q} {msg : Bytes}
    (hmsg : msg.length = 32) :
    checkedSig H C 0 R msg (residue s) = fail .crypto := by
  rw [checkedSig, candidateSig_bip340 hC, ok_bind, verifySig, hC.type]
  simp only [bip340Verify_schnorrSig hC 0 hR s hmsg, hC.fromBin_set_zero]
  rfl

/-- The aggregated signature verifies, whatever the parities of the two y-coordinates are. -/
theorem checkedSig_schnorrScalar {variant : SchnorrVariant} (hC : C.Lawful H variant)
    {x k : ZMod q} {msg : Bytes} (hmsg : variant = .bip340 → msg.length = 32)
    (hx : variant = .bip340 → x ≠ 0) (hk : k ≠ 0) :
    checkedSig H C (x • C.curve.generator) (k • C.curve.generator) msg
      (residue (schnorrScalar H C variant x k msg)) =
      .ok (schnorrSig C variant (k • C.curve.generator) (schnorrScalar H C variant x k msg)) := by
  cases variant with
  | eddsa => exact checkedSig_eddsa hC (schnorrScalar_eddsa x k msg)
  | bip340 =>
    have hne : ∀ {w : ZMod q}, w ≠ 0 → w • C.curve.generator ≠ 0 := fun hw h =>
      hw ((smul_generator_eq_zero C.curve).mp h)
    exact checkedSig_bip340 hC (hne (hx rfl)) (hne hk) (hmsg rfl) (schnorrScalar_bip340 x k msg)

end Signing

end CbMpc
