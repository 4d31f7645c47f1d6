import CbMpc.Feldman
import CbMpc.Messages

/-!
# Threshold decryption

A TDH2 ciphertext carries a proof that its two points have one discrete logarithm, and so does
each partial decryption against the public share of its party. The partial decryptions are
combined in the exponent with the weights that combine the public shares to the key.
-/
namespace CbMpc

open Node

/-- The hash functions, and AES-GCM with the arguments key, iv, label and text. -/
structure Tdh2Oracles (E : Type) where
  hashCurve : E → Bytes → E
  hashString : E → Bytes
  hashCiphertext : Bytes → Bytes → WirePoint E → E → WirePoint E → E → Bytes → ℕ
  hashPartial : WirePoint E → E → E → ℕ
  aesGcmEncrypt : Bytes → Bytes → Bytes → Bytes → Bytes
  aesGcmDecrypt : Bytes → Bytes → Bytes → Bytes → Outcome Bytes

/-- Hashing to the curve does not hit infinity, and decryption with the right key, iv and label
gives the text back. -/
structure Tdh2Oracles.Lawful {E : Type} [Zero E] (o : Tdh2Oracles E) : Prop where
  hashCurve_ne_zero : ∀ Q sid, o.hashCurve Q sid ≠ 0
  decrypt_encrypt : ∀ key iv label plain,
    o.aesGcmDecrypt key iv label (o.aesGcmEncrypt key iv label plain) = .ok plain

/-- `tdh2::iv_size`. -/
def tdh2IvSize : ℕ := 16

/-- `public_key_t`. -/
structure Tdh2PublicKey (E : Type) where
  Q : E
  Gamma : E
  sid : Bytes

/-- `ciphertext_t`. -/
structure Tdh2Ciphertext (E : Type) where
  c : Bytes
  iv : Bytes
  R1 : WirePoint E
  R2 : WirePoint E
  e : ℤ
  f : ℤ
  L : Bytes
  deriving DecidableEq

/-- `partial_decryption_t`. -/
structure PartialDecryption (E : Type) where
  rid : ℤ
  Xi : WirePoint E
  ei : ℤ
  fi : ℤ
  deriving DecidableEq

variable {q n : ℕ} [hq : Fact q.Prime] {E : Type} [AddCommGroup E]
  [Module (ZMod q) E] [DecidableEq E]

section Functions

variable (o : Tdh2Oracles E) (curve : Curve q E) (pub : Tdh2PublicKey E) (label : Bytes)

/-- The constructor of `public_key_t`. -/
def tdh2PublicKey (Q : E) (sid : Bytes) : Tdh2PublicKey E := ⟨Q, o.hashCurve Q sid, sid⟩

/-- `public_key_t::encrypt`. -/
def tdh2Encrypt (plain : Bytes) (r s : ℤ) (iv : Bytes) : Outcome (Tdh2Ciphertext E) := do
  let P ← curve.mul r pub.Q
  let c := o.aesGcmEncrypt (o.hashString P) iv label plain
  let R1 ← curve.mulToGenerator r
  let W1 ← curve.mulToGenerator s
  let R2 ← curve.mul r pub.Gamma
  let W2 ← curve.mul s pub.Gamma
  let e : ℤ := o.hashCiphertext c label (.on R1) W1 (.on R2) W2 iv % q
  let re ← modMul false q r e
  let f ← modAdd false q s re
  .ok ⟨c, iv, .on R1, .on R2, e, f, label⟩

/-- `ciphertext_t::verify`. -/
def tdh2Verify (ct : Tdh2Ciphertext E) : Outcome Unit := do
  require (decide (label = ct.L)) .crypto
  require (decide (ct.iv.length = tdh2IvSize)) .crypto
  require (isInRange q ct.e && isInRange q ct.f) .crypto
  let R1 ← curveCheck false ct.R1
  let R2 ← curveCheck false ct.R2
  require (decide (pub.Gamma = o.hashCurve pub.Q pub.sid)) .crypto
  let fG ← curve.mulToGenerator ct.f
  let eR1 ← curve.mul ct.e R1
  let fGamma ← curve.mul ct.f pub.Gamma
  let eR2 ← curve.mul ct.e R2
  let eTest : ℤ := o.hashCiphertext ct.c label ct.R1 (fG - eR1) ct.R2 (fGamma - eR2) ct.iv % q
  require (decide (eTest = ct.e)) .crypto

/-- `private_share_t::decrypt` with the share `x` and the coins `si`. -/
def tdh2PartialDecrypt (x rid : ℤ) (ct : Tdh2Ciphertext E) (si : ℤ) :
    Outcome (PartialDecryption E) := do
  tdh2Verify o curve pub label ct
  let Xi ← curve.mul x ct.R1.point
  let Yi ← curve.mul si ct.R1.point
  let Zi ← curve.mulToGenerator si
  let ei : ℤ := o.hashPartial (.on Xi) Yi Zi % q
  let xe ← modMul false q x ei
  let fi ← modAdd false q si xe
  .ok ⟨rid, .on Xi, ei, fi⟩

/-- `ciphertext_t::decrypt`. -/
def tdh2Decrypt (ct : Tdh2Ciphertext E) (V : E) : Outcome Bytes :=
  o.aesGcmDecrypt (o.hashString V) ct.iv label ct.c

/-- `check_partial_decryption_helper`. -/
def checkPartialDecryption (Qi : WirePoint E) (ct : Tdh2Ciphertext E)
    (pd : PartialDecryption E) : Outcome Unit := do
  let Qi ← curveCheck false Qi
  let Xi ← curveCheck false pd.Xi
  require (isInRange q pd.ei && isInRange q pd.fi) .crypto
  let fR1 ← curve.mul pd.fi ct.R1.point
  let eXi ← curve.mul pd.ei Xi
  let fG ← curve.mulToGenerator pd.fi
  let eQi ← curve.mul pd.ei Qi
  let eiTest : ℤ := o.hashPartial pd.Xi (fR1 - eXi) (fG - eQi) % q
  require (decide (pd.ei = eiTest)) .crypto

/-- One turn of the loop of `combine_additive`, on `V` and `seen_rids`. -/
def additiveTurn (Qi : List (WirePoint E)) (ct : Tdh2Ciphertext E) (acc : E × List ℤ)
    (pd : PartialDecryption E) :
    Outcome (E × List ℤ) := do
  require (decide (¬(pd.rid < 1 ∨ pd.rid > Qi.length))) .crypto
  require (decide (pd.rid ∉ acc.2)) .crypto
  checkPartialDecryption o curve (Qi.getD (pd.rid.toNat - 1) (.on 0)) ct pd
  .ok (acc.1 + pd.Xi.point, pd.rid :: acc.2)

/-- `combine_additive` up to the point `V`. -/
def combineAdditivePoint (Qi : List (WirePoint E)) (pds : List (PartialDecryption E))
    (ct : Tdh2Ciphertext E) :
    Outcome E := do
  let reconstructed ← Qi.foldlM (fun sum Q => do
    let Q ← curveCheck false Q
    .ok (sum + Q)) 0
  require (decide (reconstructed = pub.Q)) .crypto
  require (decide (pds.length = Qi.length)) .crypto
  tdh2Verify o curve pub label ct
  let out ← pds.foldlM (additiveTurn o curve Qi ct) (0, [])
  .ok out.1

/-- `combine_additive`. -/
def combineAdditive (Qi : List (WirePoint E)) (pds : List (PartialDecryption E))
    (ct : Tdh2Ciphertext E) :
    Outcome Bytes := do
  let V ← combineAdditivePoint o curve pub label Qi pds ct
  tdh2Decrypt o label ct V

/-- `selected_pub_shares`. -/
def selectPubShares (pubShares : OrderedMap PName (WirePoint E))
    (pds : OrderedMap PName (PartialDecryption E)) :
    Outcome (OrderedMap PName (WirePoint E)) :=
  pds.keys.foldlM (fun selected name =>
    match pubShares.find name with
    | none => fail .crypto
    | some P => .ok (selected.insert name P)) .empty

/-- `selected_pub_shares.at(name)`. -/
def pubShareAt (selected : OrderedMap PName (WirePoint E)) (name : PName) : Outcome (WirePoint E) :=
  match selected.find name with
  | none => throwing .outOfRange
  | some P => .ok P

/-- `combine` up to the point `V`. -/
def combinePoint (pid : PName → ℕ) (ac : Node) (pubShares : OrderedMap PName (WirePoint E))
    (pds : OrderedMap PName (PartialDecryption E)) (ct : Tdh2Ciphertext E) : Outcome E := do
  require (ac.enoughForQuorum pds.keys.toFinset) .crypto
  tdh2Verify o curve pub label ct
  let selected ← selectPubShares pubShares pds
  let reconstructed ← reconstructExponentChecked q pid ac selected
  require (decide (reconstructed = pub.Q)) .crypto
  forEach (fun p => do
    let Qi ← pubShareAt selected p.1
    checkPartialDecryption o curve Qi ct p.2
    curveCheck false p.2.Xi >>= fun _ => .ok ()) pds.entries
  reconstructExponentChecked q pid ac (pds.mapValues PartialDecryption.Xi)

/-- `combine`. -/
def combine (pid : PName → ℕ) (ac : Node) (pubShares : OrderedMap PName (WirePoint E))
    (pds : OrderedMap PName (PartialDecryption E)) (ct : Tdh2Ciphertext E) : Outcome Bytes := do
  let V ← combinePoint o curve pub label pid ac pubShares pds ct
  tdh2Decrypt o label ct V

end Functions

variable {o : Tdh2Oracles E} {curve : Curve q E} {pub : Tdh2PublicKey E} {label : Bytes}

section Honest

theorem emod_residue (a : ℕ) : (a : ℤ) % q = residue (a : ZMod q) := by
  rw [emod_eq_residue, Int.cast_natCast]

theorem curveCheck_on {P : E} (h : P ≠ 0) : curveCheck false (.on P) = .ok P := by
  simp [curveCheck, h]

/-- An honest ciphertext passes. -/
theorem tdh2Encrypt_verify (plain : Bytes) {r : ZMod q} (s : ZMod q) {iv : Bytes}
    (hiv : iv.length = tdh2IvSize) (hr : r ≠ 0) (hGamma : pub.Gamma ≠ 0)
    (hpub : pub.Gamma = o.hashCurve pub.Q pub.sid) :
    ∃ ct, tdh2Encrypt o curve pub label plain (residue r) (residue s) iv = .ok ct ∧
      tdh2Verify o curve pub label ct = .ok () ∧ ct.R1 = .on (r • curve.generator) ∧ ct.iv = iv ∧
      ct.c = o.aesGcmEncrypt (o.hashString (r • pub.Q)) iv label plain := by
  have hR1 : r • curve.generator ≠ 0 := fun h => hr ((smul_generator_eq_zero curve).mp h)
  have hR2 : r • pub.Gamma ≠ 0 := smul_ne_zero hr hGamma
  simp only [tdh2Encrypt, mul_residue, mulToGenerator_residue, ok_bind, emod_residue,
    modMul_residue, modAdd_residue]
  refine ⟨_, rfl, ?_, rfl, rfl, rfl⟩
  generalize he :
    ((o.hashCiphertext (o.aesGcmEncrypt (o.hashString (r • pub.Q)) iv label plain) label
    (.on (r • curve.generator)) (s • curve.generator) (.on (r • pub.Gamma))
      (s • pub.Gamma) iv : ℕ) : ZMod q) = e
  have hW : ∀ P : E, (s + r * e) • P - e • r • P = s • P := by
    intro P
    rw [smul_smul, ← sub_smul]
    congr 1
    ring
  simp only [tdh2Verify, decide_true, require_true, ok_bind, hiv, isInRange_residue, Bool.and_self,
    curveCheck_on hR1, curveCheck_on hR2, ← hpub, mulToGenerator_residue, mul_residue, hW,
    emod_residue, he]

/-- An honest partial decryption passes against the public share. -/
theorem tdh2PartialDecrypt_check {ct : Tdh2Ciphertext E}
    (hct : tdh2Verify o curve pub label ct = .ok ()) {r x : ZMod q}
    (hR1 : ct.R1 = .on (r • curve.generator)) (hr : r ≠ 0) (hx : x ≠ 0) (rid : ℤ) (si : ZMod q) :
    ∃ pd, tdh2PartialDecrypt o curve pub label (residue x) rid ct (residue si) = .ok pd ∧
    pd.rid = rid ∧
      pd.Xi = .on (x • r • curve.generator) ∧
      checkPartialDecryption o curve (.on (x • curve.generator)) ct pd = .ok () := by
  have hQi : x • curve.generator ≠ 0 := fun h => hx ((smul_generator_eq_zero curve).mp h)
  have hXi : x • r • curve.generator ≠ 0 := smul_ne_zero hx fun h =>
    hr ((smul_generator_eq_zero curve).mp h)
  simp only [tdh2PartialDecrypt, hct, ok_bind, hR1, WirePoint.point, mul_residue,
    mulToGenerator_residue, emod_residue, modMul_residue, modAdd_residue]
  refine ⟨_, rfl, rfl, rfl, ?_⟩
  generalize he :
    ((o.hashPartial (.on (x • r • curve.generator)) (si • r • curve.generator)
      (si • curve.generator) : ℕ) :
    ZMod q) = e
  have hW : ∀ P : E, (si + x * e) • P - e • x • P = si • P := by
    intro P
    rw [smul_smul, ← sub_smul]
    congr 1
    ring
  simp only [checkPartialDecryption, curveCheck_on hQi, curveCheck_on hXi, ok_bind,
    isInRange_residue, Bool.and_self, require_true, hR1, WirePoint.point, mul_residue,
    mulToGenerator_residue, hW, emod_residue, he, decide_true]

end Honest

section Select

variable {pubShares : OrderedMap PName (WirePoint E)} {pds : OrderedMap PName (PartialDecryption E)}

omit [AddCommGroup E] [DecidableEq E] in
theorem foldlM_select {names : List PName} {acc out : OrderedMap PName (WirePoint E)} :
    names.foldlM (fun selected name =>
      match pubShares.find name with
      | none => fail .crypto
      | some P => .ok (selected.insert name P)) acc = Except.ok (ε := Failure) out ↔
      (∀ nm ∈ names, (pubShares.find nm).isSome = true) ∧
        ∀ nm, out.find nm = if nm ∈ names then pubShares.find nm else acc.find nm := by
  induction names generalizing acc with
  | nil =>
    rw [List.foldlM_nil]
    constructor
    · rintro ⟨⟩
      simp
    · rintro ⟨-, h⟩
      exact congrArg Except.ok (OrderedMap.ext_find fun nm => by simpa using (h nm).symm)
  | cons name names ih =>
    rw [List.foldlM_cons]
    cases hfind : pubShares.find name with
    | none => simp [hfind, fail]
    | some P =>
      simp only [ok_bind, ih, OrderedMap.find_insert]
      refine and_congr (by simp [hfind]) (forall_congr' fun nm => ?_)
      by_cases hmem : nm ∈ names
      · simp [hmem]
      · by_cases hnm : nm = name
        · subst hnm
          simp [hmem, hfind]
        · simp [hmem, hnm]

omit [AddCommGroup E] [DecidableEq E] in
theorem selectPubShares_ok_iff {out : OrderedMap PName (WirePoint E)} :
    selectPubShares pubShares pds = .ok out ↔
    (∀ nm ∈ pds.keys, (pubShares.find nm).isSome = true) ∧
      ∀ nm, out.find nm = if nm ∈ pds.keys then pubShares.find nm else none := by
  rw [selectPubShares, foldlM_select]
  simp

/-- What `combine` has established when it decrypts. -/
theorem combinePoint_ok {pid : PName → ℕ} {ac : Node} {ct : Tdh2Ciphertext E} {V : E}
    (h : combinePoint o curve pub label pid ac pubShares pds ct = .ok V) :
    ac.enoughForQuorum pds.keys.toFinset = true ∧
    (∀ nm ∈ pds.keys, (pubShares.find nm).isSome = true) ∧
      (∃ selected, (∀ nm, selected.find nm = if nm ∈ pds.keys then pubShares.find nm else none) ∧
        reconstructExponentChecked q pid ac selected = .ok pub.Q) ∧
      (∀ nm pd Qi, pds.find nm = some pd → pubShares.find nm = some Qi →
        checkPartialDecryption o curve Qi ct pd = .ok ()) ∧
      reconstructExponentChecked q pid ac (pds.mapValues PartialDecryption.Xi) = .ok V := by
  obtain ⟨henough, h⟩ := require_bind_ok_iff.mp h
  obtain ⟨u, -, h⟩ := bind_ok_iff.mp h
  obtain ⟨selected, hselected, h⟩ := bind_ok_iff.mp h
  obtain ⟨R, hR, h⟩ := bind_ok_iff.mp h
  obtain ⟨hQ, h⟩ := require_bind_ok_iff.mp h
  obtain ⟨u', hall, h⟩ := bind_ok_iff.mp h
  obtain ⟨hsome, hfind⟩ := selectPubShares_ok_iff.mp hselected
  rw [of_decide_eq_true hQ] at hR
  refine ⟨henough, hsome, ⟨selected, hfind, hR⟩, fun nm pd Qi hpd hQi => ?_, h⟩
  have hturn := forEach_ok_iff.mp hall (nm, pd) ((OrderedMap.mem_entries_iff _ _ _).mpr hpd)
  have hkey : nm ∈ pds.keys := (OrderedMap.mem_keys_iff _ _).mpr (by rw [hpd]; rfl)
  rw [pubShareAt, hfind nm, if_pos hkey, hQi, ok_bind] at hturn
  obtain ⟨u, hcheck, -⟩ := bind_ok_iff.mp hturn
  exact hcheck

variable {pid : PName → ℕ} {ac : Node} {ct : Tdh2Ciphertext E}

/-- Public shares and partial decryptions with the same discrete logarithms are combined with
the same weights. -/
theorem combinePoint_sound (hwf : ac.WellFormed) (hpos : Positions (pidPos q pid) ac) {x : ZMod q}
    (hQ : pub.Q = x • curve.generator)
    (hbind : ∀ nm pd Qi, pds.find nm = some pd → pubShares.find nm = some Qi →
      checkPartialDecryption o curve Qi ct pd = .ok () →
      ∃ xi : ZMod q, Qi.point = xi • curve.generator ∧ pd.Xi.point = xi • ct.R1.point)
    {V : E} (h : combinePoint o curve pub label pid ac pubShares pds ct = .ok V) :
    V = x • ct.R1.point := by
  obtain ⟨henough, hsome, ⟨selected, hselected, hrec⟩, hcheck, hV⟩ := combinePoint_ok h
  have hlog : ∀ nm, ∃ xi : ZMod q, nm ∈ pds.keys →
      (selected.mapValues WirePoint.point).find nm = some (xi • curve.generator) ∧
        ((pds.mapValues PartialDecryption.Xi).mapValues WirePoint.point).find nm =
          some (xi • ct.R1.point) := by
    intro nm
    by_cases hkey : nm ∈ pds.keys
    · obtain ⟨Qi, hQi⟩ := Option.isSome_iff_exists.mp (hsome nm hkey)
      obtain ⟨pd, hpd⟩ := Option.isSome_iff_exists.mp ((OrderedMap.mem_keys_iff _ _).mp hkey)
      obtain ⟨xi, hQxi, hXxi⟩ := hbind nm pd Qi hpd hQi (hcheck nm pd Qi hpd hQi)
      exact ⟨xi, fun _ => by simp [hselected, hkey, hQi, hpd, hQxi, hXxi]⟩
    · exact ⟨0, fun hk => absurd hk hkey⟩
  choose σ hσ using hlog
  obtain ⟨v, hv⟩ := exists_combined (q := q) pid pds.keys.toFinset σ hwf hpos
  have hpub := hv (pointOps_sound_smul curve.generator)
      (selected.mapValues WirePoint.point) fun nm _ => by
    by_cases hkey : nm ∈ pds.keys
    · simpa [hkey] using (hσ nm hkey).1
    · simp [hselected, hkey]
  have hdec := hv (pointOps_sound_smul ct.R1.point)
    ((pds.mapValues PartialDecryption.Xi).mapValues WirePoint.point)
    fun nm _ => by
      by_cases hkey : nm ∈ pds.keys
      · simpa [hkey] using (hσ nm hkey).2
      · have hnone : pds.find nm = none := by
          rw [OrderedMap.mem_keys_iff] at hkey
          simpa using hkey
        simp [hkey, hnone]
  have hQ' := (reconstructExponentChecked_ok hrec).symm.trans hpub
  have hV' := (reconstructExponentChecked_ok hV).symm.trans hdec
  rw [henough] at hQ' hV'
  have hvx : v = x := smul_generator_injective curve ((Except.ok.inj hQ').symm.trans hQ)
  rw [Except.ok.inj hV', hvx]

/-- Honest partial decryptions of a quorum are combined. -/
theorem combinePoint_honest (hwf : ac.WellFormed)
    (hpos : Positions (pidPos q pid) ac) {τ : PName → ZMod q} (hτ : Consistent (pidPos q pid) τ ac)
    (hQ : pub.Q = τ ac.name • curve.generator) {S : Finset PName} (hS : ac.enoughForQuorum S = true)
    (hct : tdh2Verify o curve pub label ct = .ok ()) {R1 : E}
    (hpds : ∀ nm, nm ∉ S → pds.find nm = none)
    (hparts : ∀ nm ∈ S, pubShares.find nm = some (.on (τ nm • curve.generator)) ∧
      ∃ pd, pds.find nm = some pd ∧ pd.Xi = .on (τ nm • R1) ∧ τ nm • R1 ≠ 0 ∧
        checkPartialDecryption o curve (.on (τ nm • curve.generator)) ct pd = .ok ()) :
    combinePoint o curve pub label pid ac pubShares pds ct = .ok (τ ac.name • R1) := by
  have hkeys : ∀ nm, nm ∈ pds.keys ↔ nm ∈ S := by
    intro nm
    rw [OrderedMap.mem_keys_iff]
    by_cases hnm : nm ∈ S
    · obtain ⟨-, pd, hpd, -⟩ := hparts nm hnm
      simp [hnm, hpd]
    · simp [hnm, hpds nm hnm]
  have hfinset : pds.keys.toFinset = S := by
    ext nm
    rw [List.mem_toFinset, hkeys]
  have hfind : ∀ nm,
    (OrderedMap.ofKeys (fun nm => (.on (τ nm • curve.generator) : WirePoint E)) pds.keys).find nm =
      if nm ∈ pds.keys then pubShares.find nm else none := by
    intro nm
    rw [OrderedMap.find_ofKeys]
    by_cases hnm : nm ∈ pds.keys
    · simp [hnm, (hparts nm ((hkeys nm).mp hnm)).1]
    · simp [hnm]
  have hselect := selectPubShares_ok_iff.mpr
    ⟨fun nm hnm => by rw [(hparts nm ((hkeys nm).mp hnm)).1]; rfl, hfind⟩
  -- both maps are images of the sharing
  have hrec : ∀ (P : E) (shares : OrderedMap PName (WirePoint E)),
      (∀ nm, shares.find nm = if nm ∈ S then some (.on (τ nm • P)) else none) →
      reconstructExponentChecked q pid ac shares = .ok (τ ac.name • P) := by
    intro P shares hshares
    rw [reconstructExponentChecked_of_on (fun nm R hR => by
      rw [hshares nm] at hR
      split at hR
      · exact ⟨_, (Option.some.inj hR).symm⟩
      · exact absurd hR (by simp))]
    have h := reconstructNode_eq (pointOps_sound_smul P) pid S
      (shares.mapValues WirePoint.point) τ hwf hpos hτ
      fun nm _ => by
        rw [OrderedMap.find_mapValues, hshares nm]
        split <;> rfl
    rw [hS] at h
    exact h
  have hQrec := hrec curve.generator
      (OrderedMap.ofKeys (fun nm => .on (τ nm • curve.generator)) pds.keys) fun nm => by
    simp only [OrderedMap.find_ofKeys, hkeys]
  have hVrec := hrec R1 (pds.mapValues PartialDecryption.Xi) fun nm => by
    by_cases hnm : nm ∈ S
    · obtain ⟨-, pd, hpd, hXi, -⟩ := hparts nm hnm
      simp [hnm, hpd, hXi]
    · simp [hnm, hpds nm hnm]
  have hloop : forEach (fun p : PName × PartialDecryption E => do
      let Qi ← pubShareAt (OrderedMap.ofKeys (fun nm =>
        (.on (τ nm • curve.generator) : WirePoint E)) pds.keys) p.1
      checkPartialDecryption o curve Qi ct p.2
      curveCheck false p.2.Xi >>= fun _ => .ok ()) pds.entries = .ok () := by
    refine forEach_ok_iff.mpr fun p hp => ?_
    have hpd := (OrderedMap.mem_entries_iff _ _ _).mp hp
    have hkey : p.1 ∈ pds.keys := (OrderedMap.mem_keys_iff _ _).mpr (by rw [hpd]; rfl)
    obtain ⟨-, pd, hpd', hXi, hne, hcheck⟩ := hparts p.1 ((hkeys p.1).mp hkey)
    obtain rfl : p.2 = pd := Option.some.inj (hpd.symm.trans hpd')
    rw [pubShareAt, OrderedMap.find_ofKeys, if_pos hkey, ok_bind, hcheck, ok_bind, hXi,
      curveCheck_on hne, ok_bind]
  rw [combinePoint, hfinset, hS, require_true, ok_bind, hct, ok_bind, hselect, ok_bind, hQrec,
    ok_bind, hQ, decide_eq_true rfl, require_true, ok_bind, hloop, ok_bind, hVrec]

end Select

section Additive

variable {Qi : List (WirePoint E)} {ct : Tdh2Ciphertext E}

/-- The loop accepts indices that are in range and different, with proofs that pass. -/
theorem foldlM_additiveTurn {pds : List (PartialDecryption E)} {acc out : E × List ℤ} :
    pds.foldlM (additiveTurn o curve Qi ct) acc = .ok out ↔
      (∀ pd ∈ pds, (1 ≤ pd.rid ∧ pd.rid ≤ Qi.length) ∧
        checkPartialDecryption o curve (Qi.getD (pd.rid.toNat - 1) (.on 0)) ct pd = .ok ()) ∧
      (pds.map PartialDecryption.rid).Nodup ∧ (∀ pd ∈ pds, pd.rid ∉ acc.2) ∧
      out = (acc.1 + (pds.map fun pd => pd.Xi.point).sum,
        (pds.map PartialDecryption.rid).reverse ++ acc.2) := by
  induction pds generalizing acc with
  | nil =>
    rw [List.foldlM_nil]
    constructor
    · rintro ⟨⟩
      simp
    · rintro ⟨-, -, -, rfl⟩
      simp
      rfl
  | cons pd pds ih =>
    have hturn : ∀ acc', additiveTurn o curve Qi ct acc pd = .ok acc' ↔
        (1 ≤ pd.rid ∧ pd.rid ≤ Qi.length) ∧ pd.rid ∉ acc.2 ∧
        checkPartialDecryption o curve (Qi.getD (pd.rid.toNat - 1) (.on 0)) ct pd = .ok () ∧
        acc' = (acc.1 + pd.Xi.point, pd.rid :: acc.2) := by
      intro acc'
      rw [additiveTurn, require_bind_ok_iff, require_bind_ok_iff, bind_ok_iff, decide_eq_true_eq,
        decide_eq_true_eq]
      have hrange : ¬(pd.rid < 1 ∨ pd.rid > Qi.length) ↔ 1 ≤ pd.rid ∧ pd.rid ≤ Qi.length := by omega
      rw [hrange]
      refine and_congr_right fun _ => and_congr_right fun _ => ?_
      constructor
      · rintro ⟨u, hcheck, hacc⟩
        exact ⟨hcheck, (Except.ok.inj hacc).symm⟩
      · rintro ⟨hcheck, rfl⟩
        exact ⟨(), hcheck, rfl⟩
    rw [List.foldlM_cons, bind_ok_iff]
    simp only [hturn, ih, List.forall_mem_cons, List.map_cons, List.nodup_cons, List.sum_cons,
      List.reverse_cons, List.append_assoc, List.singleton_append]
    constructor
    · rintro ⟨acc', ⟨hrange, hnew, hcheck, rfl⟩, hall, hnd, hrest, rfl⟩
      refine ⟨⟨⟨hrange, hcheck⟩, hall⟩, ⟨?_, hnd⟩,
        ⟨hnew, fun p hp h => hrest p hp (by simp [h])⟩, by rw [add_assoc]⟩
      intro hmem
      obtain ⟨p, hp, heq⟩ := List.mem_map.mp hmem
      exact hrest p hp (by simp [heq])
    · rintro ⟨⟨⟨hrange, hcheck⟩, hall⟩, ⟨hnotin, hnd⟩, ⟨hnew, hrest⟩, rfl⟩
      refine ⟨_, ⟨hrange, hnew, hcheck, rfl⟩, hall, hnd, fun p hp h => ?_, by rw [add_assoc]⟩
      rcases List.mem_cons.mp h with h | h
      · exact hnotin (List.mem_map.mpr ⟨p, hp, h⟩)
      · exact hrest p hp h

theorem foldlM_curveCheck {Qi : List (WirePoint E)} {acc P : E} (h : Qi.foldlM (fun sum Q => do
    let Q ← curveCheck false Q
    .ok (sum + Q)) acc = Except.ok (ε := Failure) P) : P = acc + (Qi.map WirePoint.point).sum := by
  induction Qi generalizing acc with
  | nil =>
    cases h
    simp
  | cons Q Qi ih =>
    rw [List.foldlM_cons] at h
    obtain ⟨acc', hacc, h⟩ := bind_ok_iff.mp h
    obtain ⟨R, hR, hacc⟩ := bind_ok_iff.mp hacc
    cases hacc
    have hpoint : R = Q.point := by
      cases Q with
      | on Q => exact eq_of_curveCheck_on hR
      | foreign k => simp [curveCheck, fail] at hR
    rw [ih h, hpoint, List.map_cons, List.sum_cons, add_assoc]

omit [AddCommGroup E] [DecidableEq E] in
/-- Different indices in range, as many as there are shares, are all indices. -/
theorem rids_perm {n : ℕ} {pds : List (PartialDecryption E)} (hlen : pds.length = n)
    (hrange : ∀ pd ∈ pds, 1 ≤ pd.rid ∧ pd.rid ≤ n) (hnd : (pds.map PartialDecryption.rid).Nodup) :
    (pds.map fun pd => pd.rid.toNat - 1).Perm (List.range n) := by
  have hnd' : (pds.map fun pd => pd.rid.toNat - 1).Nodup := by
    refine List.Nodup.map_on (fun a ha b hb hab => ?_) (List.Nodup.of_map _ hnd)
    have hrid : a.rid = b.rid := by
      have := hrange a ha
      have := hrange b hb
      omega
    exact List.inj_on_of_nodup_map hnd ha hb hrid
  have hsub : (pds.map fun pd => pd.rid.toNat - 1) ⊆ List.range n := by
    intro i hi
    obtain ⟨pd, hpd, rfl⟩ := List.mem_map.mp hi
    have := hrange pd hpd
    rw [List.mem_range]
    omega
  exact (List.subperm_of_subset hnd' hsub).perm_of_length_le (by simp [hlen])

/-- What `combine_additive` has established when it decrypts. -/
theorem combineAdditivePoint_ok {pds : List (PartialDecryption E)} {V : E}
    (h : combineAdditivePoint o curve pub label Qi pds ct = .ok V) :
    (Qi.map WirePoint.point).sum = pub.Q ∧
    (pds.map fun pd => pd.rid.toNat - 1).Perm (List.range Qi.length) ∧
      (∀ pd ∈ pds, (1 ≤ pd.rid ∧ pd.rid ≤ Qi.length) ∧
        checkPartialDecryption o curve (Qi.getD (pd.rid.toNat - 1) (.on 0)) ct pd = .ok ()) ∧
      V = (pds.map fun pd => pd.Xi.point).sum := by
  obtain ⟨R, hR, h⟩ := bind_ok_iff.mp h
  obtain ⟨hQ, h⟩ := require_bind_ok_iff.mp h
  obtain ⟨hlen, h⟩ := require_bind_ok_iff.mp h
  obtain ⟨u, -, h⟩ := bind_ok_iff.mp h
  obtain ⟨out, hout, h⟩ := bind_ok_iff.mp h
  obtain ⟨hall, hnd, -, rfl⟩ := foldlM_additiveTurn.mp hout
  have hsum := foldlM_curveCheck hR
  rw [zero_add] at hsum
  refine ⟨hsum.symm.trans (of_decide_eq_true hQ),
    rids_perm (of_decide_eq_true hlen) (fun pd hpd => (hall pd hpd).1) hnd,
    hall, ?_⟩
  rw [← Except.ok.inj h, zero_add]

theorem combineAdditivePoint_sound {pds : List (PartialDecryption E)} {x : ZMod q}
    (hQ : pub.Q = x • curve.generator)
    (hbind : ∀ pd ∈ pds, ∀ Q ∈ Qi, checkPartialDecryption o curve Q ct pd = .ok () →
      ∃ xi : ZMod q, Q.point = xi • curve.generator ∧ pd.Xi.point = xi • ct.R1.point)
    {V : E} (h : combineAdditivePoint o curve pub label Qi pds ct = .ok V) :
    V = x • ct.R1.point := by
  obtain ⟨hsum, hperm, hall, rfl⟩ := combineAdditivePoint_ok h
  have hlog : ∀ pd, ∃ xi : ZMod q, pd ∈ pds →
      (Qi.getD (pd.rid.toNat - 1) (.on 0)).point = xi • curve.generator ∧
      pd.Xi.point = xi • ct.R1.point := by
    intro pd
    by_cases hpd : pd ∈ pds
    · obtain ⟨⟨h1, hn⟩, hcheck⟩ := hall pd hpd
      have hmem : Qi.getD (pd.rid.toNat - 1) (.on 0) ∈ Qi := by
        rw [List.getD_eq_getElem _ _ (by omega)]
        exact List.getElem_mem _
      obtain ⟨xi, hxi⟩ := hbind pd hpd _ hmem hcheck
      exact ⟨xi, fun _ => hxi⟩
    · exact ⟨0, fun hmem => absurd hmem hpd⟩
  choose σ hσ using hlog
  have hkey : (Qi.map WirePoint.point).sum = (pds.map σ).sum • curve.generator := by
    have hQi : Qi.map WirePoint.point = (List.range Qi.length).map fun i =>
        (Qi.getD i (.on 0)).point := by
      refine List.ext_getElem (by simp) fun i h1 h2 => ?_
      rw [List.length_map] at h1
      simp [h1]
    rw [hQi, ← (hperm.map fun i => (Qi.getD i (.on 0)).point).sum_eq, List.map_map, List.sum_smul,
      List.map_map]
    exact congrArg List.sum (List.map_congr_left fun pd hpd => (hσ pd hpd).1)
  have hx : (pds.map σ).sum = x := smul_generator_injective curve (hkey.symm.trans (hsum.trans hQ))
  rw [← hx, List.sum_smul, List.map_map]
  exact congrArg List.sum (List.map_congr_left fun pd hpd => (hσ pd hpd).2)

/-- Honest partial decryptions of all parties are combined in any order. -/
theorem combineAdditivePoint_honest {n : ℕ} {x : Fin n → ZMod q}
    (hQ : pub.Q = (∑ i, x i) • curve.generator) (hx : ∀ i, x i ≠ 0)
    (hct : tdh2Verify o curve pub label ct = .ok ()) {R1 : E} {pd : Fin n → PartialDecryption E}
    (hpd : ∀ i, (pd i).rid = i + 1 ∧ (pd i).Xi = .on (x i • R1) ∧
      checkPartialDecryption o curve (.on (x i • curve.generator)) ct (pd i) = .ok ())
    {order : List (Fin n)} (horder : order.Perm (List.finRange n)) :
    combineAdditivePoint o curve pub label (List.ofFn fun i =>
      .on (x i • curve.generator)) (order.map pd) ct =
      .ok ((∑ i, x i) • R1) := by
  have hQi : ∀ (l : List (Fin n)) (acc : E),
      (l.map fun i => (.on (x i • curve.generator) : WirePoint E)).foldlM
      (fun sum Q => do
        let Q ← curveCheck false Q
        .ok (sum + Q)) acc = Except.ok (ε :=
            Failure) (acc + (l.map fun i => x i • curve.generator).sum) := by
    intro l
    induction l with
    | nil =>
      intro acc
      simp
      rfl
    | cons i l ih =>
      intro acc
      rw [List.map_cons, List.foldlM_cons, curveCheck_smul_generator curve false (hx i), ok_bind,
        ok_bind, ih, List.map_cons, List.sum_cons, add_assoc]
  have hkey := hQi (List.finRange n) 0
  rw [zero_add, ← Fin.sum_univ_def, ← Finset.sum_smul, ← List.ofFn_eq_map] at hkey
  have hloop : (order.map pd).foldlM
      (additiveTurn o curve (List.ofFn fun i => .on (x i • curve.generator)) ct) (0, []) =
      .ok (0 + ((order.map pd).map fun p => p.Xi.point).sum,
      ((order.map pd).map PartialDecryption.rid).reverse ++ []) :=
    foldlM_additiveTurn.mpr
    ⟨fun p hp => by
      obtain ⟨i, -, rfl⟩ := List.mem_map.mp hp
      obtain ⟨hrid, -, hcheck⟩ := hpd i
      have hi := i.isLt
      refine ⟨by rw [hrid, List.length_ofFn]; omega, ?_⟩
      have hidx : (pd i).rid.toNat - 1 = i := by omega
      rw [hidx, List.getD_eq_getElem _ _ (by simp), List.getElem_ofFn]
      exact hcheck, by
      rw [List.map_map]
      refine List.Nodup.map (fun i j hij => ?_) (horder.nodup_iff.mpr (List.nodup_finRange n))
      simp only [Function.comp_apply, (hpd i).1, (hpd j).1] at hij
      exact Fin.ext (by omega), by simp, rfl⟩
  have hsum : ((order.map pd).map fun p => p.Xi.point).sum = (∑ i, x i) • R1 := by
    rw [List.map_map, (horder.map _).sum_eq, ← Fin.sum_univ_def, Finset.sum_smul]
    exact Finset.sum_congr rfl fun i _ => by rw [Function.comp_apply, (hpd i).2.1]; rfl
  have hlen : (order.map pd).length =
      (List.ofFn fun i => (.on (x i • curve.generator) : WirePoint E)).length := by
    rw [List.length_map, List.length_ofFn, horder.length_eq, List.length_finRange]
  rw [combineAdditivePoint, hkey, ok_bind, decide_eq_true hQ.symm, require_true, ok_bind,
    decide_eq_true hlen, require_true, ok_bind, hct, ok_bind, hloop, ok_bind, hsum, zero_add]

end Additive

/-- Threshold decryption with nonzero shares and a nonzero `r` is correct, and what is combined
from shares with sound proofs is the right multiple of `R1`. -/
theorem tdh2_correct (ho : o.Lawful) (curve : Curve q E) (pid : PName → ℕ) :
    (∀ ac : Node, ac.validateTree = .ok () → Positions (pidPos q pid) ac → ∀ τ : PName → ZMod q,
      Consistent (pidPos q pid) τ ac →
        ∀ (sid plain label iv : Bytes) (r s : ZMod q) (ct : Tdh2Ciphertext E),
      r ≠ 0 → iv.length = tdh2IvSize →
      tdh2Encrypt o curve (tdh2PublicKey o (τ ac.name • curve.generator) sid) label plain
        (residue r) (residue s) iv = .ok ct →
      ∀ S : Finset PName, ac.enoughForQuorum S = true → (∀ nm ∈ S, τ nm ≠ 0) →
      ∀ (pubShares : OrderedMap PName (WirePoint E)) (pds : OrderedMap PName (PartialDecryption E)),
      (∀ nm ∈ S, pubShares.find nm = some (.on (τ nm • curve.generator))) →
        (∀ nm, nm ∉ S → pds.find nm = none) →
      (∀ nm ∈ S, ∃ (rid : ℤ) (si : ZMod q) (pd : PartialDecryption E), pds.find nm = some pd ∧
        tdh2PartialDecrypt o curve (tdh2PublicKey o (τ ac.name • curve.generator) sid)
          label (residue (τ nm)) rid ct
          (residue si) = .ok pd) →
      combine o curve (tdh2PublicKey o (τ ac.name • curve.generator) sid) label pid ac
        pubShares pds ct = .ok plain) ∧
    (∀ (n : ℕ) (x : Fin n → ZMod q) (sid plain label iv : Bytes) (r s : ZMod q)
      (ct : Tdh2Ciphertext E), r ≠ 0 → iv.length = tdh2IvSize → (∀ i, x i ≠ 0) →
      tdh2Encrypt o curve (tdh2PublicKey o ((∑ i, x i) • curve.generator) sid) label plain
        (residue r) (residue s) iv =
        .ok ct →
      ∀ (si : Fin n → ZMod q) (pd : Fin n → PartialDecryption E),
      (∀ i, tdh2PartialDecrypt o curve (tdh2PublicKey o ((∑ i, x i) • curve.generator) sid)
        label (residue (x i)) (i + 1)
        ct (residue (si i)) = .ok (pd i)) →
      ∀ order : List (Fin n), order.Perm (List.finRange n) →
      combineAdditive o curve (tdh2PublicKey o ((∑ i, x i) • curve.generator) sid) label
        (List.ofFn fun i => .on (x i • curve.generator)) (order.map pd) ct = .ok plain) ∧
    (∀ (pub : Tdh2PublicKey E) (x : ZMod q), pub.Q = x • curve.generator →
      ∀ (label : Bytes) (ac : Node),
      ac.validateTree = .ok () → Positions (pidPos q pid) ac →
        ∀ (pubShares : OrderedMap PName (WirePoint E))
      (pds : OrderedMap PName (PartialDecryption E)) (ct : Tdh2Ciphertext E),
      (∀ nm pd Qi, pds.find nm = some pd → pubShares.find nm = some Qi →
        checkPartialDecryption o curve Qi ct pd = .ok () →
        ∃ xi : ZMod q, Qi.point = xi • curve.generator ∧ pd.Xi.point = xi • ct.R1.point) →
      ∀ plain, combine o curve pub label pid ac pubShares pds ct = .ok plain →
        combinePoint o curve pub label pid ac pubShares pds ct = .ok (x • ct.R1.point) ∧
        ac.enoughForQuorum pds.keys.toFinset = true ∧ ∀ nm ∈ pds.keys,
          (pubShares.find nm).isSome = true) ∧
    ∀ (pub : Tdh2PublicKey E) (x : ZMod q), pub.Q = x • curve.generator →
    ∀ (label : Bytes) (Qi : List (WirePoint E))
      (pds : List (PartialDecryption E)) (ct : Tdh2Ciphertext E),
      (∀ pd ∈ pds, ∀ Q ∈ Qi, checkPartialDecryption o curve Q ct pd = .ok () →
        ∃ xi : ZMod q, Q.point = xi • curve.generator ∧ pd.Xi.point = xi • ct.R1.point) →
      ∀ plain, combineAdditive o curve pub label Qi pds ct = .ok plain →
        combineAdditivePoint o curve pub label Qi pds ct = .ok (x • ct.R1.point) ∧
        (Qi.map WirePoint.point).sum = pub.Q ∧
        (pds.map fun pd => pd.rid.toNat - 1).Perm (List.range Qi.length) := by
  have hdecrypt : ∀ (pub : Tdh2PublicKey E) (x r : ZMod q) (label plain iv : Bytes)
      (ct : Tdh2Ciphertext E),
      pub.Q = x • curve.generator → ct.iv = iv →
      ct.c = o.aesGcmEncrypt (o.hashString (r • pub.Q)) iv label plain →
      tdh2Decrypt o label ct (x • r • curve.generator) = .ok plain := by
    intro pub x r label plain iv ct hQ hiv hc
    rw [tdh2Decrypt, hiv, hc, hQ, smul_comm x r, ho.decrypt_encrypt]
  refine ⟨?_, ?_, ?_, ?_⟩
  · intro ac hvalid hpos τ hτ sid plain label iv r s ct hr hiv hct S hS hne
      pubShares pds hpub hnone hparts
    obtain ⟨hwf, -⟩ := validateTree_ok hvalid
    obtain ⟨ct', hct', hverify, hR1, hivc, hc⟩ := @tdh2Encrypt_verify _ _ _ _ _ _ o curve
      (tdh2PublicKey o (τ ac.name • curve.generator) sid) label plain r s iv hiv hr
        (ho.hashCurve_ne_zero _ _) rfl
    obtain rfl : ct = ct' := Except.ok.inj (hct.symm.trans hct')
    have hpoint : combinePoint o curve (tdh2PublicKey o (τ ac.name • curve.generator) sid) label
        pid ac pubShares pds ct =
        .ok (τ ac.name • r • curve.generator) :=
          combinePoint_honest hwf hpos hτ rfl hS hverify hnone fun nm hnm => by
        obtain ⟨rid, si, pd, hfind, hpd⟩ := hparts nm hnm
        obtain ⟨pd', hpd', -, hXi, hcheck⟩ :=
          tdh2PartialDecrypt_check hverify hR1 hr (hne nm hnm) rid si
        obtain rfl : pd = pd' := Except.ok.inj (hpd.symm.trans hpd')
        exact ⟨hpub nm hnm, pd, hfind, hXi,
          smul_ne_zero (hne nm hnm) fun h => hr ((smul_generator_eq_zero curve).mp h), hcheck⟩
    rw [combine, hpoint, ok_bind]
    exact hdecrypt _ _ r label plain iv ct rfl hivc hc
  · intro n x sid plain label iv r s ct hr hiv hne hct si pd hpd order horder
    obtain ⟨ct', hct', hverify, hR1, hivc, hc⟩ := @tdh2Encrypt_verify _ _ _ _ _ _ o curve
      (tdh2PublicKey o ((∑ i, x i) • curve.generator) sid) label plain r s iv hiv hr
        (ho.hashCurve_ne_zero _ _) rfl
    obtain rfl : ct = ct' := Except.ok.inj (hct.symm.trans hct')
    have hpoint : combineAdditivePoint o curve
        (tdh2PublicKey o ((∑ i, x i) • curve.generator) sid) label
        (List.ofFn fun i => .on (x i • curve.generator)) (order.map pd) ct =
          .ok ((∑ i, x i) • r • curve.generator) :=
      combineAdditivePoint_honest rfl hne hverify (fun i => by
        obtain ⟨pd', hpd', hrid, hXi, hcheck⟩ :=
          tdh2PartialDecrypt_check hverify hR1 hr (hne i) (i + 1) (si i)
        obtain rfl : pd i = pd' := Except.ok.inj ((hpd i).symm.trans hpd')
        exact ⟨hrid, hXi, hcheck⟩) horder
    rw [combineAdditive, hpoint, ok_bind]
    exact hdecrypt _ _ r label plain iv ct rfl hivc hc
  · intro pub x hQ label ac hvalid hpos pubShares pds ct hbind plain h
    obtain ⟨V, hV, -⟩ := bind_ok_iff.mp h
    obtain ⟨henough, hsome, -⟩ := combinePoint_ok hV
    refine ⟨?_, henough, hsome⟩
    rw [hV, combinePoint_sound (validateTree_ok hvalid).1 hpos hQ hbind hV]
  · intro pub x hQ label Qi pds ct hbind plain h
    obtain ⟨V, hV, -⟩ := bind_ok_iff.mp h
    obtain ⟨hsum, hperm, -⟩ := combineAdditivePoint_ok hV
    refine ⟨?_, hsum, hperm⟩
    rw [hV, combineAdditivePoint_sound hQ hbind hV]

section Examples

/-- Constant hashes, and a cipher that leaves the text as it is. -/
def sampleTdh2Oracles : Tdh2Oracles (ZMod 1009) where
  hashCurve _ _ := 1
  hashString _ := []
  hashCiphertext _ _ _ _ _ _ _ := 7
  hashPartial _ _ _ := 9
  aesGcmEncrypt _ _ _ plain := plain
  aesGcmDecrypt _ _ _ c := .ok c

theorem sampleTdh2Oracles_lawful : sampleTdh2Oracles.Lawful where
  hashCurve_ne_zero _ _ := (by decide : (1 : ZMod 1009) ≠ 0)
  decrypt_encrypt _ _ _ _ := rfl

/-- A sharing of `a + b` over two leaves that are both needed. -/
def pairLabel (a b : ZMod 1009) (nm : PName) : ZMod 1009 :=
  if nm = [97] then a else if nm = [98] then b else a + b

theorem pairLabel_consistent (a b : ZMod 1009) :
    Consistent (pidPos 1009 samplePid) (pairLabel a b) pairTree := by
  refine forall_mk.mpr ⟨?_, fun c hc => ?_⟩
  · show a + (b + 0) = a + b
    rw [add_zero]
  · have hleaf : ∀ c ∈ pairTree.children, c.type = .leaf ∧ c.children = [] := by decide
    obtain ⟨ht, hcs⟩ := hleaf c hc
    obtain ⟨type, name, th, cs⟩ := c
    simp only [type_mk, children_mk] at ht hcs
    subst ht hcs
    exact forall_mk.mpr ⟨trivial, by simp⟩

/-- The ciphertext of one byte with `r = 5` and `s = 6`. -/
def sampleTdh2Ciphertext : Tdh2Ciphertext (ZMod 1009) :=
  ⟨[42], List.replicate 16 0, .on 5, .on 5, 7, 41, [1]⟩

def samplePartials (a b : ℤ) : OrderedMap PName (PartialDecryption (ZMod 1009)) :=
  OrderedMap.ofKeys (fun nm => if nm = [97] then ⟨1, .on (a * 5), 9, 2 + a * 9⟩ else
    ⟨2, .on (b * 5), 9, 2 + b * 9⟩)
    [[97], [98]]

theorem tdh2_correct_sample :
    combine sampleTdh2Oracles sampleCurve
      (tdh2PublicKey sampleTdh2Oracles 7 []) [1] samplePid pairTree
      (OrderedMap.ofKeys (fun nm => .on (pairLabel 3 4 nm)) [[97], [98]])
        (samplePartials 3 4) sampleTdh2Ciphertext =
        .ok [42] ∧
    combineAdditive sampleTdh2Oracles sampleCurve
      (tdh2PublicKey sampleTdh2Oracles 7 []) [1] [.on 3, .on 4]
      [⟨2, .on 20, 9, 38⟩, ⟨1, .on 15, 9, 29⟩] sampleTdh2Ciphertext = .ok [42] := by
  obtain ⟨hcombine, hadditive, -⟩ := tdh2_correct sampleTdh2Oracles_lawful sampleCurve samplePid
  constructor
  · refine hcombine pairTree (by decide) (by decide) (pairLabel 3 4)
      (pairLabel_consistent 3 4) [] [42] [1]
      (List.replicate 16 0) 5 6 sampleTdh2Ciphertext (by decide) rfl (by decide +kernel)
        {[97], [98]} (by decide) (by decide) _ _ (by decide)
      (fun nm hnm => ?_) fun nm hnm => ?_
    · simp only [Finset.mem_insert, Finset.mem_singleton] at hnm
      simp [samplePartials, hnm]
    · simp only [Finset.mem_insert, Finset.mem_singleton] at hnm
      rcases hnm with rfl | rfl
      · exact ⟨1, 2, ⟨1, .on 15, 9, 29⟩, by decide +kernel, by decide +kernel⟩
      · exact ⟨2, 2, ⟨2, .on 20, 9, 38⟩, by decide +kernel, by decide +kernel⟩
  · exact hadditive 2 ![3, 4] [] [42] [1] (List.replicate 16 0) 5 6 sampleTdh2Ciphertext
      (by decide) rfl (by decide)
      (by decide +kernel) (fun _ => 2) ![⟨1, .on 15, 9, 29⟩, ⟨2, .on 20, 9, 38⟩]
        (by decide +kernel) [1, 0] (by decide)

/-- A party whose share is zero has infinity as its public share and as its partial decryption,
and `combine` rejects both. -/
theorem tdh2_zero_share : pairTree.enoughForQuorum {[97], [98]} = true ∧
    Consistent (pidPos 1009 samplePid) (pairLabel 0 7) pairTree ∧
    tdh2Encrypt sampleTdh2Oracles sampleCurve (tdh2PublicKey sampleTdh2Oracles 7 []) [1] [42] 5
      6 (List.replicate 16 0) =
      .ok sampleTdh2Ciphertext ∧
    (∀ nm ∈ ({[97], [98]} : Finset PName), ∃ rid pd, (samplePartials 0 7).find nm = some pd ∧
      tdh2PartialDecrypt sampleTdh2Oracles sampleCurve (tdh2PublicKey sampleTdh2Oracles 7 []) [1]
        (residue (pairLabel 0 7 nm)) rid sampleTdh2Ciphertext 2 = .ok pd) ∧
    combine sampleTdh2Oracles sampleCurve
      (tdh2PublicKey sampleTdh2Oracles 7 []) [1] samplePid pairTree
      (OrderedMap.ofKeys (fun nm => .on (pairLabel 0 7 nm)) [[97], [98]])
        (samplePartials 0 7) sampleTdh2Ciphertext =
        fail .crypto := by
  refine ⟨by decide, pairLabel_consistent 0 7, by decide +kernel,
    fun nm hnm => ?_, by decide +kernel⟩
  simp only [Finset.mem_insert, Finset.mem_singleton] at hnm
  rcases hnm with rfl | rfl
  · exact ⟨1, ⟨1, .on 0, 9, 2⟩, by decide +kernel, by decide +kernel⟩
  · exact ⟨2, ⟨2, .on 35, 9, 65⟩, by decide +kernel, by decide +kernel⟩

end Examples

end CbMpc
