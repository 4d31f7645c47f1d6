import CbMpc.Pve
import CbMpc.AdditiveShare

/-!
# A verified ciphertext restores its scalar

What the encryption returns is accepted, and each of its rows restores the scalar. Of two accepted
ciphertexts with the same rows and different challenges, each is decrypted to the discrete logarithm
of its point.
-/
namespace CbMpc

section Bytes

variable {q : ℕ} [hq : Fact q.Prime]

omit hq in
theorem fromBin_toBinShort (z : ZMod q) :
    ((fromBin (toBinShort (residue z)) : ℕ) : ℤ) = residue z := by
  rw [toBinShort, residue, Int.natAbs_natCast, fromBin_binPad (lt_pow_of_getBinSize_le le_rfl)]

theorem length_toBinShort_le (z : ZMod q) : (toBinShort (residue z)).length ≤ getBinSize q := by
  rw [toBinShort, length_binPad, residue]
  exact getBinSize_le_of_lt (ZMod.val_lt z)

theorem getBinSize_residue_le_modulus (z : ZMod q) : getBinSize (residue z) ≤ getBinSize q :=
  getBinSize_le_of_lt (ZMod.val_lt z)

end Bytes

section Rows

variable {q : ℕ} [hq : Fact q.Prime] {E : Type} [AddCommGroup E] [Module (ZMod q) E]
  [DecidableEq E] {EK DK : Type} {O : DrbgOracles} {pke : BasePke EK DK} {ek : EK} {dk : DK}
  {innerLabel : List (Fin 256)} {curve : Curve q E} {π : EcPve E} {Q : E} {i : Fin ecPveKappa}

/-- The part of a row that a ciphertext opens. -/
def EcPve.Opens (O : DrbgOracles) (π : EcPve E) (i : Fin ecPveKappa) (x : ZMod q) : Prop :=
  if π.b.getLsbD i then π.xRows i = residue x else
    ∃ d, drbgInit O (π.r i).toList = .ok d ∧ d.draw q = x

theorem drbgInit_buf128 (O : DrbgOracles) (r : Buf128) : ∃ d, drbgInit O r.toList = .ok d :=
  drbgInit_seeded O (by rw [List.Vector.toList_length])

section

omit [DecidableEq E]

/-- Every row that encryption makes is split with the number drawn from its first seed. -/
theorem ecPveEncryptRow_eq {x : ZMod q} {r0 r1 : Buf128} {p : PveSides E × ℤ}
    (h : ecPveEncryptRow O pke ek innerLabel curve (residue x) Q r0 r1 = .ok p) : ∃ d0 d1 c0 c1,
    drbgInit O r0.toList = .ok d0 ∧ drbgInit O r1.toList = .ok d1 ∧
      pke.encrypt ek innerLabel (toBinShort (residue (d0.draw q)))
        ((d0.afterDraw q).gen pveRhoSize).1 = .ok c0 ∧
      pke.encrypt ek innerLabel (toBinShort (residue (x - d0.draw q)))
        (d1.gen pveRhoSize).1 = .ok c1 ∧
      p = (⟨c0, c1, d0.draw q • curve.generator, Q - d0.draw q • curve.generator⟩,
        residue (x - d0.draw q)) := by
  obtain ⟨d0, hd0⟩ := drbgInit_buf128 O r0
  obtain ⟨d1, hd1⟩ := drbgInit_buf128 O r1
  rw [ecPveEncryptRow, hd0, ok_bind, hd1, ok_bind, Drbg.genBn_eq, ok_bind] at h
  simp only [modSub_residue, ok_bind, mulToGenerator_residue] at h
  obtain ⟨c0, hc0, h⟩ := bind_ok_iff.mp h
  obtain ⟨c1, hc1, h⟩ := bind_ok_iff.mp h
  exact ⟨d0, d1, c0, c1, hd0, hd1, hc0, hc1, (Except.ok.inj h).symm⟩

/-- A row that opens its first part, as the verifier recomputes it. -/
theorem ecPveVerifyRow_first {d : Drbg} {c : List (Fin 256)} (hb : π.b.getLsbD i = false)
    (hsize : getBinSize (π.xRows i) ≤ getBinSize q) (hrange : isInRange q (π.xRows i) = true)
    (hd : drbgInit O (π.r i).toList = .ok d)
    (hc : pke.encrypt ek innerLabel (toBinShort (residue (d.draw q)))
      ((d.afterDraw q).gen pveRhoSize).1 = .ok c) :
    ecPveVerifyRow O pke ek innerLabel curve π Q i =
      .ok ⟨c, π.c i, d.draw q • curve.generator, Q - d.draw q • curve.generator⟩ := by
  rw [ecPveVerifyRow, decide_eq_true hsize, require_true, ok_bind, hrange, require_true, ok_bind,
    hd, ok_bind, hb]
  simp only [Bool.false_eq_true, if_false, Drbg.genBn_eq, ok_bind, mulToGenerator_residue, hc]

/-- A row that opens its second part. -/
theorem ecPveVerifyRow_second {d : Drbg} {c : List (Fin 256)} {x : ZMod q}
    (hb : π.b.getLsbD i = true) (hx : π.xRows i = residue x)
    (hd : drbgInit O (π.r i).toList = .ok d)
    (hc : pke.encrypt ek innerLabel (toBinShort (residue x)) (d.gen pveRhoSize).1 = .ok c) :
    ecPveVerifyRow O pke ek innerLabel curve π Q i =
      .ok ⟨π.c i, c, Q - x • curve.generator, x • curve.generator⟩ := by
  rw [ecPveVerifyRow, hx, decide_eq_true (getBinSize_residue_le_modulus x), require_true, ok_bind,
    isInRange_residue, require_true, ok_bind, hd, ok_bind, hb]
  simp only [if_true, ok_bind, mulToGenerator_residue, hc]

end

/-- The ciphertext of one side. -/
def PveSides.c (row : PveSides E) (side : Bool) : List (Fin 256) := if side then row.c1 else row.c0

omit [DecidableEq E] in
/-- What an accepted row says: the opened side is an encryption of its part, and the points are
those of a sharing of `Q`. -/
theorem ecPveVerifyRow_ok {row : PveSides E}
    (h : ecPveVerifyRow O pke ek innerLabel curve π Q i = .ok row) : ∃ x : ZMod q,
    π.Opens O i x ∧ (∃ rho, pke.encrypt ek innerLabel (toBinShort (residue x)) rho =
      .ok (row.c (π.b.getLsbD i))) ∧
      row.c (!π.b.getLsbD i) = π.c i ∧
      (if π.b.getLsbD i then row.X1 else row.X0) = x • curve.generator ∧ row.X0 + row.X1 = Q := by
  obtain ⟨d, hd⟩ := drbgInit_buf128 O (π.r i)
  rw [ecPveVerifyRow, require_bind_ok_iff, require_bind_ok_iff] at h
  obtain ⟨-, hrange, h⟩ := h
  have hx := eq_residue_of_isInRange hrange
  rw [hd, ok_bind] at h
  cases hb : π.b.getLsbD i with
  | false =>
    simp only [hb, Bool.false_eq_true, if_false, Drbg.genBn_eq, ok_bind,
      mulToGenerator_residue] at h
    obtain ⟨c, hc, h⟩ := bind_ok_iff.mp h
    obtain rfl := Except.ok.inj h
    refine ⟨d.draw q, ?_, ⟨_, hc⟩, rfl, rfl, add_sub_cancel _ _⟩
    rw [EcPve.Opens, hb]
    exact ⟨d, hd, rfl⟩
  | true =>
    rw [hx] at h
    simp only [hb, if_true, ok_bind, mulToGenerator_residue] at h
    obtain ⟨c, hc, h⟩ := bind_ok_iff.mp h
    obtain rfl := Except.ok.inj h
    refine ⟨(π.xRows i : ZMod q), ?_, ⟨_, hc⟩, rfl, rfl, sub_add_cancel _ _⟩
    rw [EcPve.Opens, if_pos hb]
    exact hx

omit [AddCommGroup E] [Module (ZMod q) E] [DecidableEq E] in
theorem ecPveOpenedPart_eq {x : ZMod q} (hx : π.Opens O i x) :
    ecPveOpenedPart O q π i = .ok (residue x) := by
  rw [EcPve.Opens] at hx
  rw [ecPveOpenedPart]
  split at hx
  · rename_i hb
    rw [if_pos hb, hx, decide_eq_true (getBinSize_residue_le_modulus x), require_true, ok_bind,
      isInRange_residue, require_true, ok_bind]
  · rename_i hb
    obtain ⟨d, hd, rfl⟩ := hx
    rw [if_neg hb, hd, ok_bind, Drbg.genBn_eq, ok_bind]

omit [AddCommGroup E] [Module (ZMod q) E] [DecidableEq E] in
/-- The opened part of a row that was not verified may not be a residue. -/
theorem ecPveOpenedPart_cases (O : DrbgOracles) (π : EcPve E) (i : Fin ecPveKappa) :
    (∃ x : ZMod q, ecPveOpenedPart O q π i = .ok (residue x)) ∨
    ecPveOpenedPart O q π i = fail .crypto := by
  obtain ⟨d, hd⟩ := drbgInit_buf128 O (π.r i)
  rw [ecPveOpenedPart]
  split
  · cases hsize : decide (getBinSize (π.xRows i) ≤ getBinSize q) with
    | false => exact Or.inr rfl
    | true =>
      cases hrange : isInRange q (π.xRows i) with
      | false => exact Or.inr rfl
      | true =>
        exact Or.inl ⟨(π.xRows i : ZMod q), congrArg Except.ok (eq_residue_of_isInRange hrange)⟩
  · rw [hd, ok_bind, Drbg.genBn_eq]
    exact Or.inl ⟨_, rfl⟩

/-- The opened part and the decrypted one are added, and the sum is compared with `Q`. -/
theorem ecPveRestoreFromDecrypted_eq {x : ZMod q} (hx : π.Opens O i x) (y : ZMod q) :
    ecPveRestoreFromDecrypted O curve π i (toBinShort (residue y)) =
      (require (decide ((y + x) • curve.generator = π.Q)) .crypto >>= fun _ =>
        .ok (residue (y + x))) := by
  rw [ecPveRestoreFromDecrypted, decide_eq_true (length_toBinShort_le y), require_true, ok_bind,
    fromBin_toBinShort, isInRange_residue, require_true, ok_bind, ecPveOpenedPart_eq hx, ok_bind,
    modAdd_residue, ok_bind, mulToGenerator_residue, ok_bind]

/-- Whatever has been decrypted, nothing is thrown. -/
theorem returns_ecPveRestoreFromDecrypted (O : DrbgOracles) (curve : Curve q E) (π : EcPve E)
    (i : Fin ecPveKappa) (buf : List (Fin 256)) :
    Returns (ecPveRestoreFromDecrypted O curve π i buf) := by
  apply returns_bind_iff.mpr
  refine ⟨returns_require _ _, fun _ _ =>
    returns_bind_iff.mpr ⟨returns_require _ _, fun _ hrange => ?_⟩⟩
  rw [eq_residue_of_isInRange ((require_ok_iff _ _).mp hrange)]
  rcases ecPveOpenedPart_cases (q := q) O π i with ⟨x, hx⟩ | hx
  · rw [hx, ok_bind, modAdd_residue, ok_bind, mulToGenerator_residue, ok_bind]
    exact returns_bind_iff.mpr ⟨returns_require _ _, fun _ _ => returns_ok _⟩
  · rw [hx]
    exact returns_fail _

/-- Whatever has been decrypted, a scalar that is restored is the discrete logarithm of `Q`. -/
theorem ecPveRestoreFromDecrypted_ok {buf : List (Fin 256)} {v : ℤ}
    (h : ecPveRestoreFromDecrypted O curve π i buf = .ok v) :
    ∃ x : ZMod q, v = residue x ∧ x • curve.generator = π.Q := by
  rw [ecPveRestoreFromDecrypted, require_bind_ok_iff, require_bind_ok_iff] at h
  obtain ⟨-, hrange, h⟩ := h
  rw [eq_residue_of_isInRange hrange] at h
  rcases ecPveOpenedPart_cases (q := q) O π i with ⟨x, hx⟩ | hx
  · rw [hx, ok_bind, modAdd_residue, ok_bind, mulToGenerator_residue, ok_bind,
      require_bind_ok_iff] at h
    exact ⟨_, (Except.ok.inj h.2).symm, of_decide_eq_true h.1⟩
  · rw [hx] at h
    cases h

end Rows

theorem ecPveVerify_ok_iff {q : ℕ} {E : Type} [AddCommGroup E] [Module (ZMod q) E]
    [DecidableEq E] {EK DK : Type} {O : PveOracles E} {pke : BasePke EK DK} {ek : EK}
    {curve : Curve q E} {label : List (Fin 256)}
    {ro : PveHash E → BitVec ecPveKappa} {π : EcPve E} {Q : E} :
    ecPveVerify O ro pke ek curve π Q label = .ok () ↔ Q ≠ 0 ∧ Q = π.Q ∧ label = π.L ∧ ∃ rows,
      forRows (ecPveVerifyRow O.toDrbgOracles pke ek
        (genPveLabelWithPoint label (O.hashPoint Q)) curve π Q) = .ok rows ∧
        ro (pveHash Q label rows) = π.b := by
  rw [ecPveVerify]
  simp only [unit_bind_ok_iff, checkPoint_ok_iff, require_ok_iff, decide_eq_true_eq]
  rw [bind_ok_iff]
  simp only [require_ok_iff, decide_eq_true_eq]

section Runs

variable {q : ℕ} [hq : Fact q.Prime] {E : Type} [AddCommGroup E] [Module (ZMod q) E]
  [DecidableEq E] {EK DK : Type} {O : PveOracles E} {pke : BasePke EK DK} {ek : EK} {dk : DK}
  {curve : Curve q E} {label : List (Fin 256)}

/-- A ciphertext of which some row is restored is decrypted, to the discrete logarithm of its
point. -/
theorem ecPveDecrypt_of_row (hpke : pke.Correct ek dk)
    {ro : PveHash E → BitVec ecPveKappa} {π : EcPve E} {x : ZMod q}
    (hx : x • curve.generator = π.Q) {skipVerify : Bool}
    (hverify : skipVerify = false → ecPveVerify O ro pke ek curve π π.Q label = .ok ())
    {i : Fin ecPveKappa}
    (hrow : ecPveDecryptRow O.toDrbgOracles pke dk (genPveLabelWithPoint label (O.hashPoint π.Q))
      curve π i = .ok (residue x)) :
    ecPveDecrypt O ro pke dk ek label curve π skipVerify = .ok (residue x) := by
  have hreturns : ∀ i ∈ List.finRange ecPveKappa,
      Returns (ecPveDecryptRow O.toDrbgOracles pke dk (genPveLabelWithPoint label (O.hashPoint π.Q))
        curve π i) := fun i _ =>
    returns_bind_iff.mpr ⟨hpke.returns _ _, fun _ _ => returns_ecPveRestoreFromDecrypted _ _ _ _ _⟩
  obtain ⟨v, hv⟩ := tryRows_defined hreturns (List.mem_finRange i) hrow
  obtain ⟨i', -, hrow'⟩ := tryRows_ok hv
  obtain ⟨buf, -, hrestore⟩ := bind_ok_iff.mp hrow'
  obtain ⟨x', rfl, hx'⟩ := ecPveRestoreFromDecrypted_ok hrestore
  obtain rfl : x' = x := smul_left_injective (ZMod q) curve.generator_ne_zero (hx'.trans hx.symm)
  rw [ecPveDecrypt]
  cases skipVerify with
  | false => simpa [hverify rfl] using hv
  | true => exact hv

/-- A row of an honest ciphertext: the verifier recomputes it, and whichever part is opened,
decryption finds the other. -/
theorem ecPveEncryptRow_spec {O : DrbgOracles} (hpke : pke.Correct ek dk)
    {innerLabel : List (Fin 256)} {x : ZMod q} {r0 r1 : Buf128} {p : PveSides E × ℤ}
    (h : ecPveEncryptRow O pke ek innerLabel curve (residue x) (x • curve.generator) r0 r1 = .ok p)
    {π : EcPve E} {i : Fin ecPveKappa} (hQ : π.Q = x • curve.generator)
    (hxRow : π.xRows i = if π.b.getLsbD i then p.2 else 0)
    (hr : π.r i = if π.b.getLsbD i then r1 else r0)
    (hc : π.c i = if π.b.getLsbD i then p.1.c0 else p.1.c1) :
    ecPveVerifyRow O pke ek innerLabel curve π (x • curve.generator) i = .ok p.1 ∧
      ecPveDecryptRow O pke dk innerLabel curve π i = .ok (residue x) := by
  obtain ⟨d0, d1, c0, c1, hd0, hd1, hc0, hc1, rfl⟩ := ecPveEncryptRow_eq h
  have hrestore : ∀ {y z : ZMod q} {ct : List (Fin 256)}, π.Opens O i z → y + z = x → π.c i = ct →
      pke.decrypt dk innerLabel ct = .ok (toBinShort (residue y)) →
      ecPveDecryptRow O pke dk innerLabel curve π i = .ok (residue x) := by
    intro y z ct hopens hsum hct hplain
    rw [ecPveDecryptRow, hct, hplain, ok_bind, ecPveRestoreFromDecrypted_eq hopens, hsum, hQ,
      decide_eq_true rfl, require_true, ok_bind]
  cases hb : π.b.getLsbD i with
  | false =>
    rw [hb] at hxRow hr hc
    have hzero : isInRange q 0 = true :=
      (isInRange_iff 0).mpr ⟨le_rfl, by exact_mod_cast hq.out.pos⟩
    have hopens : π.Opens O i (d0.draw q) := by
      rw [EcPve.Opens, hb, hr]
      exact ⟨d0, hd0, rfl⟩
    have hempty : π.xRows i = 0 := hxRow
    constructor
    · rw [ecPveVerifyRow_first hb (by rw [hempty]; exact Nat.zero_le _)
        (by rw [hempty]; exact hzero) (by rw [hr]; exact hd0) hc0, hc]
      rfl
    · exact hrestore hopens (sub_add_cancel _ _) hc (hpke.decrypt_encrypt hc1)
  | true =>
    rw [hb] at hxRow hr hc
    have hopens : π.Opens O i (x - d0.draw q) := by
      rw [EcPve.Opens, if_pos hb]
      exact hxRow
    constructor
    · rw [ecPveVerifyRow_second hb hxRow (by rw [hr]; exact hd1) hc1, hc, sub_smul, sub_sub_cancel]
      rfl
    · exact hrestore hopens (add_sub_cancel _ _) hc (hpke.decrypt_encrypt hc0)

/-- The rows of an honest ciphertext, which do not depend on the challenge. -/
def HonestRows (O : PveOracles E) (pke : BasePke EK DK) (ek : EK) (label : List (Fin 256))
    (curve : Curve q E) (x : ZMod q) (r0 r1 : Fin ecPveKappa → Buf128)
    (rows : Fin ecPveKappa → PveSides E × ℤ) : Prop :=
  forRows (fun i => ecPveEncryptRow O.toDrbgOracles pke ek
    (genPveLabelWithPoint label (O.hashPoint (x • curve.generator))) curve
    (residue x) (x • curve.generator) (r0 i) (r1 i)) = .ok rows

omit [DecidableEq E] in
theorem exists_honestRows (O : PveOracles E)
    (hencrypt : ∀ innerLabel plain rho, ∃ ct, pke.encrypt ek innerLabel plain rho = .ok ct)
    (label : List (Fin 256)) (curve : Curve q E) (x : ZMod q) (r0 r1 : Fin ecPveKappa → Buf128) :
    ∃ rows, HonestRows O pke ek label curve x r0 r1 rows := by
  apply forRows_defined
  intro i
  obtain ⟨d0, hd0⟩ := drbgInit_buf128 O.toDrbgOracles (r0 i)
  obtain ⟨d1, hd1⟩ := drbgInit_buf128 O.toDrbgOracles (r1 i)
  generalize genPveLabelWithPoint label (O.hashPoint (x • curve.generator)) = innerLabel
  obtain ⟨c0, hc0⟩ := hencrypt innerLabel (toBinShort (residue (d0.draw q)))
    ((d0.afterDraw q).gen pveRhoSize).1
  obtain ⟨c1, hc1⟩ :=
    hencrypt innerLabel (toBinShort (residue (x - d0.draw q))) (d1.gen pveRhoSize).1
  rw [ecPveEncryptRow, hd0, ok_bind, hd1, ok_bind, Drbg.genBn_eq, ok_bind]
  simp only [modSub_residue, ok_bind, mulToGenerator_residue, hc0, hc1]
  exact ⟨_, rfl⟩

theorem modReduce_eq_residue {x : ℤ} (h0 : 0 ≤ x) (hbound : x < 2 ^ 4096) :
    modReduce q x = .ok (residue (x : ZMod q)) := by
  rw [modReduce_eq_emod hq.out.two_le h0 hbound, emod_eq_residue]

omit [DecidableEq E] in
theorem ecPveEncrypt_defined (ro : PveHash E → BitVec ecPveKappa) {x : ℤ}
    (h0 : 0 ≤ x) (hbound : x < 2 ^ 4096) {r0 r1 : Fin ecPveKappa → Buf128}
    {rows : Fin ecPveKappa → PveSides E × ℤ}
    (hrows : HonestRows O pke ek label curve (x : ZMod q) r0 r1 rows) :
    ∃ π, ecPveEncrypt O ro pke ek label curve x r0 r1 = .ok π := by
  rw [HonestRows] at hrows
  rw [ecPveEncrypt, modReduce_eq_residue h0 hbound, ok_bind, mulToGenerator_residue, ok_bind]
  simp only [hrows, ok_bind]
  exact ⟨_, rfl⟩

/-- What an honest ciphertext holds: its rows are recomputed by the verifier, and each of them
restores the scalar. -/
structure EcPve.Honest (O : PveOracles E) (ro : PveHash E → BitVec ecPveKappa)
    (pke : BasePke EK DK) (ek : EK) (dk : DK) (label : List (Fin 256)) (curve : Curve q E)
    (x : ZMod q) (rows : Fin ecPveKappa → PveSides E) (π : EcPve E) : Prop where
  Q_eq : π.Q = x • curve.generator
  L_eq : π.L = label
  b_eq : π.b = ro (pveHash π.Q label rows)
  verified :
    forRows (ecPveVerifyRow O.toDrbgOracles pke ek
      (genPveLabelWithPoint label (O.hashPoint π.Q)) curve π π.Q) = .ok rows
  restored : ∀ i, ecPveDecryptRow O.toDrbgOracles pke dk
    (genPveLabelWithPoint label (O.hashPoint π.Q)) curve π i = .ok (residue x)

theorem ecPveEncrypt_honest (hpke : pke.Correct ek dk) {ro : PveHash E → BitVec ecPveKappa} {x : ℤ}
    (h0 : 0 ≤ x) (hbound : x < 2 ^ 4096) {r0 r1 : Fin ecPveKappa → Buf128} {π : EcPve E}
    (h : ecPveEncrypt O ro pke ek label curve x r0 r1 = .ok π) :
    ∃ rows, HonestRows O pke ek label curve (x : ZMod q) r0 r1 rows ∧
      π.Honest O ro pke ek dk label curve (x : ZMod q) fun i => (rows i).1 := by
  rw [ecPveEncrypt, modReduce_eq_residue h0 hbound, ok_bind, mulToGenerator_residue, ok_bind] at h
  obtain ⟨rows, hrows, h⟩ := bind_ok_iff.mp h
  have hπ := Except.ok.inj h
  have hQ : π.Q = (x : ZMod q) • curve.generator := by rw [← hπ]
  have hspec := fun i => ecPveEncryptRow_spec hpke (forRows_ok_iff.mp hrows i) hQ (by rw [← hπ])
    (by rw [← hπ]) (by rw [← hπ])
  refine ⟨rows, hrows, hQ, by rw [← hπ], by rw [← hπ], ?_, ?_⟩
  · rw [hQ]
    exact forRows_ok_iff.mpr fun i => (hspec i).1
  · rw [hQ]
    exact fun i => (hspec i).2

theorem EcPve.Honest.verify {ro : PveHash E → BitVec ecPveKappa} {x : ZMod q}
    {rows : Fin ecPveKappa → PveSides E} {π : EcPve E}
    (h : π.Honest O ro pke ek dk label curve x rows) (hne : x ≠ 0) :
    ecPveVerify O ro pke ek curve π π.Q label = .ok () := by
  refine ecPveVerify_ok_iff.mpr ⟨?_, rfl, h.L_eq.symm, rows, h.verified, h.b_eq.symm⟩
  rw [h.Q_eq]
  exact (smul_generator_eq_zero curve).not.mpr hne

/-- Encryption succeeds when the base encryption does, and what it returns is accepted and restored
from each of its rows. -/
theorem ecPve_complete (O : PveOracles E) (ro : PveHash E → BitVec ecPveKappa)
    (hpke : pke.Correct ek dk) (label : List (Fin 256)) (curve : Curve q E) {x : ℤ} (h0 : 0 ≤ x)
    (hbound : x < 2 ^ 4096) (hne : (x : ZMod q) ≠ 0) (r0 r1 : Fin ecPveKappa → Buf128) :
    ((∀ innerLabel plain rho, ∃ ct, pke.encrypt ek innerLabel plain rho = .ok ct) →
        ∃ π, ecPveEncrypt O ro pke ek label curve x r0 r1 = .ok π) ∧
      ∀ π, ecPveEncrypt O ro pke ek label curve x r0 r1 = .ok π →
      π.Q = (x : ZMod q) • curve.generator ∧
        ecPveVerify O ro pke ek curve π π.Q label = .ok () ∧
        (∀ i, ecPveDecryptRow O.toDrbgOracles pke dk (genPveLabelWithPoint label (O.hashPoint π.Q))
          curve π i = .ok (x % q)) ∧
        ∀ skipVerify, ecPveDecrypt O ro pke dk ek label curve π skipVerify = .ok (x % q) := by
  constructor
  · intro hencrypt
    obtain ⟨rows, hrows⟩ := exists_honestRows O hencrypt label curve (x : ZMod q) r0 r1
    exact ecPveEncrypt_defined ro h0 hbound hrows
  · intro π h
    obtain ⟨rows, -, hhonest⟩ := ecPveEncrypt_honest hpke h0 hbound h
    have hverify := hhonest.verify hne
    rw [emod_eq_residue]
    exact ⟨hhonest.Q_eq, hverify, hhonest.restored, fun skipVerify =>
      ecPveDecrypt_of_row hpke hhonest.Q_eq.symm (fun _ => hverify)
        (hhonest.restored ⟨0, by decide⟩)⟩

/-- Two accepted ciphertexts with the same rows and different challenges are both decrypted to the
discrete logarithm of `Q`. -/
theorem ecPve_sound (hpke : pke.Correct ek dk) {ro ro' : PveHash E → BitVec ecPveKappa}
    {π π' : EcPve E} {Q : E} (h : ecPveVerify O ro pke ek curve π Q label = .ok ())
    (h' : ecPveVerify O ro' pke ek curve π' Q label = .ok ())
    (hrows : forRows (ecPveVerifyRow O.toDrbgOracles pke ek
      (genPveLabelWithPoint label (O.hashPoint Q)) curve π Q) =
      forRows (ecPveVerifyRow O.toDrbgOracles pke ek (genPveLabelWithPoint label (O.hashPoint Q))
        curve π' Q)) (hne : π.b ≠ π'.b) :
    ∃ x : ZMod q, x • curve.generator = Q ∧ ∀ skipVerify,
      ecPveDecrypt O ro pke dk ek label curve π skipVerify = .ok (residue x) ∧
        ecPveDecrypt O ro' pke dk ek label curve π' skipVerify = .ok (residue x) := by
  obtain ⟨-, rfl, -, rows, hr, -⟩ := ecPveVerify_ok_iff.mp h
  obtain ⟨-, hQ, -, rows', hr', -⟩ := ecPveVerify_ok_iff.mp h'
  rw [hr, hr'] at hrows
  obtain rfl := Except.ok.inj hrows
  obtain ⟨i, hbit⟩ := exists_getLsbD_ne hne
  obtain ⟨x, hx, ⟨rho, hct⟩, hother, hP, hsum⟩ := ecPveVerifyRow_ok (forRows_ok_iff.mp hr i)
  obtain ⟨x', hx', ⟨rho', hct'⟩, hother', hP', -⟩ := ecPveVerifyRow_ok (forRows_ok_iff.mp hr' i)
  rw [hbit] at hct' hother' hP'
  rw [Bool.not_not] at hother'
  have hlog : (x' + x) • curve.generator = π.Q := by
    rw [add_smul, ← hP, ← hP', ← hsum]
    cases π.b.getLsbD i with
    | false => exact add_comm _ _
    | true => rfl
  have hrow : ecPveDecryptRow O.toDrbgOracles pke dk (genPveLabelWithPoint label (O.hashPoint π.Q))
      curve π i = .ok (residue (x' + x)) := by
    rw [ecPveDecryptRow, ← hother, hpke.decrypt_encrypt hct', ok_bind,
      ecPveRestoreFromDecrypted_eq hx, decide_eq_true hlog, require_true,
      ok_bind]
  have hrow' : ecPveDecryptRow O.toDrbgOracles pke dk
      (genPveLabelWithPoint label (O.hashPoint π.Q)) curve π' i =
      .ok (residue (x' + x)) := by
    rw [ecPveDecryptRow, ← hother', hpke.decrypt_encrypt hct, ok_bind,
      ecPveRestoreFromDecrypted_eq hx', add_comm x x', decide_eq_true (hlog.trans hQ),
      require_true, ok_bind]
  refine ⟨x' + x, hlog, fun skipVerify => ⟨ecPveDecrypt_of_row hpke hlog (fun _ => h) hrow, ?_⟩⟩
  rw [hQ] at hrow' h'
  exact ecPveDecrypt_of_row hpke (hlog.trans hQ) (fun _ => h') hrow'

end Runs

section Samples

/-- A base encryption that hides nothing. -/
def openPke : BasePke Unit Unit where
  encrypt _ _ plain _ := .ok plain
  decrypt _ _ ct := .ok ct

theorem openPke_correct : openPke.Correct () () where
  decrypt_encrypt h := by
    cases h
    rfl
  returns _ _ := returns_ok _

theorem openPke_defined (innerLabel plain rho : List (Fin 256)) :
    ∃ ct, openPke.encrypt () innerLabel plain rho = .ok ct := ⟨plain, rfl⟩

def samplePveOracles : PveOracles (ZMod 1009) := ⟨⟨fun _ _ => Stream'.const 1, id⟩, fun _ => []⟩

def sampleSeeds : Fin ecPveKappa → Buf128 := fun _ => List.Vector.replicate 16 0

theorem five_lt_bound : (5 : ℤ) < 2 ^ 4096 :=
  lt_of_lt_of_le (by norm_num : (5 : ℤ) < 2 ^ 3) (pow_le_pow_right₀ (by norm_num) (by norm_num))

theorem five_ne_zero_mod : ((5 : ℤ) : ZMod 1009) ≠ 0 := by decide

/-- Five is encrypted, accepted and decrypted. -/
theorem ecPve_complete_sample :
    ∃ π, ecPveEncrypt samplePveOracles (fun _ => 0) openPke () [] sampleCurve 5 sampleSeeds
    sampleSeeds = .ok π ∧ ecPveVerify samplePveOracles (fun _ => 0) openPke ()
      sampleCurve π π.Q [] = .ok () ∧
      ecPveDecrypt samplePveOracles (fun _ => 0) openPke () () [] sampleCurve π false = .ok 5 := by
  obtain ⟨hdefined, hall⟩ :=
    ecPve_complete samplePveOracles (fun _ => 0) openPke_correct [] sampleCurve
    (by norm_num) five_lt_bound five_ne_zero_mod sampleSeeds sampleSeeds
  obtain ⟨π, hπ⟩ := hdefined openPke_defined
  exact ⟨π, hπ, (hall π hπ).2.1, (hall π hπ).2.2.2 false⟩

/-- Its rows are accepted with two challenges. -/
theorem ecPve_sound_sample : ∃ π π' : EcPve (ZMod 1009), π.b ≠ π'.b ∧ ∃ x : ZMod 1009,
      x • sampleCurve.generator = π.Q ∧
    ecPveDecrypt samplePveOracles (fun _ => 0) openPke () () [] sampleCurve π false =
      .ok (residue x) ∧
      ecPveDecrypt samplePveOracles (fun _ => 1) openPke () () [] sampleCurve π' false =
        .ok (residue x) := by
  obtain ⟨rows, hrows⟩ := exists_honestRows samplePveOracles openPke_defined []
    sampleCurve ((5 : ℤ) : ZMod 1009) sampleSeeds sampleSeeds
  obtain ⟨π, hπ⟩ := ecPveEncrypt_defined (fun _ => 0) (by norm_num) five_lt_bound hrows
  obtain ⟨π', hπ'⟩ := ecPveEncrypt_defined (fun _ => 1) (by norm_num) five_lt_bound hrows
  obtain ⟨rows₁, hrows₁, h⟩ := ecPveEncrypt_honest openPke_correct (by norm_num) five_lt_bound hπ
  obtain ⟨rows₂, hrows₂, h'⟩ := ecPveEncrypt_honest openPke_correct (by norm_num) five_lt_bound hπ'
  obtain rfl := Except.ok.inj (hrows₁.symm.trans hrows₂)
  have hQ : π'.Q = π.Q := h'.Q_eq.trans h.Q_eq.symm
  have hne : π.b ≠ π'.b := by
    rw [h.b_eq, h'.b_eq]
    decide
  have hverify' := h'.verify five_ne_zero_mod
  have hverified' := h'.verified
  rw [hQ] at hverify' hverified'
  obtain ⟨x, hx, hall⟩ := ecPve_sound openPke_correct (h.verify five_ne_zero_mod) hverify'
    (h.verified.trans hverified'.symm) hne
  exact ⟨π, π', hne, x, hx, (hall false).1, (hall false).2⟩

end Samples

end CbMpc
