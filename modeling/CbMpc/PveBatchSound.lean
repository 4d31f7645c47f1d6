import CbMpc.PveBatch
import CbMpc.PveSound

/-!
# A verified batch restores its scalars

The two parts of a row are a seed and a string of bytes, and each of them stands for a vector of
scalars. What the encryption returns is accepted and restored from each row, and two challenges for
the same rows are answered only for a batch that is decrypted.
-/
namespace CbMpc

section Vectors

variable {q : ℕ} [hq : Fact q.Prime] {E : Type} [AddCommGroup E] [Module (ZMod q) E] [DecidableEq E]

/-- The scalars that are drawn from the seed of a first part. -/
def seedScalars (curve : SizedCurve q E) (n : ℕ) (drbg01 : Drbg) : List (ZMod q) :=
  vectorOf q (x0SourceBin curve n drbg01) n (curve.size + bitsToBytes secPStat)

omit hq [Module (ZMod q) E] [DecidableEq E] in
theorem length_seedScalars (curve : SizedCurve q E) (n : ℕ) (drbg01 : Drbg) :
    (seedScalars curve n drbg01).length = n :=
  length_vectorOf _ _ _

section

omit [Module (ZMod q) E] [DecidableEq E]

theorem vectorFromBin_seed (curve : SizedCurve q E) (n : ℕ) (drbg01 : Drbg) :
    vectorFromBin (x0SourceBin curve n drbg01) n (curve.size + bitsToBytes secPStat) q =
      .ok ((seedScalars curve n drbg01).map residue) := by
  have hsize := curve.size_le
  have hbytes : bitsToBytes secPStat = 8 := rfl
  exact vectorFromBin_eq (by omega) (Stream'.length_take _ _).symm

theorem vectorFromBin_bytes (curve : SizedCurve q E) {n : ℕ} {bin : List (Fin 256)}
    (h : bin.length = n * curve.size) :
    vectorFromBin bin n curve.size q = .ok ((vectorOf q bin n curve.size).map residue) :=
  vectorFromBin_eq (le_trans curve.size_le (by norm_num)) h.symm

theorem vectorToBin_scalars (curve : SizedCurve q E) {xs : List (ZMod q)}
    (h : xs.length ≤ ecPveBatchMaxCount) :
    vectorToBin (xs.map residue) curve.size = .ok (vectorBytes xs curve.size) := by
  refine vectorToBin_residue curve.order_le
    (le_trans h ((by decide : ecPveBatchMaxCount ≤ (2 ^ 31 - 1) / 66).trans ?_))
  rcases Nat.eq_zero_or_pos curve.size with h0 | hpos
  · have horder := curve.order_le
    have hsize : 0 < q.size := Nat.size_pos.mpr hq.out.pos
    rw [h0, getBinSize, bitsToBytes, Int.natAbs_natCast] at horder
    omega
  · exact Nat.div_le_div_left curve.size_le hpos

end

omit [DecidableEq E] in
theorem mapM_mulToGenerator (curve : Curve q E) (xs : List (ZMod q)) :
    (xs.map residue).mapM curve.mulToGenerator = .ok (xs.map fun x => x • curve.generator) := by
  rw [mapM_ok (g := fun v : ℤ => (v : ZMod q) • curve.generator), List.map_map]
  · exact congrArg Except.ok (List.map_congr_left
      fun x _ => by rw [Function.comp_apply, cast_residue])
  · intro v hv
    obtain ⟨x, -, rfl⟩ := List.mem_map.mp hv
    rw [mulToGenerator_residue, cast_residue]

theorem subEach_residue (xs ys : List (ZMod q)) :
    subEach q (xs.map residue) (ys.map residue) =
      .ok ((List.zipWith (· - ·) xs ys).map residue) := by
  induction xs generalizing ys with
  | nil => rfl
  | cons x xs ih =>
    cases ys with
    | nil => rfl
    | cons y ys =>
      have hrest := ih ys
      rw [subEach] at hrest
      rw [subEach, List.map_cons, List.map_cons, List.zip_cons_cons, List.mapM_cons, modSub_residue,
        ok_bind, hrest]
      rfl

/-- The points of a vector of scalars. -/
def pointsOf (curve : Curve q E) (xs : List (ZMod q)) : List E :=
  xs.map fun x => x • curve.generator

omit [DecidableEq E] in
/-- The points left for the other part of a row. -/
theorem pointsOf_sub (curve : Curve q E) (xs ys : List (ZMod q)) :
    List.zipWith (· - ·) (pointsOf curve xs) (pointsOf curve ys) =
      pointsOf curve (List.zipWith (· - ·) xs ys) := by
  rw [pointsOf, pointsOf, pointsOf, List.zipWith_map, List.map_zipWith]
  simp only [sub_smul]

theorem zipWith_sub_sub {M : Type} [AddCommGroup M] {xs ys : List M} (h : xs.length = ys.length) :
    List.zipWith (· - ·) xs (List.zipWith (· - ·) xs ys) = ys := by
  induction xs generalizing ys with
  | nil => rw [List.length_eq_zero_iff.mp h.symm, List.zipWith_nil_left]
  | cons x xs ih =>
    cases ys with
    | nil => simp at h
    | cons y ys =>
      rw [List.zipWith_cons_cons, List.zipWith_cons_cons, sub_sub_cancel, ih (by simpa using h)]

theorem zipWith_add_sub {M : Type} [AddCommGroup M] {xs ys : List M} (h : xs.length = ys.length) :
    List.zipWith (· + ·) ys (List.zipWith (· - ·) xs ys) = xs := by
  induction xs generalizing ys with
  | nil => rw [List.length_eq_zero_iff.mp h.symm, List.zipWith_nil_left]
  | cons x xs ih =>
    cases ys with
    | nil => simp at h
    | cons y ys =>
      rw [List.zipWith_cons_cons, List.zipWith_cons_cons, add_sub_cancel, ih (by simpa using h)]

theorem zipWith_add_comm {M : Type} [AddCommGroup M] (xs ys : List M) :
    List.zipWith (· + ·) xs ys = List.zipWith (· + ·) ys xs := List.zipWith_comm_of_comm add_comm

omit [DecidableEq E] in
theorem pointsOf_add (curve : Curve q E) (xs ys : List (ZMod q)) :
    List.zipWith (· + ·) (pointsOf curve xs) (pointsOf curve ys) =
      pointsOf curve (List.zipWith (· + ·) xs ys) := by
  rw [pointsOf, pointsOf, pointsOf, List.zipWith_map, List.map_zipWith]
  simp only [add_smul]

omit [DecidableEq E] in
theorem pointsOf_injective (curve : Curve q E) :
    Function.Injective (pointsOf curve : List (ZMod q) → List E) :=
  List.map_injective_iff.mpr (smul_left_injective (ZMod q) curve.generator_ne_zero)

/-- Two parts of the right points are added. -/
theorem addEach_eq (curve : Curve q E) {xs ys : List (ZMod q)} (h : xs.length = ys.length) :
    addEach curve (pointsOf curve (List.zipWith (· + ·) xs ys))
      ((xs.map residue).zip (ys.map residue)) =
      .ok ((List.zipWith (· + ·) xs ys).map residue) := by
  induction xs generalizing ys with
  | nil => rw [List.map_nil, List.zip_nil_left, addEach, List.zipWith_nil_left, List.map_nil]
  | cons x xs ih =>
    cases ys with
    | nil => simp at h
    | cons y ys =>
      have hrest := ih (by simpa using h)
      rw [pointsOf] at hrest
      simp only [pointsOf, List.map_cons, List.zip_cons_cons, List.zipWith_cons_cons, addEach,
        modAdd_residue, ok_bind, mulToGenerator_residue, decide_true, require_true, hrest]

/-- Whatever the parts are, the sums that are found are the discrete logarithms, and nothing is
thrown. -/
theorem addEach_spec (curve : Curve q E) {Q : List E} {xs ys : List (ZMod q)}
    (hx : xs.length = Q.length) (hy : ys.length = Q.length) :
    Returns (addEach curve Q ((xs.map residue).zip (ys.map residue))) ∧
      ∀ v, addEach curve Q ((xs.map residue).zip (ys.map residue)) = .ok v →
        ∃ zs : List (ZMod q), v = zs.map residue ∧ pointsOf curve zs = Q := by
  induction Q generalizing xs ys with
  | nil =>
    rw [List.length_eq_zero_iff.mp hx]
    refine ⟨returns_ok _, fun v hv => ⟨[], ?_, rfl⟩⟩
    exact (Except.ok.inj hv).symm
  | cons P Q ih =>
    obtain ⟨x, xs, rfl⟩ := List.exists_cons_of_length_eq_add_one hx
    obtain ⟨y, ys, rfl⟩ := List.exists_cons_of_length_eq_add_one hy
    obtain ⟨hreturns, hok⟩ := ih (by simpa using hx) (by simpa using hy)
    simp only [List.map_cons, List.zip_cons_cons, addEach, modAdd_residue, ok_bind,
      mulToGenerator_residue]
    constructor
    · exact returns_bind_iff.mpr ⟨returns_require _ _, fun _ _ =>
        returns_bind_iff.mpr ⟨hreturns, fun _ _ => returns_ok _⟩⟩
    · intro v hv
      obtain ⟨hP, hv⟩ := require_bind_ok_iff.mp hv
      obtain ⟨v', hv', hv⟩ := bind_ok_iff.mp hv
      obtain ⟨zs, rfl, hzs⟩ := hok v' hv'
      refine ⟨(x + y) :: zs, (Except.ok.inj hv).symm, ?_⟩
      rw [← hzs, of_decide_eq_true hP]
      rfl

end Vectors

section Rows

variable {q : ℕ} [hq : Fact q.Prime] {E : Type} [AddCommGroup E] [Module (ZMod q) E]
  [DecidableEq E] {EK DK : Type} {O : DrbgOracles} {pke : BasePke EK DK} {ek : EK} {dk : DK}
  {innerLabel : List (Fin 256)} {curve : SizedCurve q E} {π : EcPveBatch E}
  {Q : List E} {i : Fin ecPveKappa}

/-- The scalars of the part of a row that is opened. -/
def PveBatchRow.Opens (O : DrbgOracles) (curve : SizedCurve q E) (n : ℕ) (bi : Bool)
    (row : PveBatchRow) (xs : List (ZMod q)) : Prop :=
  if bi then row.xBin.length = n * curve.size ∧ xs = vectorOf q row.xBin n curve.size
  else row.r.length = 32 ∧ ∃ d, drbgInit O (row.r.take 16) = .ok d ∧ xs = seedScalars curve n d

/-- The scalars that a plaintext stands for, on either side. -/
def Reveals (O : DrbgOracles) (curve : SizedCurve q E) (n : ℕ) (side : Bool)
    (plain : List (Fin 256)) (xs : List (ZMod q)) : Prop :=
  if side then xs.length = n ∧ plain = vectorBytes xs curve.size
  else plain.length = 16 ∧ ∃ d, drbgInit O plain = .ok d ∧ xs = seedScalars curve n d

omit hq [Module (ZMod q) E] [DecidableEq E] in
theorem PveBatchRow.Opens.length_eq {n : ℕ} {bi : Bool} {row : PveBatchRow} {xs : List (ZMod q)}
    (h : row.Opens O curve n bi xs) :
    xs.length = n := by
  cases bi with
  | false =>
    obtain ⟨-, d, -, rfl⟩ := h
    exact length_seedScalars curve n d
  | true =>
    obtain ⟨-, rfl⟩ := h
    exact length_vectorOf _ _ _

omit hq [Module (ZMod q) E] [DecidableEq E] in
theorem Reveals.length_eq {n : ℕ} {side : Bool} {plain : List (Fin 256)} {xs : List (ZMod q)}
    (h : Reveals O curve n side plain xs) : xs.length = n := by
  cases side with
  | false =>
    obtain ⟨-, d, -, rfl⟩ := h
    exact length_seedScalars curve n d
  | true => exact h.1

theorem drbgInit_take (O : DrbgOracles) {r : List (Fin 256)} (h : 16 ≤ r.length) :
    ∃ d, drbgInit O (r.take 16) = .ok d := by
  apply drbgInit_seeded O
  rw [List.length_take]
  omega

theorem drbgInit_drop (O : DrbgOracles) {r : List (Fin 256)} (h : r.length = 32) :
    ∃ d, drbgInit O (r.drop 16) = .ok d := by
  apply drbgInit_seeded O
  rw [List.length_drop]
  omega

omit [Module (ZMod q) E] [DecidableEq E] in
/-- What an opened row says: a plaintext that stands for its scalars has been encrypted. -/
theorem ecPveBatchOpenRow_ok {n : ℕ} (hn : n ≤ ecPveBatchMaxCount) {bi : Bool} {row : PveBatchRow}
    {p : List ℤ × List (Fin 256)}
    (h : ecPveBatchOpenRow O pke ek innerLabel curve n bi row = .ok p) :
    ∃ (xs : List (ZMod q)) (plain rho : List (Fin 256)),
    row.Opens O curve n bi xs ∧ Reveals O curve n bi plain xs ∧ p.1 = xs.map residue ∧
    pke.encrypt ek innerLabel plain rho = .ok p.2 := by
  rw [ecPveBatchOpenRow] at h
  cases bi with
  | false =>
    simp only [Bool.false_eq_true, if_false, require_bind_ok_iff, decide_eq_true_eq] at h
    obtain ⟨hlen, h⟩ := h
    obtain ⟨d, hd⟩ := drbgInit_take O (by omega : 16 ≤ row.r.length)
    obtain ⟨d', hd'⟩ := drbgInit_drop O hlen
    rw [hd, ok_bind, vectorFromBin_seed, ok_bind, hd', ok_bind] at h
    obtain ⟨c, hc, h⟩ := bind_ok_iff.mp h
    obtain rfl := Except.ok.inj h
    have htake : (row.r.take 16).length = 16 := by
      rw [List.length_take]
      omega
    exact ⟨_, _, _, ⟨hlen, d, hd, rfl⟩, ⟨htake, d, hd, rfl⟩, rfl, hc⟩
  | true =>
    simp only [if_true, require_bind_ok_iff, decide_eq_true_eq] at h
    obtain ⟨hlen, hbin, h⟩ := h
    obtain ⟨d, hd⟩ := drbgInit_seeded O (by omega : 16 ≤ row.r.length)
    have hcount : (vectorOf q row.xBin n curve.size).length ≤
      ecPveBatchMaxCount := by rwa [length_vectorOf]
    rw [vectorFromBin_bytes curve hbin, ok_bind, hd, ok_bind, vectorToBin_scalars curve hcount,
      ok_bind] at h
    obtain ⟨c, hc, h⟩ := bind_ok_iff.mp h
    obtain rfl := Except.ok.inj h
    exact ⟨_, _, _, ⟨hbin, rfl⟩, ⟨length_vectorOf _ _ _, rfl⟩, rfl, hc⟩

omit [DecidableEq E] in
/-- What an accepted row says: the opened side is an encryption of its scalars, and the points are
those of a sharing of `Q`. -/
theorem ecPveBatchVerifyRow_ok (hn : π.n ≤ ecPveBatchMaxCount) (hQ : Q.length = π.n)
    {row : PveSides (List E)} (h : ecPveBatchVerifyRow O pke ek innerLabel curve π Q i = .ok row) :
    ∃ (xs : List (ZMod q)) (plain rho : List (Fin 256)),
    (π.rows i).Opens O curve π.n (π.b.getLsbD i) xs ∧ Reveals O curve π.n (π.b.getLsbD i) plain xs ∧
      pke.encrypt ek innerLabel plain rho = .ok (row.c (π.b.getLsbD i)) ∧
      row.c (!π.b.getLsbD i) = (π.rows i).c ∧
      (if π.b.getLsbD i then row.X1 else row.X0) = pointsOf curve.toCurve xs ∧
      List.zipWith (· + ·) row.X0 row.X1 = Q := by
  rw [ecPveBatchVerifyRow] at h
  obtain ⟨⟨xi, c⟩, hopen, h⟩ := bind_ok_iff.mp h
  obtain ⟨xs, plain, rho, hopens, hreveals, rfl, hc⟩ := ecPveBatchOpenRow_ok hn hopen
  simp only [mapM_mulToGenerator, ok_bind] at h
  obtain rfl := Except.ok.inj h
  have hlen : Q.length = (pointsOf curve.toCurve xs).length := by
    rw [hQ, pointsOf, List.length_map, hopens.length_eq]
  refine ⟨xs, plain, rho, hopens, hreveals, ?_⟩
  cases hb : π.b.getLsbD i with
  | false => exact ⟨hc, rfl, rfl, zipWith_add_sub hlen⟩
  | true => exact ⟨hc, rfl, rfl, (zipWith_add_comm _ _).trans (zipWith_add_sub hlen)⟩

/-- The opened scalars and the decrypted ones are added, and the sums are compared with the
points. -/
theorem ecPveBatchRestoreFromDecrypted_eq {xs ys : List (ZMod q)} {plain : List (Fin 256)}
    (hx : (π.rows i).Opens O curve π.n (π.b.getLsbD i) xs)
    (hy : Reveals O curve π.n (!π.b.getLsbD i) plain ys)
    (hQ : π.Q = pointsOf curve.toCurve (List.zipWith (· + ·) xs ys)) :
    ecPveBatchRestoreFromDecrypted O curve π i plain =
      .ok ((List.zipWith (· + ·) xs ys).map residue) := by
  have hlen := hx.length_eq.trans hy.length_eq.symm
  rw [ecPveBatchRestoreFromDecrypted, ecPveBatchParts]
  cases hb : π.b.getLsbD i with
  | false =>
    rw [hb] at hx hy
    obtain ⟨hr, d, hd, rfl⟩ := hx
    obtain ⟨hylen, rfl⟩ := hy
    have hbytes : (vectorBytes ys curve.size).length = π.n * curve.size := by
      rw [length_vectorBytes, hylen]
    have hread : vectorOf q (vectorBytes ys curve.size) π.n curve.size = ys := by
      rw [← hylen]
      exact vectorOf_vectorBytes curve.order_le
    simp only [Bool.false_eq_true, if_false, decide_eq_true hr, decide_eq_true hbytes, require_true,
      ok_bind, hd, vectorFromBin_seed, vectorFromBin_bytes curve hbytes, hread]
    rw [hQ]
    exact addEach_eq curve.toCurve hlen
  | true =>
    rw [hb] at hx hy
    obtain ⟨hbin, rfl⟩ := hx
    obtain ⟨hplain, d, hd, rfl⟩ := hy
    simp only [if_true, decide_eq_true hbin, decide_eq_true hplain, require_true, ok_bind, hd,
      vectorFromBin_seed, vectorFromBin_bytes curve hbin]
    rw [hQ, zipWith_add_comm]
    exact addEach_eq curve.toCurve hlen.symm

/-- Whatever has been decrypted, nothing is thrown, and scalars that are restored are the discrete
logarithms of the points. -/
theorem ecPveBatchRestoreFromDecrypted_spec (O : DrbgOracles) (curve : SizedCurve q E)
    (hQ : π.Q.length = π.n) (i : Fin ecPveKappa) (buf : List (Fin 256)) :
    Returns (ecPveBatchRestoreFromDecrypted O curve π i buf) ∧
      ∀ v, ecPveBatchRestoreFromDecrypted O curve π i buf = .ok v →
        ∃ zs : List (ZMod q), v = zs.map residue ∧ pointsOf curve.toCurve zs = π.Q := by
  have hparts : (∃ r01 x1Bin,
      ecPveBatchParts curve π.n (π.b.getLsbD i) (π.rows i) buf = .ok (r01, x1Bin) ∧
      r01.length = 16 ∧
      x1Bin.length = π.n * curve.size) ∨
      ecPveBatchParts curve π.n (π.b.getLsbD i) (π.rows i) buf = fail .crypto := by
    rw [ecPveBatchParts]
    cases π.b.getLsbD i with
    | false =>
      by_cases hr : (π.rows i).r.length = 32
      · by_cases hbuf : buf.length = π.n * curve.size
        · simp only [Bool.false_eq_true, if_false, decide_eq_true hr, decide_eq_true hbuf,
            require_true, ok_bind]
          refine Or.inl ⟨_, _, rfl, ?_, hbuf⟩
          rw [List.length_take]
          omega
        · simp only [Bool.false_eq_true, if_false, decide_eq_true hr, decide_eq_false hbuf,
            require_true, require_false, ok_bind, fail, error_bind, or_true]
      · simp only [Bool.false_eq_true, if_false, decide_eq_false hr, require_false, fail,
          error_bind, or_true]
    | true =>
      by_cases hbin : (π.rows i).xBin.length = π.n * curve.size
      · by_cases hbuf : buf.length = 16
        · simp only [if_true, decide_eq_true hbin, decide_eq_true hbuf, require_true, ok_bind]
          exact Or.inl ⟨_, _, rfl, hbuf, hbin⟩
        · simp only [if_true, decide_eq_true hbin, decide_eq_false hbuf, require_true,
            require_false, ok_bind, fail, error_bind, or_true]
      · simp only [if_true, decide_eq_false hbin, require_false, fail, error_bind, or_true]
  rw [ecPveBatchRestoreFromDecrypted]
  rcases hparts with ⟨r01, x1Bin, hok, hr01, hbin⟩ | hfail
  · obtain ⟨d, hd⟩ := drbgInit_seeded O hr01.ge
    rw [hok, ok_bind]
    simp only [hd, ok_bind, vectorFromBin_seed, vectorFromBin_bytes curve hbin]
    apply addEach_spec
    · rw [length_seedScalars, hQ]
    · rw [length_vectorOf, hQ]
  · rw [hfail]
    exact ⟨returns_fail _, fun v h => by cases h⟩

end Rows

theorem ecPveBatchVerify_ok_iff {q : ℕ} {E : Type} [AddCommGroup E] [Module (ZMod q) E]
    [DecidableEq E] {EK DK : Type} {O : PveOracles (List E)} {pke : BasePke EK DK} {ek : EK}
    {curve : SizedCurve q E} {label : List (Fin 256)} {ro : PveHash (List E) → BitVec ecPveKappa}
    {π : EcPveBatch E} {Q : List E} :
    ecPveBatchVerify O ro pke ek curve π Q label = .ok () ↔ (0 < π.n ∧ π.n ≤ ecPveBatchMaxCount) ∧
    Q.length = π.n ∧ (∀ P ∈ Q, P ≠ 0) ∧
      Q = π.Q ∧ label = π.L ∧ ∃ rows,
        forRows (ecPveBatchVerifyRow O.toDrbgOracles pke ek
          (genPveLabelWithPoint label (O.hashPoint Q)) curve π Q) = .ok rows ∧
          ro (pveHash Q label rows) = π.b := by
  rw [ecPveBatchVerify]
  simp only [unit_bind_ok_iff, forEach_ok_iff, checkPoint_ok_iff, require_ok_iff, decide_eq_true_eq]
  rw [bind_ok_iff]
  simp only [require_ok_iff, decide_eq_true_eq]

section Runs

variable {q : ℕ} [hq : Fact q.Prime] {E : Type} [AddCommGroup E] [Module (ZMod q) E]
  [DecidableEq E] {EK DK : Type} {O : PveOracles (List E)} {pke : BasePke EK DK} {ek : EK} {dk : DK}
  {curve : SizedCurve q E} {label : List (Fin 256)}

/-- A batch of which some row is restored is decrypted, to the discrete logarithms of its points. -/
theorem ecPveBatchDecrypt_of_row (hpke : pke.Correct ek dk)
    {ro : PveHash (List E) → BitVec ecPveKappa} {π : EcPveBatch E} (hlen : π.Q.length = π.n)
    (hL : label = π.L) {xs : List (ZMod q)} (hx : π.Q = pointsOf curve.toCurve xs)
    {skipVerify : Bool} (hverify : skipVerify = false →
      ecPveBatchVerify O ro pke ek curve π π.Q label = .ok ()) {i : Fin ecPveKappa}
    (hrow : ecPveBatchDecryptRow O.toDrbgOracles pke dk
      (genPveLabelWithPoint label (O.hashPoint π.Q)) curve π i =
      .ok (xs.map residue)) : ecPveBatchDecrypt O ro pke dk ek label curve π skipVerify =
        .ok (xs.map residue) := by
  have hreturns : ∀ i ∈ List.finRange ecPveKappa,
      Returns (ecPveBatchDecryptRow O.toDrbgOracles pke dk
        (genPveLabelWithPoint label (O.hashPoint π.Q)) curve π i) := fun i _ =>
    returns_bind_iff.mpr ⟨hpke.returns _ _, fun _ _ =>
      (ecPveBatchRestoreFromDecrypted_spec _ _ hlen _ _).1⟩
  obtain ⟨v, hv⟩ := tryRows_defined hreturns (List.mem_finRange i) hrow
  obtain ⟨i', -, hrow'⟩ := tryRows_ok hv
  obtain ⟨buf, -, hrestore⟩ := bind_ok_iff.mp hrow'
  obtain ⟨zs, rfl, hzs⟩ := (ecPveBatchRestoreFromDecrypted_spec _ _ hlen _ _).2 v hrestore
  obtain rfl : zs = xs := pointsOf_injective curve.toCurve (hzs.trans hx)
  rw [ecPveBatchDecrypt, decide_eq_true hL, require_true]
  cases skipVerify with
  | false => simpa [hverify rfl] using hv
  | true => exact hv

omit [DecidableEq E] in
/-- Every row that encryption makes is split with the scalars drawn from its first seed. -/
theorem ecPveBatchEncryptRow_eq {O : DrbgOracles} {innerLabel : List (Fin 256)} {xs : List (ZMod q)}
    (hn : xs.length ≤ ecPveBatchMaxCount) {r01 r02 r1 : Buf128}
    {p : PveSides (List E) × List (Fin 256)}
    (h : ecPveBatchEncryptRow O pke ek innerLabel curve (xs.map residue)
      (pointsOf curve.toCurve xs) r01 r02 r1 = .ok p) :
    ∃ d01 d02 d1 c0 c1, drbgInit O r01.toList = .ok d01 ∧ drbgInit O r02.toList = .ok d02 ∧
    drbgInit O r1.toList = .ok d1 ∧
      pke.encrypt ek innerLabel r01.toList (d02.gen pveRhoSize).1 = .ok c0 ∧
      pke.encrypt ek innerLabel
        (vectorBytes (List.zipWith (· - ·) xs (seedScalars curve xs.length d01)) curve.size)
        (d1.gen pveRhoSize).1 = .ok c1 ∧
      p = (⟨c0, c1, pointsOf curve.toCurve (seedScalars curve xs.length d01),
        List.zipWith (· - ·) (pointsOf curve.toCurve xs)
          (pointsOf curve.toCurve (seedScalars curve xs.length d01))⟩,
        vectorBytes (List.zipWith (· - ·) xs (seedScalars curve xs.length d01)) curve.size) := by
  obtain ⟨d01, hd01⟩ := drbgInit_buf128 O r01
  obtain ⟨d02, hd02⟩ := drbgInit_buf128 O r02
  obtain ⟨d1, hd1⟩ := drbgInit_buf128 O r1
  have hcount : (List.zipWith (· - ·) xs (seedScalars curve xs.length d01)).length ≤
      ecPveBatchMaxCount := by
    rw [List.length_zipWith, length_seedScalars, min_self]
    exact hn
  rw [ecPveBatchEncryptRow, hd01, ok_bind, hd02, ok_bind, hd1, ok_bind, List.length_map] at h
  simp only [vectorFromBin_seed, subEach_residue, mapM_mulToGenerator,
    vectorToBin_scalars curve hcount, ok_bind] at h
  obtain ⟨c0, hc0, h⟩ := bind_ok_iff.mp h
  obtain ⟨c1, hc1, h⟩ := bind_ok_iff.mp h
  exact ⟨d01, d02, d1, c0, c1, hd01, hd02, hd1, hc0, hc1, (Except.ok.inj h).symm⟩

/-- A row of an honest batch: the verifier recomputes it, and whichever part is opened, decryption
finds the other. -/
theorem ecPveBatchEncryptRow_spec {O : DrbgOracles} (hpke : pke.Correct ek dk)
    {innerLabel : List (Fin 256)} {xs : List (ZMod q)} (hn : xs.length ≤ ecPveBatchMaxCount)
    {r01 r02 r1 : Buf128} {p : PveSides (List E) × List (Fin 256)}
    (h : ecPveBatchEncryptRow O pke ek innerLabel curve (xs.map residue) (pointsOf curve.toCurve xs)
      r01 r02 r1 = .ok p) {π : EcPveBatch E} {i : Fin ecPveKappa} (hlen : π.n = xs.length)
    (hQ : π.Q = pointsOf curve.toCurve xs)
    (hrow : π.rows i = if π.b.getLsbD i then ⟨p.2, r1.toList, p.1.c0⟩ else
      ⟨[], r01.toList ++ r02.toList, p.1.c1⟩) :
    ecPveBatchVerifyRow O pke ek innerLabel curve π (pointsOf curve.toCurve xs) i = .ok p.1 ∧
      ecPveBatchDecryptRow O pke dk innerLabel curve π i = .ok (xs.map residue) := by
  obtain ⟨d01, d02, d1, c0, c1, hd01, hd02, hd1, hc0, hc1, rfl⟩ := ecPveBatchEncryptRow_eq hn h
  have hseed := length_seedScalars curve xs.length d01
  generalize hys : seedScalars curve xs.length d01 = ys at *
  have hrest : (List.zipWith (· - ·) xs ys).length = xs.length := by
    rw [List.length_zipWith, hseed, min_self]
  have hsum : List.zipWith (· + ·) ys (List.zipWith (· - ·) xs ys) = xs :=
    zipWith_add_sub hseed.symm
  cases hb : π.b.getLsbD i with
  | false =>
    rw [hb] at hrow
    have hr : (π.rows i).r = r01.toList ++ r02.toList := by rw [hrow]; rfl
    have hrlen : (π.rows i).r.length = 32 := by
      rw [hr, List.length_append, List.Vector.toList_length, List.Vector.toList_length]
    have htake : (π.rows i).r.take 16 = r01.toList := by
      rw [hr, List.take_left' (List.Vector.toList_length _)]
    have hdrop : (π.rows i).r.drop 16 = r02.toList := by
      rw [hr, List.drop_left' (List.Vector.toList_length _)]
    have hopens : (π.rows i).Opens O curve π.n (π.b.getLsbD i) ys := by
      rw [hb, hlen, PveBatchRow.Opens, htake]
      exact ⟨hrlen, d01, hd01, hys.symm⟩
    have hreveals : Reveals O curve π.n (!π.b.getLsbD i)
        (vectorBytes (List.zipWith (· - ·) xs ys) curve.size)
        (List.zipWith (· - ·) xs ys) := by
      rw [hb, hlen]
      exact ⟨hrest, rfl⟩
    constructor
    · rw [ecPveBatchVerifyRow, hb, ecPveBatchOpenRow, hlen]
      simp only [Bool.false_eq_true, if_false, decide_eq_true hrlen, require_true, ok_bind, htake,
        hdrop, hd01, hd02, vectorFromBin_seed, hc0, mapM_mulToGenerator, hys]
      rw [hrow]
      rfl
    · rw [ecPveBatchDecryptRow, hrow]
      change (pke.decrypt dk innerLabel c1 >>= _) = _
      rw [hpke.decrypt_encrypt hc1, ok_bind,
        ecPveBatchRestoreFromDecrypted_eq hopens hreveals (by rw [hsum, hQ]), hsum]
  | true =>
    rw [hb] at hrow
    have hbin : (π.rows i).xBin =
      vectorBytes (List.zipWith (· - ·) xs ys) curve.size := by rw [hrow]; rfl
    have hr : (π.rows i).r = r1.toList := by rw [hrow]; rfl
    have hrlen : r1.toList.length = 16 := List.Vector.toList_length _
    have hbytes : (π.rows i).xBin.length = xs.length * curve.size := by
      rw [hbin, length_vectorBytes, hrest]
    have hread : vectorOf q (π.rows i).xBin xs.length curve.size = List.zipWith (· - ·) xs ys := by
      rw [hbin, ← hrest]
      exact vectorOf_vectorBytes curve.order_le
    have hopens : (π.rows i).Opens O curve π.n (π.b.getLsbD i) (List.zipWith (· - ·) xs ys) := by
      rw [hb, hlen]
      exact ⟨hbytes, hread.symm⟩
    have hreveals : Reveals O curve π.n (!π.b.getLsbD i) r01.toList ys := by
      rw [hb, hlen]
      exact ⟨List.Vector.toList_length _, d01, hd01, hys.symm⟩
    constructor
    · rw [ecPveBatchVerifyRow, hb, ecPveBatchOpenRow, hlen]
      simp only [if_true, decide_eq_true hrlen, decide_eq_true hbytes, require_true, ok_bind,
        vectorFromBin_bytes curve hbytes, hread, hr, hd1,
        vectorToBin_scalars curve (hrest.trans_le hn), hc1, mapM_mulToGenerator]
      rw [hrow]
      change Except.ok (PveSides.mk c0 c1 (List.zipWith (· - ·) (pointsOf curve.toCurve xs)
        (pointsOf curve.toCurve (List.zipWith (· - ·) xs ys)))
          (pointsOf curve.toCurve (List.zipWith (· - ·) xs ys))) = _
      rw [pointsOf_sub, pointsOf_sub, zipWith_sub_sub hseed.symm]
    · rw [ecPveBatchDecryptRow, hrow]
      change (pke.decrypt dk innerLabel c0 >>= _) = _
      rw [hpke.decrypt_encrypt hc0, ok_bind, ecPveBatchRestoreFromDecrypted_eq hopens hreveals
        (by rw [zipWith_add_comm, hsum, hQ]), zipWith_add_comm, hsum]

/-- The rows of an honest batch, which do not depend on the challenge. -/
def HonestBatchRows (O : PveOracles (List E)) (pke : BasePke EK DK) (ek : EK)
    (label : List (Fin 256)) (curve : SizedCurve q E) (xs : List (ZMod q))
    (r01 r02 r1 : Fin ecPveKappa → Buf128)
    (rows : Fin ecPveKappa → PveSides (List E) × List (Fin 256)) : Prop :=
  forRows (fun i => ecPveBatchEncryptRow O.toDrbgOracles pke ek
    (genPveLabelWithPoint label (O.hashPoint (pointsOf curve.toCurve xs)))
    curve (xs.map residue) (pointsOf curve.toCurve xs) (r01 i) (r02 i) (r1 i)) = .ok rows

omit [DecidableEq E] in
theorem exists_honestBatchRows (O : PveOracles (List E))
    (hencrypt : ∀ innerLabel plain rho, ∃ ct, pke.encrypt ek innerLabel plain rho = .ok ct)
    (label : List (Fin 256)) (curve : SizedCurve q E) {xs : List (ZMod q)}
    (hn : xs.length ≤ ecPveBatchMaxCount) (r01 r02 r1 : Fin ecPveKappa → Buf128) :
    ∃ rows, HonestBatchRows O pke ek label curve xs r01 r02 r1 rows := by
  apply forRows_defined
  intro i
  obtain ⟨d01, hd01⟩ := drbgInit_buf128 O.toDrbgOracles (r01 i)
  obtain ⟨d02, hd02⟩ := drbgInit_buf128 O.toDrbgOracles (r02 i)
  obtain ⟨d1, hd1⟩ := drbgInit_buf128 O.toDrbgOracles (r1 i)
  have hcount : (List.zipWith (· - ·) xs (seedScalars curve xs.length d01)).length ≤
      ecPveBatchMaxCount := by
    rw [List.length_zipWith, length_seedScalars, min_self]
    exact hn
  generalize genPveLabelWithPoint label (O.hashPoint (pointsOf curve.toCurve xs)) = innerLabel
  obtain ⟨c0, hc0⟩ := hencrypt innerLabel (r01 i).toList (d02.gen pveRhoSize).1
  obtain ⟨c1, hc1⟩ :=
    hencrypt innerLabel (vectorBytes
      (List.zipWith (· - ·) xs (seedScalars curve xs.length d01)) curve.size)
    (d1.gen pveRhoSize).1
  rw [ecPveBatchEncryptRow, hd01, ok_bind, hd02, ok_bind, hd1, ok_bind, List.length_map]
  simp only [vectorFromBin_seed, subEach_residue, mapM_mulToGenerator,
    vectorToBin_scalars curve hcount, ok_bind, hc0, hc1]
  exact ⟨_, rfl⟩

/-- The residues of the scalars of a batch. -/
def residuesOf (q : ℕ) (x : List ℤ) : List (ZMod q) := x.map fun v : ℤ => (v : ZMod q)

theorem mapM_modReduce {x : List ℤ} (hx : ∀ v ∈ x, 0 ≤ v ∧ v < 2 ^ 4096) :
    x.mapM (modReduce q) = .ok ((residuesOf q x).map residue) := by
  rw [mapM_ok fun v hv => modReduce_eq_residue (hx v hv).1 (hx v hv).2, residuesOf, List.map_map]
  rfl

omit [DecidableEq E] in
theorem ecPveBatchEncrypt_defined (ro : PveHash (List E) → BitVec ecPveKappa) {x : List ℤ}
    (h0 : x ≠ []) (hn : x.length ≤ ecPveBatchMaxCount) (hx : ∀ v ∈ x, 0 ≤ v ∧ v < 2 ^ 4096)
    {r01 r02 r1 : Fin ecPveKappa → Buf128}
    {rows : Fin ecPveKappa → PveSides (List E) × List (Fin 256)}
    (hrows : HonestBatchRows O pke ek label curve (residuesOf q x) r01 r02 r1 rows) :
    ∃ π, ecPveBatchEncrypt O ro pke ek label curve x.length x r01 r02 r1 = .ok π := by
  have hpos : 0 < x.length ∧ x.length ≤ ecPveBatchMaxCount := ⟨List.length_pos_of_ne_nil h0, hn⟩
  rw [HonestBatchRows, pointsOf] at hrows
  rw [ecPveBatchEncrypt, decide_eq_true hpos, cbAssert_true, ok_bind, decide_eq_true rfl,
    cbAssert_true, ok_bind, mapM_modReduce hx, ok_bind, mapM_mulToGenerator, ok_bind]
  simp only [hrows, ok_bind]
  exact ⟨_, rfl⟩

/-- What an honest batch holds: its rows are recomputed by the verifier, and each of them restores
the scalars. -/
structure EcPveBatch.Honest (O : PveOracles (List E)) (ro : PveHash (List E) → BitVec ecPveKappa)
    (pke : BasePke EK DK) (ek : EK) (dk : DK) (label : List (Fin 256)) (curve : SizedCurve q E)
    (xs : List (ZMod q)) (rows : Fin ecPveKappa → PveSides (List E)) (π : EcPveBatch E) : Prop where
  n_eq : π.n = xs.length
  Q_eq : π.Q = pointsOf curve.toCurve xs
  L_eq : label = π.L
  b_eq : ro (pveHash π.Q label rows) = π.b
  verified :
    forRows (ecPveBatchVerifyRow O.toDrbgOracles pke ek
      (genPveLabelWithPoint label (O.hashPoint π.Q)) curve π π.Q) = .ok rows
  restored : ∀ i, ecPveBatchDecryptRow O.toDrbgOracles pke dk
    (genPveLabelWithPoint label (O.hashPoint π.Q)) curve π i =
    .ok (xs.map residue)

theorem ecPveBatchEncrypt_honest (hpke : pke.Correct ek dk)
    {ro : PveHash (List E) → BitVec ecPveKappa} {n : ℕ} {x : List ℤ}
    (hx : ∀ v ∈ x, 0 ≤ v ∧ v < 2 ^ 4096) {r01 r02 r1 : Fin ecPveKappa → Buf128} {π : EcPveBatch E}
    (h : ecPveBatchEncrypt O ro pke ek label curve n x r01 r02 r1 = .ok π) :
    (x ≠ [] ∧ x.length ≤ ecPveBatchMaxCount) ∧
      ∃ rows, HonestBatchRows O pke ek label curve (residuesOf q x) r01 r02 r1 rows ∧
        π.Honest O ro pke ek dk label curve (residuesOf q x) fun i => (rows i).1 := by
  rw [ecPveBatchEncrypt, cbAssert_bind_ok_iff, cbAssert_bind_ok_iff] at h
  obtain ⟨hcount, hlen, h⟩ := h
  have hlen := of_decide_eq_true hlen
  obtain ⟨hpos, hmax⟩ := of_decide_eq_true hcount
  rw [mapM_modReduce hx, ok_bind, mapM_mulToGenerator, ok_bind] at h
  obtain ⟨rows, hrows, h⟩ := bind_ok_iff.mp h
  have hπ := Except.ok.inj h
  have hxlen : (residuesOf q x).length = x.length := List.length_map _
  have hn : π.n = (residuesOf q x).length := by rw [← hπ, hxlen, hlen]
  have hQ : π.Q = pointsOf curve.toCurve (residuesOf q x) := by
    rw [← hπ]
    rfl
  have hspec := fun i => ecPveBatchEncryptRow_spec hpke (by rw [hxlen, hlen]; exact hmax)
    (forRows_ok_iff.mp hrows i) hn hQ
    (by rw [← hπ])
  refine ⟨⟨List.ne_nil_of_length_pos (by omega), hlen.trans_le hmax⟩, rows, hrows, hn,
    hQ, by rw [← hπ], ?_, ?_, ?_⟩
  · rw [hQ, ← hπ]
    rfl
  · rw [hQ]
    exact forRows_ok_iff.mpr fun i => (hspec i).1
  · rw [hQ]
    exact fun i => (hspec i).2

theorem EcPveBatch.Honest.verify {ro : PveHash (List E) → BitVec ecPveKappa} {xs : List (ZMod q)}
    {rows : Fin ecPveKappa → PveSides (List E)} {π : EcPveBatch E}
    (h : π.Honest O ro pke ek dk label curve xs rows) (h0 : xs ≠ [])
    (hn : xs.length ≤ ecPveBatchMaxCount) (hne : ∀ x ∈ xs, x ≠ 0) :
    ecPveBatchVerify O ro pke ek curve π π.Q label = .ok () := by
  have hlen : π.Q.length = π.n := by rw [h.Q_eq, h.n_eq, pointsOf, List.length_map]
  refine ecPveBatchVerify_ok_iff.mpr ⟨?_, hlen, ?_, rfl, h.L_eq, rows, h.verified, h.b_eq⟩
  · rw [h.n_eq]
    exact ⟨List.length_pos_of_ne_nil h0, hn⟩
  · intro P hP
    rw [h.Q_eq] at hP
    obtain ⟨x, hx, rfl⟩ := List.mem_map.mp hP
    exact (smul_generator_eq_zero curve.toCurve).not.mpr (hne x hx)

/-- Encryption succeeds when the base encryption does, and what it returns is accepted and restored
from each of its rows. -/
theorem ecPveBatch_complete (O : PveOracles (List E)) (ro : PveHash (List E) → BitVec ecPveKappa)
    (hpke : pke.Correct ek dk) (label : List (Fin 256)) (curve : SizedCurve q E) {x : List ℤ}
    (hx : ∀ v ∈ x, 0 ≤ v ∧ v < 2 ^ 4096) (hne : ∀ v ∈ x, (v : ZMod q) ≠ 0)
    (r01 r02 r1 : Fin ecPveKappa → Buf128) :
    ((∀ innerLabel plain rho, ∃ ct, pke.encrypt ek innerLabel plain rho = .ok ct) → x ≠ [] →
      x.length ≤ ecPveBatchMaxCount →
        ∃ π, ecPveBatchEncrypt O ro pke ek label curve x.length x r01 r02 r1 = .ok π) ∧
      ∀ n π, ecPveBatchEncrypt O ro pke ek label curve n x r01 r02 r1 = .ok π →
        π.Q = x.map (fun v : ℤ => (v : ZMod q) • curve.generator) ∧
        ecPveBatchVerify O ro pke ek curve π π.Q label = .ok () ∧
        (∀ i, ecPveBatchDecryptRow O.toDrbgOracles pke dk
          (genPveLabelWithPoint label (O.hashPoint π.Q)) curve π i =
          .ok (x.map (· % (q : ℤ)))) ∧
        ∀ skipVerify, ecPveBatchDecrypt O ro pke dk ek label curve π skipVerify =
          .ok (x.map (· % (q : ℤ))) := by
  have hxlen : (residuesOf q x).length = x.length := List.length_map _
  constructor
  · intro hencrypt h0 hn
    obtain ⟨rows, hrows⟩ := exists_honestBatchRows O hencrypt label curve
      (hxlen.trans_le hn) r01 r02 r1
    exact ecPveBatchEncrypt_defined ro h0 hn hx hrows
  · intro n π h
    obtain ⟨⟨h0, hn⟩, rows, -, hhonest⟩ := ecPveBatchEncrypt_honest hpke hx h
    have hresidues : (residuesOf q x).map residue = x.map (· % (q : ℤ)) := by
      rw [residuesOf, List.map_map]
      exact List.map_congr_left fun v _ => (emod_eq_residue v).symm
    have hQ := hhonest.Q_eq
    rw [pointsOf, residuesOf, List.map_map] at hQ
    have hverify := hhonest.verify (by rwa [residuesOf, Ne, List.map_eq_nil_iff])
        (hxlen.trans_le hn) fun z hz => by
      obtain ⟨v, hv, rfl⟩ := List.mem_map.mp hz
      exact hne v hv
    have hlen : π.Q.length = π.n := by rw [hhonest.Q_eq, hhonest.n_eq, pointsOf, List.length_map]
    rw [← hresidues]
    exact ⟨hQ, hverify, hhonest.restored, fun skipVerify =>
      ecPveBatchDecrypt_of_row hpke hlen hhonest.L_eq hhonest.Q_eq (fun _ => hverify)
        (hhonest.restored ⟨0, by decide⟩)⟩

/-- Two accepted batches with the same rows and different challenges are both decrypted to the
discrete logarithms of `Q`. -/
theorem ecPveBatch_sound (hpke : pke.Correct ek dk) {ro ro' : PveHash (List E) → BitVec ecPveKappa}
    {π π' : EcPveBatch E} {Q : List E} (h : ecPveBatchVerify O ro pke ek curve π Q label = .ok ())
    (h' : ecPveBatchVerify O ro' pke ek curve π' Q label = .ok ())
    (hrows : forRows (ecPveBatchVerifyRow O.toDrbgOracles pke ek
      (genPveLabelWithPoint label (O.hashPoint Q)) curve π Q) =
      forRows (ecPveBatchVerifyRow O.toDrbgOracles pke ek
        (genPveLabelWithPoint label (O.hashPoint Q)) curve π' Q)) (hne : π.b ≠ π'.b) :
    ∃ xs : List (ZMod q), Q = xs.map (fun x => x • curve.generator) ∧ ∀ skipVerify,
      ecPveBatchDecrypt O ro pke dk ek label curve π skipVerify = .ok (xs.map residue) ∧
        ecPveBatchDecrypt O ro' pke dk ek label curve π' skipVerify = .ok (xs.map residue) := by
  obtain ⟨⟨-, hn⟩, hlen, -, rfl, hL, rows, hr, -⟩ := ecPveBatchVerify_ok_iff.mp h
  obtain ⟨⟨-, hn'⟩, hlen', -, hQ, hL', rows', hr', -⟩ := ecPveBatchVerify_ok_iff.mp h'
  rw [hr, hr'] at hrows
  obtain rfl := Except.ok.inj hrows
  obtain ⟨i, hbit⟩ := exists_getLsbD_ne hne
  obtain ⟨xs, plain, rho, hopens, hreveals, hct, hother, hP, hsum⟩ :=
    ecPveBatchVerifyRow_ok hn hlen (forRows_ok_iff.mp hr i)
  obtain ⟨xs', plain', rho', hopens', hreveals', hct', hother', hP', -⟩ :=
    ecPveBatchVerifyRow_ok hn' hlen' (forRows_ok_iff.mp hr' i)
  have hnn : π'.n = π.n := hlen'.symm.trans hlen
  rw [hbit, hnn] at hreveals'
  rw [hbit] at hct' hother' hP'
  rw [Bool.not_not] at hother'
  have hlog : π.Q = pointsOf curve.toCurve (List.zipWith (· + ·) xs xs') := by
    rw [← hsum, ← pointsOf_add, ← hP, ← hP']
    cases π.b.getLsbD i with
    | false => rfl
    | true => exact zipWith_add_comm _ _
  have hrow : ecPveBatchDecryptRow O.toDrbgOracles pke dk
      (genPveLabelWithPoint label (O.hashPoint π.Q)) curve π i =
      .ok ((List.zipWith (· + ·) xs xs').map residue) := by
    rw [ecPveBatchDecryptRow, ← hother, hpke.decrypt_encrypt hct', ok_bind,
      ecPveBatchRestoreFromDecrypted_eq hopens hreveals' hlog]
  have hrow' : ecPveBatchDecryptRow O.toDrbgOracles pke dk
      (genPveLabelWithPoint label (O.hashPoint π.Q)) curve π' i =
      .ok ((List.zipWith (· + ·) xs xs').map residue) := by
    rw [zipWith_add_comm] at hlog ⊢
    rw [← hnn, ← Bool.not_not (π.b.getLsbD i), ← hbit] at hreveals
    rw [ecPveBatchDecryptRow, ← hother', hpke.decrypt_encrypt hct, ok_bind,
      ecPveBatchRestoreFromDecrypted_eq hopens' hreveals (hQ.symm.trans hlog)]
  refine ⟨List.zipWith (· + ·) xs xs', hlog, fun skipVerify =>
    ⟨ecPveBatchDecrypt_of_row hpke hlen hL hlog (fun _ => h) hrow, ?_⟩⟩
  rw [hQ] at h' hlen' hrow'
  exact ecPveBatchDecrypt_of_row hpke hlen' hL' (hQ.symm.trans hlog) (fun _ => h') hrow'

end Runs

section Samples

def sampleBatchOracles : PveOracles (List (ZMod 1009)) :=
  ⟨⟨fun _ _ => Stream'.const 1, id⟩, fun _ => []⟩

theorem binSize_sample : getBinSize 1009 ≤ 2 := by decide

theorem sample_size_le : 2 ≤ 66 := by decide

def sampleSizedCurve : SizedCurve 1009 (ZMod 1009) :=
  ⟨sampleCurve, 2, binSize_sample, sample_size_le⟩

theorem sampleBatch_bounds : ∀ v ∈ [(5 : ℤ), 6], 0 ≤ v ∧ v < 2 ^ 4096 := by
  have hsix : (6 : ℤ) < 2 ^ 4096 :=
    lt_of_lt_of_le (by norm_num : (6 : ℤ) < 2 ^ 3) (pow_le_pow_right₀ (by norm_num) (by norm_num))
  intro v hv
  rcases List.mem_pair.mp hv with rfl | rfl
  · exact ⟨by norm_num, five_lt_bound⟩
  · exact ⟨by norm_num, hsix⟩

theorem sampleBatch_count : (residuesOf 1009 [5, 6]).length ≤ ecPveBatchMaxCount := by
  rw [residuesOf, List.length_map, ecPveBatchMaxCount]
  norm_num

theorem sampleBatch_ne_zero : ∀ v ∈ [(5 : ℤ), 6], (v : ZMod 1009) ≠ 0 := by decide

/-- Five and six are encrypted, accepted and decrypted. -/
theorem ecPveBatch_complete_sample :
    ∃ π, ecPveBatchEncrypt sampleBatchOracles (fun _ => 0) openPke () [] sampleSizedCurve 2
    [5, 6] sampleSeeds sampleSeeds sampleSeeds = .ok π ∧
      ecPveBatchVerify sampleBatchOracles (fun _ => 0) openPke ()
        sampleSizedCurve π π.Q [] = .ok () ∧
      ecPveBatchDecrypt sampleBatchOracles (fun _ => 0) openPke () () [] sampleSizedCurve π false =
        .ok [5, 6] := by
  obtain ⟨hdefined, hall⟩ :=
    ecPveBatch_complete sampleBatchOracles (fun _ => 0) openPke_correct [] sampleSizedCurve
    sampleBatch_bounds sampleBatch_ne_zero sampleSeeds sampleSeeds sampleSeeds
  obtain ⟨π, hπ⟩ := hdefined openPke_defined (by decide) (by decide)
  obtain ⟨-, hverify, -, hdecrypt⟩ := hall 2 π hπ
  exact ⟨π, hπ, hverify, hdecrypt false⟩

/-- Its rows are accepted with two challenges. -/
theorem ecPveBatch_sound_sample :
    ∃ π π' : EcPveBatch (ZMod 1009), π.b ≠ π'.b ∧ ∃ xs : List (ZMod 1009),
    π.Q = xs.map (fun x => x • sampleSizedCurve.generator) ∧
      ecPveBatchDecrypt sampleBatchOracles (fun _ => 0) openPke () () [] sampleSizedCurve π false =
        .ok (xs.map residue) ∧
      ecPveBatchDecrypt sampleBatchOracles (fun _ => 1) openPke () () [] sampleSizedCurve π' false =
        .ok (xs.map residue) := by
  obtain ⟨rows, hrows⟩ := exists_honestBatchRows sampleBatchOracles openPke_defined []
    sampleSizedCurve sampleBatch_count sampleSeeds sampleSeeds sampleSeeds
  obtain ⟨π, hπ⟩ := ecPveBatchEncrypt_defined (fun _ => 0) (by decide) (by decide)
    sampleBatch_bounds hrows
  obtain ⟨π', hπ'⟩ := ecPveBatchEncrypt_defined (fun _ => 1) (by decide) (by decide)
    sampleBatch_bounds hrows
  obtain ⟨-, rows₁, hrows₁, h⟩ := ecPveBatchEncrypt_honest openPke_correct sampleBatch_bounds hπ
  obtain ⟨-, rows₂, hrows₂, h'⟩ := ecPveBatchEncrypt_honest openPke_correct sampleBatch_bounds hπ'
  obtain rfl := Except.ok.inj (hrows₁.symm.trans hrows₂)
  have hQ : π'.Q = π.Q := h'.Q_eq.trans h.Q_eq.symm
  have hne : π.b ≠ π'.b := by
    rw [← h.b_eq, ← h'.b_eq]
    decide
  have hnz : ∀ x ∈ residuesOf 1009 [5, 6], x ≠ 0 := fun x hx => by
    obtain ⟨v, hv, rfl⟩ := List.mem_map.mp hx
    exact sampleBatch_ne_zero v hv
  have hverify' := h'.verify (by decide) sampleBatch_count hnz
  have hverified' := h'.verified
  rw [hQ] at hverify' hverified'
  obtain ⟨xs, hx, hall⟩ := ecPveBatch_sound openPke_correct
    (h.verify (by decide) sampleBatch_count hnz) hverify'
    (h.verified.trans hverified'.symm) hne
  exact ⟨π, π', hne, xs, hx, (hall false).1, (hall false).2⟩

end Samples

end CbMpc
