import CbMpc.PveAcRows

/-!
# A verified ciphertext for an access structure

A quorum restores the scalars from every row of an honest ciphertext, and a set that is no quorum is
refused. Two challenges for the same rows are answered only if the bytes of the second part of some
row stand for the scalars. These bytes need not be reduced integers, though: the verifier accepts
ciphertexts on which the aggregation asserts in every row.
-/
namespace CbMpc

theorem ecPveAcVerify_ok_iff {q : ℕ} {E : Type} [AddCommGroup E] [Module (ZMod q) E]
    [DecidableEq E] {EK DK : Type} {O : PveAcOracles E} {pke : BasePke EK DK} {pid : PName → ℕ}
    {ac : Node} {acPks : OrderedMap PName EK} {curve : SizedCurve q E} {π : EcPveAc E}
    {label : List (Fin 256)} {ro : PveAcHash E → BitVec ecPveKappa} {Q : List E} :
    ecPveAcVerify O pke pid ac ro acPks curve π Q label = .ok () ↔ Q.length ≠ 0 ∧
    Q.length = π.Q.length ∧ (∀ P ∈ Q, P ≠ 0) ∧ Q = π.Q ∧
      O.hashLabel label Q = π.L ∧ ∃ rows,
        forRows (ecPveAcVerifyRow O pke pid ac acPks (O.hashLabel label Q) curve π Q) = .ok rows ∧
        ro (pveAcHash Q label rows) = π.b := by
  rw [ecPveAcVerify]
  simp only [unit_bind_ok_iff, forEach_ok_iff, checkPoint_ok_iff, require_ok_iff, decide_eq_true_eq]
  rw [bind_ok_iff]
  simp only [require_ok_iff, decide_eq_true_eq]

section Rows

variable {q : ℕ} [hq : Fact q.Prime] {E : Type} [AddCommGroup E] [Module (ZMod q) E]
  [DecidableEq E] {EK DK : Type} {O : PveAcOracles E} {pke : BasePke EK DK} {pid : PName → ℕ}
  {ac : Node} {acPks : OrderedMap PName EK} {curve : SizedCurve q E} {π : EcPveAc E}
  {i : Fin ecPveKappa} {label plain : List (Fin 256)} {τ : PName → ZMod q}
  {ro : PveAcHash E → BitVec ecPveKappa}

theorem entries_ne_nil (hac : SharableTree q pid ac) (hkeys : acPks.keys = leafSet ac) :
    acPks.entries ≠ [] := by
  obtain ⟨hwf, -, -⟩ := Node.validateTree_ok hac.valid
  obtain ⟨nm, hnm⟩ := List.exists_mem_of_ne_nil _ (listLeafNames_ne_nil hwf)
  rw [← mem_leafSet, ← hkeys] at hnm
  obtain ⟨e, he, -⟩ := List.mem_map.mp hnm
  exact List.ne_nil_of_mem he

theorem find_of_leaf (hkeys : acPks.keys = leafSet ac) {nm : PName} (hnm : nm ∈ ac.listLeafNames) :
    ∃ pk, acPks.find nm = some pk := by
  rw [← mem_leafSet, ← hkeys, OrderedMap.mem_keys_iff] at hnm
  exact Option.isSome_iff_exists.mp hnm

/-- A quorum unseals the row and goes on with its bytes. Other sets are refused. -/
theorem aggregateToRestoreRow_eq (hac : SharableTree q pid ac) (hQ : π.Q ≠ []) {skipVerify : Bool}
    (hverify : skipVerify = false → acPks.entries ≠ [] ∧
      ecPveAcVerify O pke pid ac ro acPks curve π π.Q label = .ok ())
    (h : Sealed O pke pid ac acPks (O.hashLabel label π.Q) plain (π.rows i).c (π.rows i).quorumC τ)
    (S : Finset PName) :
    aggregateToRestoreRow O pke pid ac ro curve π i label (quorumShares ac S fun nm =>
      residue (τ nm)) skipVerify acPks =
      if ac.enoughForQuorum S then restoreUnsealed O.toDrbgOracles curve π i plain else
        fail .insufficient := by
  rw [aggregateToRestoreRow, decide_eq_true hQ, require_true, ok_bind]
  cases skipVerify with
  | false =>
    obtain ⟨hentries, hok⟩ := hverify rfl
    simp only [Bool.false_eq_true, if_false, decide_eq_true hentries, require_true, ok_bind, hok,
      h.reconstruct hac S]
    cases ac.enoughForQuorum S with
    | false => rfl
    | true => simp only [quorumResult, if_true, ok_bind, h.unseal]
  | true =>
    simp only [if_true, h.reconstruct hac S]
    cases ac.enoughForQuorum S with
    | false => rfl
    | true => simp only [quorumResult, if_true, ok_bind, h.unseal]

/-- What the leaves decrypt of a row, and what a set of them makes of it. -/
structure RestoresRow (O : PveAcOracles E) (pke : BasePke EK DK) (pid : PName → ℕ) (ac : Node)
    (acPks : OrderedMap PName EK) (dks : PName → DK) (ro : PveAcHash E → BitVec ecPveKappa)
    (curve : SizedCurve q E) (label : List (Fin 256)) (π : EcPveAc E) (i : Fin ecPveKappa)
    (result : Outcome (List ℤ)) (σ : PName → ℤ) : Prop where
  party : ∀ nm ∈ ac.listLeafNames, partyDecryptRow O pke ac q π i nm (dks nm) label = .ok (σ nm)
  quorum : ∀ S skipVerify, ac.enoughForQuorum S = true →
    aggregateToRestoreRow O pke pid ac ro curve π i label (quorumShares ac S σ)
      skipVerify acPks = result
  refused : ∀ S skipVerify, ac.enoughForQuorum S = false →
    aggregateToRestoreRow O pke pid ac ro curve π i label (quorumShares ac S σ) skipVerify acPks =
      fail .insufficient

theorem restoresRow_of_sealed (hac : SharableTree q pid ac)
    (hkeys : acPks.keys = leafSet ac) {dks : PName → DK}
    (hpke : ∀ nm pk, acPks.find nm = some pk → pke.Correct pk (dks nm))
    (hverify : ecPveAcVerify O pke pid ac ro acPks curve π π.Q label = .ok ())
    (h : Sealed O pke pid ac acPks (O.hashLabel label π.Q) plain
      (π.rows i).c (π.rows i).quorumC τ) :
    RestoresRow O pke pid ac acPks dks ro curve label π i
      (restoreUnsealed O.toDrbgOracles curve π i plain)
      fun nm => residue (τ nm) := by
  have hQ : π.Q ≠ [] := List.ne_nil_of_length_pos
    (Nat.pos_of_ne_zero (ecPveAcVerify_ok_iff.mp hverify).1)
  have hentries := entries_ne_nil hac hkeys
  refine ⟨fun nm hnm => ?_, fun S skipVerify hS => ?_, fun S skipVerify hS => ?_⟩
  · obtain ⟨pk, hpk⟩ := find_of_leaf hkeys hnm
    exact h.partyDecryptRow hkeys hQ hpk (hpke nm pk hpk)
  · rw [aggregateToRestoreRow_eq hac hQ (fun _ => ⟨hentries, hverify⟩) h, if_pos hS]
  · rw [aggregateToRestoreRow_eq hac hQ (fun _ => ⟨hentries, hverify⟩) h, hS,
      if_neg Bool.false_ne_true]

/-- Of two accepted ciphertexts with the same rows and different challenges, some row restores the
discrete logarithms of `Q`, if the second part that one of them opens there consists of reduced
integers, and asserts otherwise. -/
theorem ecPveAc_sound (hac : SharableTree q pid ac)
    (hkeys : acPks.keys = leafSet ac) {dks : PName → DK}
    (hpke : ∀ nm pk, acPks.find nm = some pk → pke.Correct pk (dks nm))
    {ro' : PveAcHash E → BitVec ecPveKappa} {π' : EcPveAc E} {Q : List E}
    (h : ecPveAcVerify O pke pid ac ro acPks curve π Q label = .ok ())
    (h' : ecPveAcVerify O pke pid ac ro' acPks curve π' Q label = .ok ())
    (hrows : forRows (ecPveAcVerifyRow O pke pid ac acPks (O.hashLabel label Q) curve π Q) =
      forRows (ecPveAcVerifyRow O pke pid ac acPks (O.hashLabel label Q) curve π' Q))
      (hne : π.b ≠ π'.b) :
    ∃ (i : Fin ecPveKappa) (xs : List (ZMod q)) (σ σ' : PName → ℤ), π.b.getLsbD i ≠ π'.b.getLsbD i ∧
      Q = xs.map (fun x => x • curve.generator) ∧
      RestoresRow O pke pid ac acPks dks ro curve label π i
        (reducedSums (batchInts curve.size Q.length (if π.b.getLsbD i then (π.rows i).xBin else
          (π'.rows i).xBin)) xs) σ ∧
      RestoresRow O pke pid ac acPks dks ro' curve label π' i
        (reducedSums (batchInts curve.size Q.length (if π.b.getLsbD i then (π.rows i).xBin else
          (π'.rows i).xBin)) xs) σ' := by
  obtain ⟨-, -, -, hQ, -, rows, hr, -⟩ := ecPveAcVerify_ok_iff.mp h
  obtain ⟨-, -, -, hQ', -, rows', hr', -⟩ := ecPveAcVerify_ok_iff.mp h'
  rw [hr, hr'] at hrows
  obtain rfl := Except.ok.inj hrows
  obtain ⟨i, hbit⟩ := exists_getLsbD_ne hne
  obtain ⟨xs, τ, hlen, hstands, hsealed, hc, hquorum, hP, hsum⟩ :=
    ecPveAcVerifyRow_ok hac hkeys (forRows_ok_iff.mp hr i)
  obtain ⟨xs', τ', hlen', hstands', hsealed', hc', hquorum', hP', -⟩ :=
    ecPveAcVerifyRow_ok hac hkeys (forRows_ok_iff.mp hr' i)
  have hlog : Q = pointsOf curve.toCurve (List.zipWith (· + ·) xs xs') := by
    rw [hbit] at hP'
    rw [← hsum, ← pointsOf_add, ← hP, ← hP']
    cases π.b.getLsbD i with
    | false => rfl
    | true => exact zipWith_add_comm _ _
  have hother : Sealed O pke pid ac acPks (O.hashLabel label π.Q)
      ((π'.rows i).opened (π'.b.getLsbD i)) (π.rows i).c
      (π.rows i).quorumC τ' := by
    rw [← hQ, ← hc, ← hquorum, ← hbit]
    exact hsealed'
  have hother' : Sealed O pke pid ac acPks (O.hashLabel label π'.Q)
      ((π.rows i).opened (π.b.getLsbD i)) (π'.rows i).c
      (π'.rows i).quorumC τ := by
    rw [← hQ', ← hc', ← hquorum', hbit, Bool.not_not]
    exact hsealed
  have hrestore := @restoreUnsealed_eq q hq E _ _ _ curve π i O.toDrbgOracles xs xs'
    ((π'.rows i).opened (π'.b.getLsbD i)) hlen
    (by rw [← hQ]; exact hstands) (by rw [← hQ, ← hbit]; exact hstands') (by rw [← hQ]; exact hlog)
  have hrestore' := @restoreUnsealed_eq q hq E _ _ _ curve π' i O.toDrbgOracles xs' xs
    ((π.rows i).opened (π.b.getLsbD i)) hlen'
    (by rw [← hQ']; exact hstands') (by rw [← hQ', hbit, Bool.not_not]; exact hstands)
      (by rw [← hQ', zipWith_add_comm]; exact hlog)
  have hbytes : (if π.b.getLsbD i then (π.rows i).xBin else (π'.rows i).opened (π'.b.getLsbD i)) =
      if π.b.getLsbD i then (π.rows i).xBin else (π'.rows i).xBin := by
    rw [hbit]
    cases π.b.getLsbD i <;> rfl
  have hbytes' : (if π'.b.getLsbD i then (π'.rows i).xBin else (π.rows i).opened (π.b.getLsbD i)) =
      if π.b.getLsbD i then (π.rows i).xBin else (π'.rows i).xBin := by
    rw [hbit]
    cases π.b.getLsbD i <;> rfl
  rw [← hQ, hbytes] at hrestore
  rw [← hQ', hbytes', zipWith_add_comm xs' xs] at hrestore'
  have hrow := restoresRow_of_sealed hac hkeys hpke (by rw [← hQ]; exact h) hother
  have hrow' := restoresRow_of_sealed hac hkeys hpke (by rw [← hQ']; exact h') hother'
  rw [hrestore] at hrow
  rw [hrestore'] at hrow'
  have hdiff : π.b.getLsbD i ≠ π'.b.getLsbD i := by
    rw [hbit]
    cases π.b.getLsbD i <;> decide
  exact ⟨i, List.zipWith (· + ·) xs xs', _, _, hdiff, hlog, hrow, hrow'⟩

end Rows

section Honest

variable {q : ℕ} [hq : Fact q.Prime] {E : Type} [AddCommGroup E] [Module (ZMod q) E]
  [DecidableEq E] {EK DK : Type} {O : PveAcOracles E} {pke : BasePke EK DK} {pid : PName → ℕ}
  {ac : Node} {acPks : OrderedMap PName EK} {curve : SizedCurve q E} {π : EcPveAc E}
  {i : Fin ecPveKappa} {label L : List (Fin 256)} {ro : PveAcHash E → BitVec ecPveKappa}

omit [AddCommGroup E] [Module (ZMod q) E] [DecidableEq E] in
theorem ecPveAcEncryptRow0_eq {r01 : Buf128} {r02 : List (Fin 256)} {n : ℕ} {d : Drbg}
    (hd : drbgInit O.toDrbgOracles r01.toList = .ok d) {p : List (Fin 256) × List (List (Fin 256))}
    (h : ecPveAcEncryptRow O pke pid ac acPks L q r02 r01.toList = .ok p) :
    ecPveAcEncryptRow0 O pke pid ac acPks L q r01.toList r02 n =
      .ok ((drawnScalars q n d).map residue, p) := by
  have hlen : r01.toList.length = pveAcSeedSize := List.Vector.toList_length _
  rw [ecPveAcEncryptRow0, decide_eq_true hlen, require_true, ok_bind, hd, ok_bind, genBnBatch_eq,
    ok_bind, h, ok_bind]
  rfl

omit [Module (ZMod q) E] [DecidableEq E] in
theorem batchToBin_eq {xs : List (ZMod q)} (hlt : xs.length * curve.size < 2 ^ 31) :
    batchToBin curve.size (xs.map residue) = .ok (vectorBytes xs curve.size) := by
  have hbin : ∀ v ∈ xs.map residue, toBin v curve.size = .ok (binPad curve.size v.natAbs) := by
    intro v hv
    obtain ⟨x, -, rfl⟩ := List.mem_map.mp hv
    rw [toBin, decide_eq_true (le_trans (getBinSize_residue_le_modulus x) curve.order_le),
      cbAssert_true, ok_bind]
  rw [batchToBin, List.length_map, batchBytes, if_pos hlt, ok_bind, mapM_ok hbin, ok_bind,
    List.map_map]
  rfl

/-- Natural numbers that fit are read as they were written. -/
theorem batchInts_flatten {size : ℕ} {vs : List ℕ} (h : ∀ v ∈ vs, v < 256 ^ size) :
    batchInts size vs.length (vs.map (binPad size)).flatten = vs.map fun v : ℕ => (v : ℤ) := by
  have hlen : ∀ bin ∈ vs.map (binPad size), bin.length = size := by
    intro bin hbin
    obtain ⟨v, -, rfl⟩ := List.mem_map.mp hbin
    exact length_binPad _ _
  have hcut := chunks_flatten hlen
  rw [List.length_map] at hcut
  rw [batchInts, hcut, List.map_map]
  apply List.map_congr_left
  intro v hv
  rw [Function.comp_apply, fromBin_binPad (h v hv)]

/-- A row that is split with some bytes for its second part: the verifier recomputes it, and what is
not opened is sealed. Aggregation ends with the addition of these bytes. -/
theorem ecPveAcSplit_spec (hac : SharableTree q pid ac) (hkeys : acPks.keys = leafSet ac)
    {xs : List (ZMod q)} {r01 r02 r1 : Buf128} {d : Drbg} {x1Bin : List (Fin 256)}
    {p0 p1 : List (Fin 256) × List (List (Fin 256))}
    (hd : drbgInit O.toDrbgOracles r01.toList = .ok d)
    (h0 : ecPveAcEncryptRow O pke pid ac acPks L q r02.toList r01.toList = .ok p0)
    (h1 : ecPveAcEncryptRow O pke pid ac acPks L q r1.toList x1Bin = .ok p1)
    (hbin : x1Bin.length = xs.length * curve.size) (hlt : xs.length * curve.size < 2 ^ 31)
    (hx1 : residuesOf q (batchInts curve.size xs.length x1Bin) =
      List.zipWith (· - ·) xs (drawnScalars q xs.length d)) (hQ : π.Q = pointsOf curve.toCurve xs)
    (hrow : π.rows i = if π.b.getLsbD i then ⟨x1Bin, r1.toList, p0.1, p0.2⟩ else
      ⟨[], r01.toList ++ r02.toList, p1.1, p1.2⟩) :
    ecPveAcVerifyRow O pke pid ac acPks L curve π (pointsOf curve.toCurve xs) i =
        .ok ⟨p0.1, p1.1, p0.2, p1.2, pointsOf curve.toCurve (drawnScalars q xs.length d),
          List.zipWith (· - ·) (pointsOf curve.toCurve xs)
            (pointsOf curve.toCurve (drawnScalars q xs.length d))⟩ ∧
      ∃ (plain : List (Fin 256)) (τ : PName → ZMod q),
        Sealed O pke pid ac acPks L plain (π.rows i).c (π.rows i).quorumC τ ∧
        restoreUnsealed O.toDrbgOracles curve π i plain =
          reducedSums (batchInts curve.size xs.length x1Bin) xs := by
  have hlen : (drawnScalars q xs.length d).length = xs.length := Stream'.length_take _ _
  have hpoints : (pointsOf curve.toCurve xs).length = xs.length := List.length_map _
  have hQlen : π.Q.length = xs.length := by rw [hQ, hpoints]
  have hsum : List.zipWith (· + ·) (drawnScalars q xs.length d)
      (List.zipWith (· - ·) xs (drawnScalars q xs.length d)) = xs := zipWith_add_sub hlen.symm
  have hseed : r01.toList.length = pveAcSeedSize := List.Vector.toList_length _
  have hfirst : StandsFor O.toDrbgOracles q curve.size π.Q.length false r01.toList
      (drawnScalars q xs.length d) :=
    ⟨hseed, d, hd, by rw [hQlen]⟩
  have hsecond : StandsFor O.toDrbgOracles q curve.size π.Q.length true x1Bin
      (List.zipWith (· - ·) xs (drawnScalars q xs.length d)) := by
    rw [hQlen]
    exact ⟨hbin, hlt, hx1.symm⟩
  cases hb : π.b.getLsbD i with
  | false =>
    rw [hb] at hrow
    have hr : (π.rows i).r = r01.toList ++ r02.toList := by rw [hrow]; rfl
    have hrlen : (π.rows i).r.length = 2 * pveAcSeedSize := by
      rw [hr, List.length_append, List.Vector.toList_length, List.Vector.toList_length]
      rfl
    have htake : (π.rows i).r.take pveAcSeedSize = r01.toList := by rw [hr, List.take_left' hseed]
    have hdrop : (π.rows i).r.drop pveAcSeedSize = r02.toList := by rw [hr, List.drop_left' hseed]
    obtain ⟨-, τ, hsealed⟩ := ecPveAcEncryptRow_ok hac hkeys h1
    constructor
    · rw [ecPveAcVerifyRow, hb, if_neg Bool.false_ne_true, decide_eq_true hrlen, require_true,
        ok_bind, htake, hdrop, hpoints, ecPveAcEncryptRow0_eq hd h0]
      simp only [ok_bind, mapM_mulToGenerator]
      rw [hrow]
      rfl
    · refine ⟨x1Bin, τ, by rw [hrow]; exact hsealed, ?_⟩
      have hopened : (π.rows i).opened (π.b.getLsbD i) = r01.toList := by rw [hb]; exact htake
      rw [restoreUnsealed_eq (fun _ => hrlen) (by rw [hopened, hb]; exact hfirst)
        (by rw [hb]; exact hsecond)
        (hQ.trans (congrArg _ hsum.symm)), hb, hQlen, hsum, if_neg Bool.false_ne_true]
  | true =>
    rw [hb] at hrow
    have hxBin : (π.rows i).xBin = x1Bin := by rw [hrow]; rfl
    have hr : (π.rows i).r = r1.toList := by rw [hrow]; rfl
    have hbytes : batchBytes xs.length curve.size = .ok (xs.length * curve.size) := if_pos hlt
    obtain ⟨-, τ, hsealed⟩ := ecPveAcEncryptRow_ok hac hkeys h0
    constructor
    · have hread : batchFromBin curve.size xs.length x1Bin =
          .ok (batchInts curve.size xs.length x1Bin) := by
        rw [batchFromBin, hbytes, ok_bind, decide_eq_true hbin, require_true, ok_bind]
      rw [ecPveAcVerifyRow, hb, if_pos rfl, hxBin, hr, hpoints, hread, ok_bind, ecPveAcEncryptRow1,
        h1, ok_bind]
      simp only [mapM_mulToGenerator_ints curve.toCurve (batchInts_bounds curve.size_le),
        ok_bind, hx1]
      rw [pointsOf_sub, pointsOf_sub, zipWith_sub_sub hlen.symm, hrow]
      rfl
    · refine ⟨r01.toList, τ, by rw [hrow]; exact hsealed, ?_⟩
      have hopened : (π.rows i).opened (π.b.getLsbD i) = x1Bin := by rw [hb]; exact hxBin
      rw [restoreUnsealed_eq (fun hfalse => by rw [hb] at hfalse; cases hfalse)
        (by rw [hopened, hb]; exact hsecond)
        (by rw [hb]; exact hfirst) (hQ.trans (congrArg _ (by rw [zipWith_add_comm, hsum]))), hb,
        hQlen, zipWith_add_comm, hsum, if_pos rfl, hxBin]

theorem batchInts_vectorBytes {size : ℕ} (horder : getBinSize q ≤ size) (xs : List (ZMod q)) :
    batchInts size xs.length (vectorBytes xs size) = xs.map residue := by
  have hfit : ∀ v ∈ xs.map ZMod.val, v < 256 ^ size := by
    intro v hv
    obtain ⟨x, -, rfl⟩ := List.mem_map.mp hv
    exact lt_pow_of_getBinSize_le (le_trans (getBinSize_residue_le_modulus x) horder)
  have hread := batchInts_flatten hfit
  rw [List.length_map, List.map_map, List.map_map] at hread
  exact hread

theorem residuesOf_residue (xs : List (ZMod q)) : residuesOf q (xs.map residue) = xs := by
  rw [residuesOf, List.map_map]
  exact (List.map_congr_left fun x _ => cast_residue x).trans (List.map_id xs)

theorem reducedSums_residue (ys xs : List (ZMod q)) :
    reducedSums (ys.map residue) xs = .ok (xs.map residue) := by
  have hall : (ys.map residue).all (isInRange q) = true := by
    rw [List.all_map, List.all_eq_true]
    exact fun y _ => isInRange_residue y
  rw [reducedSums, if_pos hall]

omit [DecidableEq E] in
/-- What a turn of the encryption makes: both sides are sealed, and the second part is the rest of
the scalars. -/
theorem ecPveAcSplitRow_ok {xs : List (ZMod q)} {r01 r02 r1 : Buf128}
    {p : PveAcRow E × List (Fin 256)}
    (h : ecPveAcSplitRow O pke pid ac acPks L curve (xs.map residue)
      (pointsOf curve.toCurve xs) r01 r02 r1 = .ok p) :
    xs.length * curve.size < 2 ^ 31 ∧ ∃ d p0 p1, drbgInit O.toDrbgOracles r01.toList = .ok d ∧
      ecPveAcEncryptRow O pke pid ac acPks L q r02.toList r01.toList = .ok p0 ∧
      ecPveAcEncryptRow O pke pid ac acPks L q r1.toList p.2 = .ok p1 ∧
      p.2 = vectorBytes (List.zipWith (· - ·) xs (drawnScalars q xs.length d)) curve.size ∧
      p.1 = ⟨p0.1, p1.1, p0.2, p1.2, pointsOf curve.toCurve (drawnScalars q xs.length d),
        List.zipWith (· - ·) (pointsOf curve.toCurve xs)
          (pointsOf curve.toCurve (drawnScalars q xs.length d))⟩ := by
  obtain ⟨⟨x0, p0⟩, hrow0, h⟩ := bind_ok_iff.mp h
  obtain ⟨-, hrow0⟩ := require_bind_ok_iff.mp hrow0
  obtain ⟨d, hd, hrow0⟩ := bind_ok_iff.mp hrow0
  rw [genBnBatch_eq, ok_bind, List.length_map] at hrow0
  obtain ⟨p0', h0, hrow0⟩ := bind_ok_iff.mp hrow0
  obtain ⟨rfl, rfl⟩ := Prod.mk.inj (Except.ok.inj hrow0)
  have hlen : (List.zipWith (· - ·) xs (drawnScalars q xs.length d)).length = xs.length := by
    rw [List.length_zipWith, drawnScalars, Stream'.length_take, min_self]
  change (subEach q (xs.map residue) ((drawnScalars q xs.length d).map residue) >>= _) = _ at h
  rw [subEach_residue, ok_bind] at h
  obtain ⟨xBin, hbin, h⟩ := bind_ok_iff.mp h
  have hlt : xs.length * curve.size < 2 ^ 31 := by
    obtain ⟨size, hsize, -⟩ := bind_ok_iff.mp hbin
    rw [batchBytes, List.length_map, hlen] at hsize
    by_contra hge
    rw [if_neg hge] at hsize
    cases hsize
  rw [batchToBin_eq (by rw [hlen]; exact hlt)] at hbin
  obtain rfl := Except.ok.inj hbin
  obtain ⟨p1, h1, h⟩ := bind_ok_iff.mp h
  change ((((drawnScalars q xs.length d).map residue).mapM curve.mulToGenerator) >>= _) = _ at h
  rw [mapM_mulToGenerator, ok_bind] at h
  obtain rfl := Except.ok.inj h
  exact ⟨hlt, d, p0', p1, hd, h0, h1, rfl, rfl⟩

omit [DecidableEq E] in
theorem ecPveAcSplitRow_defined (hac : SharableTree q pid ac)
    (hencrypt : ∀ ek label plain rho, ∃ ct, pke.encrypt ek label plain rho = .ok ct)
    (acPks : OrderedMap PName EK) (L : List (Fin 256)) (curve : SizedCurve q E) {xs : List (ZMod q)}
    (hlt : xs.length * curve.size < 2 ^ 31) (r01 r02 r1 : Buf128) :
    ∃ p, ecPveAcSplitRow O pke pid ac acPks L curve (xs.map residue) (pointsOf curve.toCurve xs)
      r01 r02 r1 = .ok p := by
  obtain ⟨d, hd⟩ := drbgInit_buf128 O.toDrbgOracles r01
  have hlen : (List.zipWith (· - ·) xs (drawnScalars q xs.length d)).length = xs.length := by
    rw [List.length_zipWith, drawnScalars, Stream'.length_take, min_self]
  obtain ⟨p0, h0⟩ := ecPveAcEncryptRow_defined (O := O) (L := L) hac hencrypt acPks
    (List.Vector.toList_length r02 : r02.toList.length = pveAcSeedSize) r01.toList
  obtain ⟨p1, h1⟩ := ecPveAcEncryptRow_defined (O := O) (L := L) hac hencrypt acPks
    (List.Vector.toList_length r1 : r1.toList.length = pveAcSeedSize)
    (vectorBytes (List.zipWith (· - ·) xs (drawnScalars q xs.length d)) curve.size)
  rw [ecPveAcSplitRow, List.length_map, ecPveAcEncryptRow0_eq hd h0]
  simp only [ok_bind, subEach_residue, batchToBin_eq (hlen.symm ▸ hlt), ecPveAcEncryptRow1, h1,
    mapM_mulToGenerator]
  exact ⟨_, rfl⟩

/-- Encryption succeeds when the base encryption does. What it returns is accepted, each quorum
restores the scalars from each row, and other sets of leaves are refused. -/
theorem ecPveAc_complete (hac : SharableTree q pid ac)
    (hkeys : acPks.keys = leafSet ac) {dks : PName → DK}
    (hpke : ∀ nm pk, acPks.find nm = some pk → pke.Correct pk (dks nm)) {x : List ℤ} (h0 : x ≠ [])
    (hx : ∀ v ∈ x, 0 ≤ v ∧ v < 2 ^ 4096) (hne : ∀ v ∈ x, (v : ZMod q) ≠ 0)
    (r01 r02 r1 : Fin ecPveKappa → Buf128) :
    ((∀ ek label plain rho, ∃ ct, pke.encrypt ek label plain rho = .ok ct) →
      x.length * curve.size < 2 ^ 31 →
        ∃ π, ecPveAcEncrypt O pke pid ac ro acPks label curve x r01 r02 r1 = .ok π) ∧
      ∀ π, ecPveAcEncrypt O pke pid ac ro acPks label curve x r01 r02 r1 = .ok π →
        π.Q = x.map (fun v : ℤ => (v : ZMod q) • curve.generator) ∧
        ecPveAcVerify O pke pid ac ro acPks curve π π.Q label = .ok () ∧
        ∀ i, ∃ σ, RestoresRow O pke pid ac acPks dks ro curve label π i
          (.ok (x.map (· % (q : ℤ)))) σ := by
  have hxlen : (residuesOf q x).length = x.length := List.length_map _
  constructor
  · intro hencrypt hlt
    have hrows := forRows_defined fun i => ecPveAcSplitRow_defined (O := O) hac hencrypt acPks
      (O.hashLabel label (pointsOf curve.toCurve (residuesOf q x))) curve
        (by rwa [hxlen]) (r01 i) (r02 i) (r1 i)
    obtain ⟨rows, hrows⟩ := hrows
    rw [pointsOf] at hrows
    rw [ecPveAcEncrypt, mapM_modReduce hx, ok_bind, mapM_mulToGenerator, ok_bind]
    simp only [hrows, ok_bind]
    exact ⟨_, rfl⟩
  · intro π h
    rw [ecPveAcEncrypt, mapM_modReduce hx, ok_bind, mapM_mulToGenerator, ok_bind, ← pointsOf] at h
    obtain ⟨rows, hrows, h⟩ := bind_ok_iff.mp h
    have hπ := Except.ok.inj h
    have hQ : π.Q = pointsOf curve.toCurve (residuesOf q x) := by rw [← hπ]
    have hresidues : x.map (· % (q : ℤ)) = (residuesOf q x).map residue := by
      rw [residuesOf, List.map_map]
      exact List.map_congr_left fun v _ => emod_eq_residue v
    have hspec : ∀ i, ecPveAcVerifyRow O pke pid ac acPks (O.hashLabel label π.Q) curve π π.Q i =
        .ok (rows i).1 ∧
        ∃ (plain : List (Fin 256)) (τ : PName → ZMod q),
          Sealed O pke pid ac acPks (O.hashLabel label π.Q) plain
            (π.rows i).c (π.rows i).quorumC τ ∧
            restoreUnsealed O.toDrbgOracles curve π i plain = .ok (x.map (· % (q : ℤ))) := by
      intro i
      obtain ⟨hlt, d, p0, p1, hd, hs0, hs1, hbin, hrow⟩ :=
        ecPveAcSplitRow_ok (forRows_ok_iff.mp hrows i)
      have hlen :
          (List.zipWith (· - ·) (residuesOf q x)
            (drawnScalars q (residuesOf q x).length d)).length = (residuesOf q x).length := by
        rw [List.length_zipWith, drawnScalars, Stream'.length_take, min_self]
      have hints : batchInts curve.size (residuesOf q x).length (rows i).2 =
          (List.zipWith (· - ·) (residuesOf q x) (drawnScalars q (residuesOf q x).length d)).map
            residue := by
        have hread := batchInts_vectorBytes curve.order_le
          (List.zipWith (· - ·) (residuesOf q x) (drawnScalars q (residuesOf q x).length d))
        rw [hlen] at hread
        rw [hbin, hread]
      have hcipher : π.rows i = if π.b.getLsbD i then
          ⟨(rows i).2, (r1 i).toList, (rows i).1.c0, (rows i).1.quorumC0⟩
          else ⟨[], (r01 i).toList ++ (r02 i).toList, (rows i).1.c1,
          (rows i).1.quorumC1⟩ := by rw [← hπ]
      rw [hrow] at hcipher ⊢
      obtain ⟨hverify, plain, τ, hsealed, hrestore⟩ := ecPveAcSplit_spec hac hkeys hd hs0 hs1
        (by rw [hbin, length_vectorBytes, hlen]) hlt (by rw [hints, residuesOf_residue]) hQ hcipher
      rw [hints, reducedSums_residue, ← hresidues] at hrestore
      rw [hQ]
      exact ⟨hverify, plain, τ, hsealed, hrestore⟩
    have hverify : ecPveAcVerify O pke pid ac ro acPks curve π π.Q label = .ok () := by
      refine ecPveAcVerify_ok_iff.mpr ⟨?_, rfl, ?_, rfl, by rw [← hπ], fun i => (rows i).1,
        forRows_ok_iff.mpr fun i => (hspec i).1, by rw [← hπ]⟩
      · rw [hQ, pointsOf, List.length_map, hxlen]
        exact (List.length_pos_of_ne_nil h0).ne'
      · intro P hP
        rw [hQ] at hP
        obtain ⟨z, hz, rfl⟩ := List.mem_map.mp hP
        obtain ⟨v, hv, rfl⟩ := List.mem_map.mp hz
        exact (smul_generator_eq_zero curve.toCurve).not.mpr (hne v hv)
    refine ⟨by rw [hQ, pointsOf, residuesOf, List.map_map]; rfl, hverify, fun i => ?_⟩
    obtain ⟨-, plain, τ, hsealed, hrestore⟩ := hspec i
    rw [← hrestore]
    exact ⟨_, restoresRow_of_sealed hac hkeys hpke hverify hsealed⟩

/-- The bytes of integers that stand for the scalars but are larger by `q`. -/
def unreducedBytes (xs : List (ZMod q)) (size : ℕ) : List (Fin 256) :=
  (xs.map fun x => binPad size (x.val + q)).flatten

omit hq in
theorem length_unreducedBytes (xs : List (ZMod q)) (size : ℕ) :
    (unreducedBytes xs size).length = xs.length * size := by
  rw [unreducedBytes, List.length_flatten, List.map_map]
  simp [Function.comp_def, length_binPad]

theorem batchInts_unreducedBytes {size : ℕ} (hroom : 2 * q ≤ 256 ^ size) (xs : List (ZMod q)) :
    batchInts size xs.length (unreducedBytes xs size) = xs.map fun x => residue x + (q : ℤ) := by
  have hfit : ∀ v ∈ xs.map (fun x => x.val + q), v < 256 ^ size := by
    intro v hv
    obtain ⟨x, -, rfl⟩ := List.mem_map.mp hv
    have hval := ZMod.val_lt x
    omega
  have hread := batchInts_flatten hfit
  rw [List.length_map, List.map_map, List.map_map] at hread
  rw [unreducedBytes]
  exact hread.trans (List.map_congr_left fun x _ => Nat.cast_add x.val q)

theorem residuesOf_unreduced (xs : List (ZMod q)) :
    residuesOf q (xs.map fun x => residue x + (q : ℤ)) = xs := by
  have hcast : ∀ x : ZMod q, ((residue x + (q : ℤ) : ℤ) : ZMod q) = x := by
    intro x
    rw [Int.cast_add, cast_residue, Int.cast_natCast, ZMod.natCast_self, add_zero]
  rw [residuesOf, List.map_map]
  exact (List.map_congr_left fun x _ => hcast x).trans (List.map_id xs)

theorem reducedSums_unreduced {ys : List (ZMod q)} (h0 : ys ≠ []) (xs : List (ZMod q)) :
    reducedSums (ys.map fun y => residue y + (q : ℤ)) xs = throwing .assertionFailed := by
  obtain ⟨y, hy⟩ := List.exists_mem_of_ne_nil _ h0
  have hout : isInRange q (residue y + (q : ℤ)) = false := by
    have hval := ZMod.val_lt y
    rw [isInRange, decide_eq_false_iff_not, residue]
    omega
  rw [reducedSums, if_neg]
  rw [List.all_map, List.all_eq_true]
  intro hall
  have hin := hall y hy
  rw [Function.comp_apply, hout] at hin
  cases hin

/-- Whoever splits all rows alike, with any bytes for the second part, is believed whatever the
challenge is. -/
theorem exists_split (hac : SharableTree q pid ac)
    (hkeys : acPks.keys = leafSet ac) {dks : PName → DK}
    (hpke : ∀ nm pk, acPks.find nm = some pk → pke.Correct pk (dks nm))
    (hencrypt : ∀ ek label plain rho, ∃ ct, pke.encrypt ek label plain rho = .ok ct)
    {xs : List (ZMod q)} (h0 : xs ≠ []) (hlt : xs.length * curve.size < 2 ^ 31)
    (hne : ∀ x ∈ xs, x ≠ 0) (label : List (Fin 256)) {seed : Buf128} {d : Drbg}
    (hd : drbgInit O.toDrbgOracles seed.toList = .ok d) {x1Bin : List (Fin 256)}
    (hbin : x1Bin.length = xs.length * curve.size)
    (hx1 : residuesOf q (batchInts curve.size xs.length x1Bin) =
      List.zipWith (· - ·) xs (drawnScalars q xs.length d)) :
    ∃ rows, ∀ ro, ∃ π, π.Q = pointsOf curve.toCurve xs ∧ π.b = ro (pveAcHash π.Q label rows) ∧
      ecPveAcVerify O pke pid ac ro acPks curve π π.Q label = .ok () ∧
      forRows (ecPveAcVerifyRow O pke pid ac acPks (O.hashLabel label π.Q) curve π π.Q) = .ok rows ∧
      ∀ i, ∃ σ, RestoresRow O pke pid ac acPks dks ro curve label π i
        (reducedSums (batchInts curve.size xs.length x1Bin) xs) σ := by
  have hseed : seed.toList.length = pveAcSeedSize := List.Vector.toList_length _
  obtain ⟨p0, hp0⟩ := ecPveAcEncryptRow_defined (O := O) (L :=
    O.hashLabel label (pointsOf curve.toCurve xs)) hac hencrypt acPks hseed
    seed.toList
  obtain ⟨p1, hp1⟩ := ecPveAcEncryptRow_defined (O := O) (L :=
    O.hashLabel label (pointsOf curve.toCurve xs)) hac hencrypt acPks hseed
    x1Bin
  let row : PveAcRow E := ⟨p0.1, p1.1, p0.2, p1.2,
    pointsOf curve.toCurve (drawnScalars q xs.length d),
    List.zipWith (· - ·) (pointsOf curve.toCurve xs)
      (pointsOf curve.toCurve (drawnScalars q xs.length d))⟩
  refine ⟨fun _ => row, fun ro => ?_⟩
  let b := ro (pveAcHash (pointsOf curve.toCurve xs) label fun _ => row)
  let π : EcPveAc E := ⟨pointsOf curve.toCurve xs,
      O.hashLabel label (pointsOf curve.toCurve xs), b, fun i =>
    if b.getLsbD i then ⟨x1Bin, seed.toList, p0.1, p0.2⟩ else
      ⟨[], seed.toList ++ seed.toList, p1.1, p1.2⟩⟩
  have hspec := fun i => @ecPveAcSplit_spec q hq E _ _ _ EK DK O pke pid ac acPks curve π i
    (O.hashLabel label (pointsOf curve.toCurve xs)) hac hkeys xs seed seed seed d _ p0 p1 hd hp0
      hp1 hbin hlt hx1 rfl rfl
  have hrows : forRows (ecPveAcVerifyRow O pke pid ac acPks (O.hashLabel label π.Q) curve π π.Q) =
      .ok fun _ => row :=
    forRows_ok_iff.mpr fun i => (hspec i).1
  have hverify : ecPveAcVerify O pke pid ac ro acPks curve π π.Q label = .ok () := by
    refine ecPveAcVerify_ok_iff.mpr ⟨?_, rfl, ?_, rfl, rfl, fun _ => row, hrows, rfl⟩
    · exact (List.length_pos_of_ne_nil (List.map_eq_nil_iff.not.mpr h0)).ne'
    · intro P hP
      obtain ⟨x, hx, rfl⟩ := List.mem_map.mp hP
      exact (smul_generator_eq_zero curve.toCurve).not.mpr (hne x hx)
  refine ⟨π, rfl, rfl, hverify, hrows, fun i => ?_⟩
  obtain ⟨-, plain, τ, hsealed, hrestore⟩ := hspec i
  rw [← hrestore]
  exact ⟨_, restoresRow_of_sealed hac hkeys hpke hverify hsealed⟩

/-- Where the bytes of a scalar have room for twice the order, `verify` accepts ciphertexts of which
no quorum restores any row: the aggregation asserts. -/
theorem ecPveAc_unreduced (hac : SharableTree q pid ac)
    (hkeys : acPks.keys = leafSet ac) {dks : PName → DK}
    (hpke : ∀ nm pk, acPks.find nm = some pk → pke.Correct pk (dks nm))
    (hencrypt : ∀ ek label plain rho, ∃ ct, pke.encrypt ek label plain rho = .ok ct)
    (hroom : 2 * q ≤ 256 ^ curve.size) {xs : List (ZMod q)} (h0 : xs ≠ [])
    (hlt : xs.length * curve.size < 2 ^ 31) (hne : ∀ x ∈ xs, x ≠ 0) (label : List (Fin 256)) :
    ∃ π, π.Q = xs.map (fun x => x • curve.generator) ∧
    ecPveAcVerify O pke pid ac ro acPks curve π π.Q label = .ok () ∧
      ∀ i, ∃ σ, RestoresRow O pke pid ac acPks dks ro curve label π i
        (throwing .assertionFailed) σ := by
  obtain ⟨d, hd⟩ := drbgInit_buf128 O.toDrbgOracles (List.Vector.replicate 16 0)
  have hlen : (List.zipWith (· - ·) xs (drawnScalars q xs.length d)).length = xs.length := by
    rw [List.length_zipWith, drawnScalars, Stream'.length_take, min_self]
  have hrest : List.zipWith (· - ·) xs (drawnScalars q xs.length d) ≠ [] := by
    rw [← List.length_pos_iff_ne_nil, hlen]
    exact List.length_pos_of_ne_nil h0
  have hints := batchInts_unreducedBytes hroom
    (List.zipWith (· - ·) xs (drawnScalars q xs.length d))
  rw [hlen] at hints
  obtain ⟨rows, hall⟩ := exists_split hac hkeys hpke hencrypt h0 hlt hne label hd
    (by rw [length_unreducedBytes, hlen] : (unreducedBytes
      (List.zipWith (· - ·) xs (drawnScalars q xs.length d)) curve.size).length = _)
    (by rw [hints, residuesOf_unreduced])
  rw [hints, reducedSums_unreduced hrest] at hall
  obtain ⟨π, hQ, -, hverify, -, hrestore⟩ := hall ro
  exact ⟨π, hQ, hverify, hrestore⟩

end Honest

section Samples

/-- An oracle for each purpose that hides nothing. -/
def samplePveAcOracles : PveAcOracles (ZMod 1009) where
  aesCtr _ _ := Stream'.const 1
  sha256 := id
  hashLabel _ _ := []
  hashKey _ _ := []
  aesGcmEncrypt _ _ _ plain := plain
  aesGcmDecrypt _ _ _ c := .ok c
  aesGcm_correct _ _ _ _ := rfl

def sampleAcPks : OrderedMap PName Unit := OrderedMap.ofKeys (fun _ => ()) sampleTree.listLeafNames

theorem sampleTree_sharable : SharableTree 1009 samplePid sampleTree where
  valid := by decide
  positions := by decide
  range := by decide

theorem sampleScalars_ne_zero : ∀ x ∈ [(5 : ZMod 1009), 3], x ≠ 0 := by
  intro x hx
  rcases List.mem_pair.mp hx with rfl | rfl
  · decide
  · decide

/-- Five and six are encrypted to `sampleTree`, and two of its leaves restore them. -/
theorem ecPveAc_complete_sample :
    ∃ π, ecPveAcEncrypt samplePveAcOracles openPke samplePid sampleTree (fun _ => 0) sampleAcPks []
    sampleSizedCurve [5, 6] sampleSeeds sampleSeeds sampleSeeds = .ok π ∧ ∃ σ : PName → ℤ,
      aggregateToRestoreRow samplePveAcOracles openPke samplePid sampleTree (fun _ => 0)
        sampleSizedCurve π ⟨0, by decide⟩ []
        (quorumShares sampleTree {[97], [102]} σ) false sampleAcPks = .ok [5, 6] := by
  obtain ⟨hdefined, hall⟩ :=
    @ecPveAc_complete 1009 _ (ZMod 1009) _ _ _ Unit Unit samplePveAcOracles openPke
      samplePid sampleTree sampleAcPks
    sampleSizedCurve [] (fun _ => 0) sampleTree_sharable rfl (fun _ => ()) (fun _ _ _ =>
      openPke_correct) [5, 6] (by decide)
    sampleBatch_bounds sampleBatch_ne_zero sampleSeeds sampleSeeds sampleSeeds
  obtain ⟨π, hπ⟩ := hdefined (fun _ => openPke_defined) (by decide)
  obtain ⟨-, -, hrows⟩ := hall π hπ
  obtain ⟨σ, hrow⟩ := hrows ⟨0, by decide⟩
  exact ⟨π, hπ, σ, hrow.quorum _ false (by decide)⟩

/-- Its rows are accepted with two challenges, and two leaves restore the scalars. -/
theorem ecPveAc_sound_sample :
    ∃ π π' : EcPveAc (ZMod 1009), π.b ≠ π'.b ∧ ∃ (i : Fin ecPveKappa) (σ σ' : PName → ℤ),
    aggregateToRestoreRow samplePveAcOracles openPke samplePid sampleTree
      (fun _ => 0) sampleSizedCurve π i []
        (quorumShares sampleTree {[97], [102]} σ) false sampleAcPks =
      aggregateToRestoreRow samplePveAcOracles openPke samplePid sampleTree (fun _ => 1)
        sampleSizedCurve π' i []
        (quorumShares sampleTree {[97], [102]} σ') false sampleAcPks := by
  obtain ⟨d, hd⟩ := drbgInit_buf128 samplePveAcOracles.toDrbgOracles (List.Vector.replicate 16 0)
  have hlen : (List.zipWith (· - ·) [(5 : ZMod 1009), 3] (drawnScalars 1009 2 d)).length = 2 := by
    rw [List.length_zipWith, drawnScalars, Stream'.length_take]
    rfl
  have hints := batchInts_vectorBytes sampleSizedCurve.order_le
    (List.zipWith (· - ·) [(5 : ZMod 1009), 3] (drawnScalars 1009 2 d))
  rw [hlen] at hints
  obtain ⟨rows, hall⟩ := @exists_split 1009 _ (ZMod 1009) _ _ _ Unit Unit samplePveAcOracles openPke
    samplePid sampleTree sampleAcPks
    sampleSizedCurve sampleTree_sharable rfl (fun _ => ()) (fun _ _ _ => openPke_correct)
      (fun _ => openPke_defined) [5, 3]
    (by decide) (by decide) sampleScalars_ne_zero [] _ d hd _
      (by rw [length_vectorBytes, hlen]; rfl) ((congrArg _ hints).trans (residuesOf_residue _))
  obtain ⟨π, hQ, hb, h, hrows, -⟩ := hall fun _ => 0
  obtain ⟨π', hQ', hb', h', hrows', -⟩ := hall fun _ => 1
  have hne : π.b ≠ π'.b := by
    rw [hb, hb']
    decide
  rw [hQ'] at h' hrows'
  rw [hQ] at h hrows
  obtain ⟨i, xs, σ, σ', -, -, hrow, hrow'⟩ :=
    ecPveAc_sound sampleTree_sharable rfl (fun _ _ _ => openPke_correct) h h'
    (hrows.trans hrows'.symm) hne
  exact ⟨π, π', hne, i, σ, σ',
    (hrow.quorum _ false (by decide)).trans (hrow'.quorum _ false (by decide)).symm⟩

/-- An accepted ciphertext for five and three that is not restored. -/
theorem ecPveAc_unreduced_sample :
    ∃ π, ecPveAcVerify samplePveAcOracles openPke samplePid sampleTree (fun _ => 0) sampleAcPks
    sampleSizedCurve π π.Q [] = .ok () ∧ ∃ σ : PName → ℤ,
      aggregateToRestoreRow samplePveAcOracles openPke samplePid sampleTree (fun _ => 0)
        sampleSizedCurve π ⟨0, by decide⟩ []
        (quorumShares sampleTree {[97], [102]} σ) false sampleAcPks =
          throwing .assertionFailed := by
  obtain ⟨π, -, hverify, hrows⟩ :=
    @ecPveAc_unreduced 1009 _ (ZMod 1009) _ _ _ Unit Unit samplePveAcOracles
      openPke samplePid sampleTree
    sampleAcPks sampleSizedCurve (fun _ => 0) sampleTree_sharable rfl (fun _ => ())
      (fun _ _ _ => openPke_correct)
    (fun _ => openPke_defined) (by norm_num [sampleSizedCurve]) [5, 3] (by decide) (by decide)
    sampleScalars_ne_zero []
  obtain ⟨σ, hrow⟩ := hrows ⟨0, by decide⟩
  exact ⟨π, hverify, σ, hrow.quorum _ false (by decide)⟩

end Samples

end CbMpc
