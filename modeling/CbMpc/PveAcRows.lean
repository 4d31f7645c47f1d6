import CbMpc.PveAc
import CbMpc.PveBatchSound

/-!
# The rows of a ciphertext for an access structure

What is sealed in a row comes back from the shares of every quorum and from no other set of leaves.
The scalars of the second part are read without a reduction, and their addition asserts that they
are reduced.
-/
namespace CbMpc

section Leaves

variable {V W : Type}

theorem mem_leafSet {t : Node} {path : PName} : path ∈ leafSet t ↔ path ∈ t.listLeafNames := by
  rw [leafSet, OrderedMap.mem_keys_iff, OrderedMap.find_ofKeys]
  split <;> simp_all

/-- The entry of a key stands where the key stands. -/
theorem getElem?_entries_idxOf {m : OrderedMap PName V} {path : PName} {v : V}
    (h : m.find path = some v) :
    m.entries[m.keys.idxOf path]? = some (path, v) := by
  have hmem := (m.mem_entries_iff path v).mpr h
  obtain ⟨i, hi, hget⟩ := List.mem_iff_getElem.mp hmem
  have hlt : i < m.keys.length := by rwa [OrderedMap.keys, List.length_map]
  have hkeys : m.keys[i] = path := by
    simp only [OrderedMap.keys, List.getElem_map, hget]
  have hnd : m.keys.Nodup := (List.pairwise_map.mpr m.sorted).imp fun h => ne_of_lt h
  have hidx : m.keys.idxOf path = i := by
    rw [← hkeys]
    exact hnd.idxOf_getElem i _
  rw [hidx, List.getElem?_eq_getElem hi, hget]

/-- A tree with leaves has them somewhere. -/
theorem listLeafNames_ne_nil {t : Node} (hwf : t.WellFormed) : t.listLeafNames ≠ [] := by
  intro h
  have hyes := @Node.enoughForQuorum_of_leaves ∅ t hwf fun nm hnm => by
    rw [h] at hnm
    exact absurd hnm List.not_mem_nil
  rw [Node.enoughForQuorum_empty hwf] at hyes
  cases hyes

end Leaves

section Draws

variable {q : ℕ} [hq : Fact q.Prime]

theorem genBnBatch_eq (n : ℕ) (d : Drbg) :
    genBnBatch q n d = .ok (((d.draws q).take n).map residue) := by
  induction n generalizing d with
  | zero => rfl
  | succ n ih =>
    have hcons : d.draws q = Stream'.cons (d.draw q) ((d.afterDraw q).draws q) :=
      Stream'.corec_eq _ _ _
    rw [genBnBatch, Drbg.genBn_eq, ok_bind]
    simp only [ih, ok_bind]
    rw [hcons, Stream'.take_succ_cons, List.map_cons]

end Draws

/-- A tree along which secrets are shared modulo `q`. -/
structure SharableTree (q : ℕ) [Fact q.Prime] (pid : PName → ℕ) (ac : Node) : Prop where
  valid : ac.validateTree = .ok ()
  positions : Positions (pidPos q pid) ac
  range : PidsInRange q pid ac

section Sealing

variable {q : ℕ} [hq : Fact q.Prime] {E : Type} [AddCommGroup E] [Module (ZMod q) E]
  [DecidableEq E] {EK DK : Type} {O : PveAcOracles E} {pke : BasePke EK DK} {pid : PName → ℕ}
  {ac : Node} {acPks : OrderedMap PName EK} {L : List (Fin 256)}

/-- What a side of a row holds: the plaintext, sealed with the root of a sharing, and the leaves'
shares, encrypted. -/
structure Sealed (O : PveAcOracles E) (pke : BasePke EK DK) (pid : PName → ℕ) (ac : Node)
    (acPks : OrderedMap PName EK) (L plain c : List (Fin 256)) (quorumC : List (List (Fin 256)))
    (τ : PName → ZMod q) : Prop where
  consistent : Consistent (pidPos q pid) τ ac
  c_eq : c = O.aesGcmEncrypt ((O.hashKey (residue (τ ac.name)) L).take 32)
    ((O.hashKey (residue (τ ac.name)) L).drop 32) L plain
  quorum : List.Forall₂ (fun e ct => ∃ rho,
    pke.encrypt e.2 L (toBinShort (residue (τ e.1))) rho = .ok ct) acPks.entries quorumC

theorem encryptQuorum_ok (share : PName → ℤ) {KShares : OrderedMap PName ℤ}
    {entries : List (PName × EK)} {drbg : Drbg} {cts : List (List (Fin 256))}
    (hfind : ∀ e ∈ entries, KShares.find e.1 = some (share e.1))
    (h : encryptQuorum pke L KShares entries drbg = .ok cts) :
    List.Forall₂ (fun e ct => ∃ rho,
      pke.encrypt e.2 L (toBinShort (share e.1)) rho = .ok ct) entries cts := by
  induction entries generalizing drbg cts with
  | nil =>
    obtain rfl := Except.ok.inj h
    exact .nil
  | cons e entries ih =>
    obtain ⟨path, pubKey⟩ := e
    rw [encryptQuorum, hfind _ List.mem_cons_self] at h
    obtain ⟨ct, hct, h⟩ := bind_ok_iff.mp h
    obtain ⟨cts', hcts, h⟩ := bind_ok_iff.mp h
    obtain rfl := Except.ok.inj h
    exact .cons ⟨_, hct⟩ (ih (fun e he => hfind e (List.mem_cons_of_mem _ he)) hcts)

theorem encryptQuorum_defined (hencrypt : ∀ ek label plain rho, ∃ ct,
      pke.encrypt ek label plain rho = .ok ct) (KShares : OrderedMap PName ℤ)
    (entries : List (PName × EK)) (drbg : Drbg) :
    ∃ cts, encryptQuorum pke L KShares entries drbg = .ok cts := by
  induction entries generalizing drbg with
  | nil => exact ⟨[], rfl⟩
  | cons e entries ih =>
    obtain ⟨path, pubKey⟩ := e
    obtain ⟨ct, hct⟩ := hencrypt pubKey L (toBinShort ((KShares.find path).getD 0)) (drbg.gen 32).1
    obtain ⟨cts, hcts⟩ := ih (drbg.gen 32).2
    rw [encryptQuorum]
    simp only [hct, hcts, ok_bind]
    exact ⟨_, rfl⟩

/-- The shares of the key of a row, for a seed. -/
theorem shareSeeded_eq (hac : SharableTree q pid ac) (K : ZMod q) (d : Drbg) :
    ∃ τ : PName → ZMod q, τ ac.name = K ∧
    Consistent (pidPos q pid) τ ac ∧ shareSeeded q pid ac (residue K) d =
      .ok (OrderedMap.ofKeys (fun nm => residue (τ nm)) ac.listLeafNames,
        d.afterDraws q (drawCount ac)) := by
  obtain ⟨hwf, hnd, -⟩ := Node.validateTree_ok hac.valid
  obtain ⟨τ, hroot, hcons, hshare⟩ := share_eq pid hwf hnd hac.positions hac.range K (d.draws q)
  refine ⟨τ, hroot, hcons, ?_⟩
  rw [shareSeeded, hshare, ok_bind]

omit [AddCommGroup E] [Module (ZMod q) E] [DecidableEq E] in
theorem ecPveAcEncryptRow_ok (hac : SharableTree q pid ac) (hkeys : acPks.keys = leafSet ac)
    {seed plain : List (Fin 256)} {p : List (Fin 256) × List (List (Fin 256))}
    (h : ecPveAcEncryptRow O pke pid ac acPks L q seed plain = .ok p) :
    seed.length = pveAcSeedSize ∧ ∃ τ : PName → ZMod q,
      Sealed O pke pid ac acPks L plain p.1 p.2 τ := by
  obtain ⟨hseed, h⟩ := require_bind_ok_iff.mp h
  obtain ⟨d, hd, h⟩ := bind_ok_iff.mp h
  rw [Drbg.genBn_eq, ok_bind] at h
  obtain ⟨τ, hroot, hcons, hshare⟩ := shareSeeded_eq hac (d.draw q) (d.afterDraw q)
  simp only [hshare, ok_bind] at h
  obtain ⟨quorumC, hquorum, h⟩ := bind_ok_iff.mp h
  obtain rfl := Except.ok.inj h
  refine ⟨of_decide_eq_true hseed, τ, hcons, by rw [hroot],
    encryptQuorum_ok (fun nm => residue (τ nm)) (fun e he => ?_) hquorum⟩
  have hleaf : e.1 ∈ leafSet ac := by
    rw [← hkeys]
    exact List.mem_map_of_mem he
  rw [OrderedMap.find_ofKeys, if_pos (mem_leafSet.mp hleaf)]

omit [AddCommGroup E] [Module (ZMod q) E] [DecidableEq E] in
theorem ecPveAcEncryptRow_defined (hac : SharableTree q pid ac)
    (hencrypt : ∀ ek label plain rho, ∃ ct, pke.encrypt ek label plain rho = .ok ct)
    (acPks : OrderedMap PName EK) {seed : List (Fin 256)} (hseed : seed.length = pveAcSeedSize)
    (plain : List (Fin 256)) :
    ∃ p, ecPveAcEncryptRow O pke pid ac acPks L q seed plain = .ok p := by
  obtain ⟨d, hd⟩ := drbgInit_seeded O.toDrbgOracles (hseed.ge : 16 ≤ seed.length)
  obtain ⟨τ, -, -, hshare⟩ := shareSeeded_eq hac (d.draw q) (d.afterDraw q)
  obtain ⟨cts, hcts⟩ := encryptQuorum_defined (L := L) hencrypt
    (OrderedMap.ofKeys (fun nm => residue (τ nm)) ac.listLeafNames) acPks.entries
    ((d.afterDraw q).afterDraws q (drawCount ac))
  rw [ecPveAcEncryptRow, decide_eq_true hseed, require_true, ok_bind, hd, ok_bind,
    Drbg.genBn_eq, ok_bind]
  simp only [hshare, hcts, ok_bind]
  exact ⟨_, rfl⟩

variable {π : EcPveAc E} {i : Fin ecPveKappa} {label plain : List (Fin 256)}
  {τ : PName → ZMod q} {dks : PName → DK}

omit [AddCommGroup E] [Module (ZMod q) E] [DecidableEq E] in
/-- A leaf decrypts its share of the key of a row. -/
theorem Sealed.partyDecryptRow {c : List (Fin 256)}
    (h : Sealed O pke pid ac acPks (O.hashLabel label π.Q) plain c (π.rows i).quorumC τ)
    (hkeys : acPks.keys = leafSet ac) (hQ : π.Q ≠ []) {path : PName} {pk : EK}
    (hpk : acPks.find path = some pk) (hpke : pke.Correct pk (dks path)) :
    CbMpc.partyDecryptRow O pke ac q π i path (dks path) label = .ok (residue (τ path)) := by
  have hmem : path ∈ leafSet ac := by
    rw [← hkeys, OrderedMap.mem_keys_iff, hpk]
    rfl
  have hentry := getElem?_entries_idxOf hpk
  rw [hkeys] at hentry
  obtain ⟨hi, hget⟩ := List.getElem?_eq_some_iff.mp hentry
  have hi' : (leafSet ac).idxOf path < (π.rows i).quorumC.length := by
    rw [← h.quorum.length_eq]
    exact hi
  obtain ⟨rho, hct⟩ := h.quorum.get hi hi'
  rw [List.get_eq_getElem, hget, List.get_eq_getElem] at hct
  rw [CbMpc.partyDecryptRow, decide_eq_true hQ, require_true, ok_bind, findQuorumCiphertext,
    decide_eq_true hmem, require_true, ok_bind, List.getElem?_eq_getElem hi', ok_bind,
    hpke.decrypt_encrypt hct, ok_bind, decide_eq_true (length_toBinShort_le _), require_true,
    ok_bind, fromBin_toBinShort]

/-- The shares of the leaves in a set. -/
def quorumShares (ac : Node) (S : Finset PName) (σ : PName → ℤ) : OrderedMap PName ℤ :=
  (OrderedMap.ofKeys σ ac.listLeafNames).filterKeys (· ∈ S)

omit [AddCommGroup E] [Module (ZMod q) E] [DecidableEq E] in
/-- The key of a row is reconstructed by the quorums and by no other set of leaves. -/
theorem Sealed.reconstruct {c : List (Fin 256)} {quorumC : List (List (Fin 256))}
    (hac : SharableTree q pid ac)
    (h : Sealed O pke pid ac acPks L plain c quorumC τ) (S : Finset PName) :
    CbMpc.reconstruct q pid ac (quorumShares ac S fun nm => residue (τ nm)) =
      quorumResult (ac.enoughForQuorum S) (residue (τ ac.name)) := by
  obtain ⟨hwf, -, -⟩ := Node.validateTree_ok hac.valid
  refine reconstructNode_eq scalarOps_sound pid S _ τ hwf hac.positions h.consistent fun nm hnm =>
    ?_
  by_cases hS : nm ∈ S <;> simp [quorumShares, hS, hnm]

omit [AddCommGroup E] [Module (ZMod q) E] [DecidableEq E] in
theorem Sealed.unseal {c : List (Fin 256)} {quorumC : List (List (Fin 256))}
    (h : Sealed O pke pid ac acPks L plain c quorumC τ) :
    O.aesGcmDecrypt ((O.hashKey (residue (τ ac.name)) L).take 32)
      ((O.hashKey (residue (τ ac.name)) L).drop 32) L c = .ok plain := by
  rw [h.c_eq, O.aesGcm_correct]

end Sealing

section Rows

variable {q : ℕ} [hq : Fact q.Prime] {E : Type} [AddCommGroup E] [Module (ZMod q) E]
  [DecidableEq E] {EK DK : Type} {O : PveAcOracles E} {pke : BasePke EK DK} {pid : PName → ℕ}
  {ac : Node} {acPks : OrderedMap PName EK} {L : List (Fin 256)} {curve : SizedCurve q E}
  {π : EcPveAc E} {Q : List E} {i : Fin ecPveKappa}

/-- The ciphertext of one side, and the leaves' shares of its key. -/
def PveAcRow.c {E : Type} (row : PveAcRow E) (side : Bool) : List (Fin 256) :=
  if side then row.c1 else row.c0

def PveAcRow.quorumC {E : Type} (row : PveAcRow E) (side : Bool) : List (List (Fin 256)) :=
  if side then row.quorumC1 else row.quorumC0

/-- The scalars of a seed. -/
def drawnScalars (q n : ℕ) (d : Drbg) : List (ZMod q) := (d.draws q).take n

/-- The bytes of a part, on either side, and the scalars that they stand for. -/
def StandsFor (O : DrbgOracles) (q curveSize n : ℕ) (side : Bool) (bytes : List (Fin 256))
    (xs : List (ZMod q)) : Prop :=
  if side then
    bytes.length = n * curveSize ∧ n * curveSize < 2 ^ 31 ∧
    xs = residuesOf q (batchInts curveSize n bytes)
  else bytes.length = pveAcSeedSize ∧ ∃ d, drbgInit O bytes = .ok d ∧ xs = drawnScalars q n d

/-- The part of a row that is opened. -/
def PveRow.opened (row : PveRow) (bit : Bool) : List (Fin 256) :=
  if bit then row.xBin else row.r.take pveAcSeedSize

omit [DecidableEq E] in
/-- The points of integers that are not reduced. -/
theorem mapM_mulToGenerator_ints (curve : Curve q E) {ints : List ℤ}
    (h : ∀ v ∈ ints, 0 ≤ v ∧ v < 2 ^ 4096) :
    ints.mapM curve.mulToGenerator = .ok (pointsOf curve (residuesOf q ints)) := by
  have hmul : ∀ v ∈ ints, curve.mulToGenerator v = .ok ((v : ZMod q) • curve.generator) := by
    intro v hv
    rw [Curve.mulToGenerator]
    cases curve.type with
    | ossl => rfl
    | bitcoin => simp only [modReduce_eq_residue (h v hv).1 (h v hv).2, ok_bind, cast_residue]
    | ed25519 => simp only [modReduce_eq_residue (h v hv).1 (h v hv).2, ok_bind, cast_residue]
  rw [mapM_ok hmul, pointsOf, residuesOf, List.map_map]
  rfl

theorem batchInts_bounds {curveSize n : ℕ} (hsize : curveSize ≤ 66) {bin : List (Fin 256)} :
    ∀ v ∈ batchInts curveSize n bin, 0 ≤ v ∧ v < 2 ^ 4096 := by
  intro v hv
  obtain ⟨piece, hpiece, rfl⟩ := List.mem_map.mp hv
  have hlen := length_of_mem_chunks hpiece
  exact ⟨Int.natCast_nonneg _, fromBin_lt_of_length_le (by omega)⟩

omit [DecidableEq E] in
/-- What an accepted row says: the opened part is sealed, and the points are those of a sharing of
`Q`. -/
theorem ecPveAcVerifyRow_ok (hac : SharableTree q pid ac)
    (hkeys : acPks.keys = leafSet ac) {row : PveAcRow E}
    (h : ecPveAcVerifyRow O pke pid ac acPks L curve π Q i = .ok row) :
    ∃ (xs : List (ZMod q)) (τ : PName → ZMod q),
    (π.b.getLsbD i = false → (π.rows i).r.length = 2 * pveAcSeedSize) ∧
    StandsFor O.toDrbgOracles q curve.size Q.length (π.b.getLsbD i)
      ((π.rows i).opened (π.b.getLsbD i)) xs ∧
    Sealed O pke pid ac acPks L ((π.rows i).opened (π.b.getLsbD i)) (row.c (π.b.getLsbD i))
      (row.quorumC (π.b.getLsbD i)) τ ∧
    row.c (!π.b.getLsbD i) = (π.rows i).c ∧ row.quorumC (!π.b.getLsbD i) = (π.rows i).quorumC ∧
      (if π.b.getLsbD i then row.X1 else row.X0) = pointsOf curve.toCurve xs ∧
      List.zipWith (· + ·) row.X0 row.X1 = Q := by
  rw [ecPveAcVerifyRow] at h
  cases hb : π.b.getLsbD i with
  | false =>
    rw [hb, if_neg Bool.false_ne_true, require_bind_ok_iff] at h
    obtain ⟨hlen, h⟩ := h
    obtain ⟨⟨xb, c0, quorumC0⟩, hrow, h⟩ := bind_ok_iff.mp h
    obtain ⟨hseed, hrow⟩ := require_bind_ok_iff.mp hrow
    obtain ⟨d, hd, hrow⟩ := bind_ok_iff.mp hrow
    rw [genBnBatch_eq, ok_bind] at hrow
    obtain ⟨p, hseal, hrow⟩ := bind_ok_iff.mp hrow
    obtain ⟨rfl, rfl⟩ := Prod.mk.inj (Except.ok.inj hrow)
    obtain ⟨-, τ, hsealed⟩ := ecPveAcEncryptRow_ok hac hkeys hseal
    simp only [mapM_mulToGenerator, ok_bind] at h
    obtain rfl := Except.ok.inj h
    have hQlen : Q.length = (pointsOf curve.toCurve (drawnScalars q Q.length d)).length := by
      rw [pointsOf, List.length_map, drawnScalars, Stream'.length_take]
    exact ⟨drawnScalars q Q.length d, τ, fun _ => of_decide_eq_true hlen,
      ⟨of_decide_eq_true hseed, d, hd, rfl⟩, hsealed, rfl, rfl, rfl,
      zipWith_add_sub hQlen⟩
  | true =>
    rw [hb, if_pos rfl] at h
    obtain ⟨xb, hxb, h⟩ := bind_ok_iff.mp h
    obtain ⟨size, hsize, hxb⟩ := bind_ok_iff.mp hxb
    obtain ⟨hbin, hxb⟩ := require_bind_ok_iff.mp hxb
    obtain rfl := Except.ok.inj hxb
    obtain ⟨p, hseal, h⟩ := bind_ok_iff.mp h
    obtain ⟨-, τ, hsealed⟩ := ecPveAcEncryptRow_ok hac hkeys hseal
    simp only [mapM_mulToGenerator_ints curve.toCurve (batchInts_bounds curve.size_le),
      ok_bind] at h
    obtain rfl := Except.ok.inj h
    rw [batchBytes] at hsize
    split at hsize
    · rename_i hlt
      obtain rfl := Except.ok.inj hsize
      have hQlen :
          Q.length =
            (pointsOf curve.toCurve (residuesOf q
            (batchInts curve.size Q.length (π.rows i).xBin))).length := by
        rw [pointsOf, List.length_map, residuesOf, List.length_map, batchInts, List.length_map,
          length_chunks]
      exact ⟨residuesOf q (batchInts curve.size Q.length (π.rows i).xBin), τ, fun hfalse =>
        Bool.noConfusion hfalse, ⟨of_decide_eq_true hbin, hlt, rfl⟩, hsealed, rfl, rfl, rfl,
        (zipWith_add_comm _ _).trans (zipWith_add_sub hQlen)⟩
    · cases hsize

theorem modAdd_of_not_isInRange (a : ZMod q) {v : ℤ} (hv : isInRange q v = false) :
    modAdd false q (residue a) v = throwing .assertionFailed := by
  simp [modAdd, modOp, check, hv, cbAssert, throwing]

/-- What the addition of the second parts yields: it asserts that they are reduced. -/
def reducedSums (ints : List ℤ) (xs : List (ZMod q)) : Outcome (List ℤ) :=
  if ints.all (isInRange q) then .ok (xs.map residue) else throwing .assertionFailed

/-- Two parts of the right points are added, if the integers of the second one are reduced. -/
theorem addEach_ints (curve : Curve q E) {ys : List (ZMod q)} {ints : List ℤ}
    (h : ys.length = ints.length) :
    addEach curve (pointsOf curve (List.zipWith (· + ·) ys (residuesOf q ints)))
      ((ys.map residue).zip ints) =
      reducedSums ints (List.zipWith (· + ·) ys (residuesOf q ints)) := by
  induction ys generalizing ints with
  | nil =>
    obtain rfl := List.length_eq_zero_iff.mp h.symm
    rfl
  | cons y ys ih =>
    obtain ⟨v, ints, rfl⟩ := List.exists_cons_of_length_eq_add_one h.symm
    have hrest := ih (by simpa using h)
    rw [pointsOf, residuesOf] at hrest
    rw [reducedSums, List.all_cons]
    cases hv : isInRange q v with
    | false =>
      simp only [pointsOf, residuesOf, List.map_cons, List.zip_cons_cons,
        List.zipWith_cons_cons, addEach, modAdd_of_not_isInRange y hv, Bool.false_and,
        Bool.false_eq_true, if_false]
      rfl
    | true =>
      have hsum : modAdd false q (residue y) v = .ok (residue (y + (v : ZMod q))) := by
        rw [eq_residue_of_isInRange hv, modAdd_residue, cast_residue]
      simp only [pointsOf, residuesOf, List.map_cons, List.zip_cons_cons, List.zipWith_cons_cons,
        addEach, hsum, ok_bind, mulToGenerator_residue, decide_true, require_true, hrest,
        reducedSums, Bool.true_and]
      split
      · rfl
      · rfl

/-- The opened scalars and the unsealed ones are added, and the sums are compared with the
points. -/
theorem restoreUnsealed_eq {O : DrbgOracles} {xs ys : List (ZMod q)} {plain : List (Fin 256)}
    (hr : π.b.getLsbD i = false → (π.rows i).r.length = 2 * pveAcSeedSize)
    (hx : StandsFor O q curve.size π.Q.length (π.b.getLsbD i)
      ((π.rows i).opened (π.b.getLsbD i)) xs)
    (hy : StandsFor O q curve.size π.Q.length (!π.b.getLsbD i) plain ys)
    (hQ : π.Q = pointsOf curve.toCurve (List.zipWith (· + ·) xs ys)) :
    restoreUnsealed O curve π i plain =
      reducedSums (batchInts curve.size π.Q.length (if π.b.getLsbD i then (π.rows i).xBin else
        plain)) (List.zipWith (· + ·) xs ys) := by
  have hints : ∀ bin, (batchInts curve.size π.Q.length bin).length = π.Q.length := fun bin => by
    rw [batchInts, List.length_map, length_chunks]
  have hdrawn : ∀ d, (drawnScalars q π.Q.length d).length = π.Q.length :=
    fun d => Stream'.length_take _ _
  rw [restoreUnsealed, ecPveAcParts]
  cases hb : π.b.getLsbD i with
  | false =>
    rw [hb] at hx hy
    obtain ⟨hseed, d, hd, rfl⟩ := hx
    obtain ⟨hplain, hlt, rfl⟩ := hy
    have hbytes : batchBytes π.Q.length curve.size = .ok (π.Q.length * curve.size) := if_pos hlt
    rw [PveRow.opened, if_neg Bool.false_ne_true] at hseed hd
    simp only [Bool.false_eq_true, if_false, decide_eq_true (hr hb), require_true, ok_bind, hbytes,
      decide_eq_true hplain, decide_eq_true hseed, hd, genBnBatch_eq]
    have hadd := addEach_ints curve.toCurve ((hdrawn d).trans (hints plain).symm)
    rw [← hQ] at hadd
    exact hadd
  | true =>
    rw [hb] at hx hy
    obtain ⟨hbin, hlt, rfl⟩ := hx
    obtain ⟨hseed, d, hd, rfl⟩ := hy
    rw [PveRow.opened, if_pos rfl] at hbin hQ ⊢
    have hbytes : batchBytes π.Q.length curve.size = .ok (π.Q.length * curve.size) := if_pos hlt
    simp only [if_true, ok_bind, hbytes, decide_eq_true hbin, require_true, decide_eq_true hseed,
      hd, genBnBatch_eq]
    have hadd := addEach_ints curve.toCurve ((hdrawn d).trans (hints (π.rows i).xBin).symm)
    rw [zipWith_add_comm, ← hQ] at hadd
    exact hadd

end Rows

end CbMpc
