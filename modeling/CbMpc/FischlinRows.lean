import CbMpc.ElGamal
import CbMpc.Fischlin
import CbMpc.LinearProof

/-!
# Rows whose responses are updated from one challenge to the next

The provers behind `uc_dl_t`, `uc_elgamal_com_t` and `uc_elgamal_com_mult_private_scalar_t` differ
in their first message and in the number of their secrets. They start a row with the response to the
challenge zero, and add the secrets modulo the order for every further challenge.
-/
namespace CbMpc

/-- `bn_mod_add_fixed_top`, on operands that are reduced. -/
def bnModAddFixedTop (q : ℕ) (a b : ℤ) : ℤ := if a + b < q then a + b else a + b - q

/-- What the functions that are passed to `fischlin_prove` share, and what has been hashed for the
rows. -/
structure RowsState (m : ℕ) (C : Type) where
  r : ℕ → Fin m → ℤ
  commitments : List C
  commonHash : List (Fin 256)
  zTag : Fin m → ℤ
  e : ℕ → ℤ
  z : ℕ → Fin m → ℤ
  queries : List (List (Fin 256))

/-- The variables at the start of `prove`. -/
def RowsState.start (m : ℕ) (C : Type) : RowsState m C :=
  ⟨fun _ _ => 0, [], [], fun _ => 0, fun _ => 0, fun _ _ => 0, []⟩

/-- What one restart samples for a row: the randomness of its commitment, and what computing it
takes besides. -/
abbrev RowSamples (q m : ℕ) (B : Type) := (Fin m → ZMod q) × B

variable {q : ℕ} [hq : Fact q.Prime] {m : ℕ} {B C : Type}

/-- The functions that the provers pass to `fischlin_prove`. -/
def rowsCalls (sha : List (Fin 256) → BitVec 32) (rho : ℕ) (commit : (Fin m → ℤ) → B → Outcome C)
    (common : List C → List (Fin 256)) (w : Fin m → ℤ) :
    FischlinCalls (RowsState m C) (ℕ → RowSamples q m B) where
  restart ω st := do
    let r := fun i j => residue ((ω i).1 j)
    let commitments ← (List.range rho).mapM fun i => commit (r i) (ω i).2
    .ok { st with r, commitments, commonHash := common commitments }
  responseBegin i st := .ok { st with zTag := st.r i }
  hash i e st := do
    let zs := List.ofFn st.zTag
    let h ← hash32bitForZkFischlin sha st.commonHash i e zs
    .ok ({ st with queries := fischlinBytes st.commonHash i e zs :: st.queries }, h)
  save i e st := .ok { st with e := Function.update st.e i e, z := Function.update st.z i st.zTag }
  responseNext _ st := .ok { st with zTag := fun j => bnModAddFixedTop q (st.zTag j) (w j) }

theorem bnModAddFixedTop_residue (a b : ZMod q) :
    bnModAddFixedTop q (residue a) (residue b) = residue (a + b) := by
  have ha := (isInRange_iff _).mp (isInRange_residue a)
  have hb := (isInRange_iff _).mp (isInRange_residue b)
  have hsum : (residue a + residue b) % q = residue (a + b) := by
    rw [emod_eq_residue, Int.cast_add, cast_residue, cast_residue]
  rw [← hsum, bnModAddFixedTop]
  split
  · rw [Int.emod_eq_of_lt (by omega) (by assumption)]
  · rw [← Int.sub_emod_right, Int.emod_eq_of_lt (by omega) (by omega)]

theorem getBinSize_residue_le (hsize : q.size ≤ 2048) (z : ZMod q) :
    getBinSize (residue z) ≤ 256 := by
  have hlt : z.val.size ≤ 2048 := (Nat.size_le_size z.val_lt.le).trans hsize
  rw [getBinSize, bitsToBytes, residue, Int.natAbs_natCast]
  omega

/-- A saved row: the response to its challenge, and its hash, which the prover has seen and
accepted. -/
structure SavedRow (sha : List (Fin 256) → BitVec 32) (bMask : BitVec 32)
    (commonHash : List (Fin 256)) (w r : Fin m → ZMod q) (queries : List (List (Fin 256))) (i : ℕ)
    (e : ℤ) (z : Fin m → ℤ) : Prop where
  response : ∀ j, z j = residue (r j + (e : ZMod q) * w j)
  queried : fischlinBytes commonHash i e (List.ofFn z) ∈ queries
  accepted : ∃ h, hash32bitForZkFischlin sha commonHash i e (List.ofFn z) = .ok h ∧ h &&& bMask = 0

theorem SavedRow.mono {sha : List (Fin 256) → BitVec 32} {bMask : BitVec 32}
    {commonHash : List (Fin 256)} {w r : Fin m → ZMod q} {queries queries' : List (List (Fin 256))}
    {i : ℕ} {e : ℤ} {z : Fin m → ℤ} (h : SavedRow sha bMask commonHash w r queries i e z)
    (hsub : queries ⊆ queries') :
    SavedRow sha bMask commonHash w r queries' i e z := ⟨h.response, hsub h.queried, h.accepted⟩

section Invariant

variable (sha : List (Fin 256) → BitVec 32) (bMask : BitVec 32) (rho : ℕ)
  (commit : (Fin m → ℤ) → B → Outcome C) (common : List C → List (Fin 256)) (w : Fin m → ZMod q)

/-- The state with `k` rows saved under the samples `ω`. -/
structure RowsSaved (ω : ℕ → RowSamples q m B) (k : ℕ) (st : RowsState m C) : Prop where
  r_eq : ∀ i, st.r i = fun j => residue ((ω i).1 j)
  commitments : (List.range rho).mapM (fun i => commit (fun j => residue ((ω i).1 j)) (ω i).2) =
    .ok st.commitments
  commonHash : st.commonHash = common st.commitments
  saved : ∀ i < k, SavedRow sha bMask st.commonHash w (ω i).1 st.queries i (st.e i) (st.z i)

/-- The state with the response of row `i` to the challenge `e` at hand. -/
structure RowsTry (ω : ℕ → RowSamples q m B) (i e : ℕ) (st : RowsState m C) : Prop extends
    RowsSaved sha bMask rho commit common w ω i st where
  response : ∀ j, st.zTag j = residue ((ω i).1 j + (e : ZMod q) * w j)

/-- The provers keep their response in step with the challenge, through any number of tries, rows
and restarts. They do not fail where the commitments are computed and the responses have at most 256
bytes. -/
theorem rowsCalls_spec {F : Prop} (hF : ¬F → q.size ≤ 2048 ∧
    ∀ (r : Fin m → ZMod q) b, ∃ c, commit (fun j => residue (r j)) b = .ok c) (eMax : ℕ) :
    FischlinSpec (rowsCalls (q := q) sha rho commit common (fun j => residue (w j))) F eMax
      bMask rho (fun _ => True)
      (RowsSaved sha bMask rho commit common w) (RowsTry sha bMask rho commit common w) where
  restart ω st _ := by
    apply ends_of_ok
    · intro st' h
      obtain ⟨commitments, hcom, h⟩ := bind_ok_iff.mp h
      cases h
      exact ⟨fun i => rfl, hcom, rfl, fun i hi => absurd hi (Nat.not_lt_zero i)⟩
    · intro hf
      obtain ⟨commitments, hcom⟩ := exists_mapM_ok_iff.mpr fun i (_ : i ∈ List.range rho) =>
        (hF hf).2 (ω i).1 (ω i).2
      exact ⟨_, bind_ok_iff.mpr ⟨commitments, hcom, rfl⟩⟩
  responseBegin ω i st _ hst := by
    refine ⟨⟨hst.r_eq, hst.commitments, hst.commonHash, hst.saved⟩, fun j => ?_⟩
    change st.r i j = _
    rw [hst.r_eq, Nat.cast_zero, zero_mul, add_zero]
  hash ω i e st _ _ hst := by
    apply ends_of_ok
    · rintro ⟨st', h⟩ hrun
      obtain ⟨h', hh, hrun⟩ := bind_ok_iff.mp hrun
      cases hrun
      have hmono := List.subset_cons_self
        (fischlinBytes st.commonHash i e (List.ofFn st.zTag)) st.queries
      refine ⟨⟨⟨hst.r_eq, hst.commitments, hst.commonHash, fun k hk => (hst.saved k hk).mono hmono⟩,
        hst.response⟩, fun hmask => ?_⟩
      refine ⟨hst.r_eq, hst.commitments, hst.commonHash, fun k hk => ?_⟩
      rcases Nat.lt_succ_iff_lt_or_eq.mp hk with hk | rfl
      · change SavedRow sha bMask st.commonHash w (ω k).1 _ k (Function.update st.e i e k)
          (Function.update st.z i st.zTag k)
        rw [Function.update_of_ne hk.ne, Function.update_of_ne hk.ne]
        exact (hst.saved k hk).mono hmono
      · change SavedRow sha bMask st.commonHash w (ω k).1 _ k (Function.update st.e k e k)
          (Function.update st.z k st.zTag k)
        rw [Function.update_self, Function.update_self]
        refine ⟨fun j => ?_, List.mem_cons_self, h, hh, hmask⟩
        rw [hst.response, Int.cast_natCast]
    · intro hf
      have hash_eq : hash32bitForZkFischlin sha st.commonHash i e (List.ofFn st.zTag) =
          .ok (sha (fischlinBytes st.commonHash i e (List.ofFn st.zTag))) := by
        apply hash32bitForZkFischlin_eq
        intro z hz
        obtain ⟨j, rfl⟩ := List.mem_ofFn.mp hz
        rw [hst.response]
        exact getBinSize_residue_le (hF hf).1 _
      exact ⟨_, bind_ok_iff.mpr ⟨_, hash_eq, rfl⟩⟩
  responseNext ω i e st _ _ hst := by
    refine ⟨⟨hst.r_eq, hst.commitments, hst.commonHash, hst.saved⟩, fun j => ?_⟩
    change bnModAddFixedTop q (st.zTag j) (residue (w j)) = _
    rw [hst.response, bnModAddFixedTop_residue]
    push_cast
    ring_nf
  stop ω i e st hst := hst.toRowsSaved
  idle ω i st hst := trivial

end Invariant

end CbMpc
