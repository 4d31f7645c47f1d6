import CbMpc.Bytes
import CbMpc.ModArith

/-!
# Fischlin's proofs

Every row of a proof answers the challenges one after the other until the hash of an answer has
enough zero bits. A row that runs out of challenges starts the proof again with fresh randomness.
-/
namespace CbMpc

/-- `fischlin_params_t`. -/
structure FischlinParams where
  rho : ℤ
  b : ℤ
  t : ℤ

namespace FischlinParams

def eMax (params : FischlinParams) : Outcome ℕ := do
  cbAssert (decide (params.t < 31))
  .ok (2 ^ params.t.toNat)

/-- The bits of a hash that are to be zero. -/
def mask (params : FischlinParams) : BitVec 32 := 1#32 <<< params.b.toNat - 1#32

def bMask (params : FischlinParams) : Outcome (BitVec 32) := do
  cbAssert (decide (params.b < 31))
  .ok params.mask

def check (params : FischlinParams) : Outcome Unit := do
  require (decide (0 < params.rho)) .crypto
  require (decide (0 < params.b)) .crypto
  require (decide (params.b < 31)) .crypto
  require (decide (secPCom ≤ params.b * params.rho)) .crypto

def checkWithEffectiveB (params : FischlinParams) (effectiveB : ℤ) : Outcome Unit := do
  require (decide (0 < params.rho)) .crypto
  require (decide (0 < params.b)) .crypto
  require (decide (params.b < 31)) .crypto
  require (decide (0 < effectiveB)) .crypto
  require (decide (secPCom ≤ params.rho * effectiveB)) .crypto

end FischlinParams

/-- `be_set_4`. -/
def beSet4 (x : ℤ) : List (Fin 256) := binPad 4 (x % 2 ^ 32).toNat

/-- What `sha256_update_zs` adds for one answer: its length and its bytes. -/
def zBytes (z : ℤ) : List (Fin 256) := beSet4 (getBinSize z) ++ binPad (getBinSize z) z.natAbs

/-- What `hash32bit_for_zk_fischlin` hashes. -/
def fischlinBytes (commonHash : List (Fin 256)) (i e : ℤ) (zs : List ℤ) : List (Fin 256) :=
  commonHash ++ beSet4 i ++ beSet4 e ++ zs.flatMap zBytes

/-- `hash32bit_for_zk_fischlin`, where `sha` is the start of the digest. -/
def hash32bitForZkFischlin (sha : List (Fin 256) → BitVec 32) (commonHash : List (Fin 256))
    (i e : ℤ) (zs : List ℤ) :
    Outcome (BitVec 32) := do
  forEach (fun z => cbAssert (decide (getBinSize z ≤ 256))) zs
  .ok (sha (fischlinBytes commonHash i e zs))

theorem hash32bitForZkFischlin_eq (sha : List (Fin 256) → BitVec 32)
    (commonHash : List (Fin 256)) (i e : ℤ) {zs : List ℤ} (h : ∀ z ∈ zs, getBinSize z ≤ 256) :
    hash32bitForZkFischlin sha commonHash i e zs = .ok (sha (fischlinBytes commonHash i e zs)) := by
  have hassert : ∀ z ∈ zs, cbAssert (decide (getBinSize z ≤ 256)) = .ok () := fun z hz => by
    rw [decide_eq_true (h z hz), cbAssert_true]
  rw [hash32bitForZkFischlin, forEach_ok_iff.mpr hassert, ok_bind]

/-- The functions that `fischlin_prove` calls, on the state `σ` that they share. `Ω` is what a
restart samples. -/
structure FischlinCalls (σ Ω : Type) where
  restart : Ω → σ → Outcome σ
  responseBegin : ℕ → σ → Outcome σ
  hash : ℕ → ℕ → σ → Outcome (σ × BitVec 32)
  save : ℕ → ℕ → σ → Outcome σ
  responseNext : ℕ → σ → Outcome σ

section Loops

variable {σ Ω : Type} (calls : FischlinCalls σ Ω) (eMax : ℕ) (bMask : BitVec 32)

/-- The response for the next challenge, unless this was the last one. -/
def nextTry (eTag : ℕ) (st : σ) : Outcome σ :=
  if eTag + 1 < eMax then calls.responseNext (eTag + 1) st else .ok st

/-- The loop over the challenges of the row `i`. It tells whether it has saved one. -/
def tryRow (i : ℕ) : ℕ → ℕ → σ → Outcome (σ × Bool)
  | 0, _, st => .ok (st, false)
  | left + 1, eTag, st => do
    let h ← calls.hash i eTag st
    if h.2 &&& bMask ≠ 0 then do
      let st ← nextTry calls eMax eTag h.1
      tryRow i left (eTag + 1) st
    else do
      let st ← calls.save i eTag h.1
      .ok (st, true)

/-- The loop over the rows from `i` on. It ends with the number of rows that are saved. -/
def proveRows : ℕ → ℕ → σ → Outcome (σ × ℕ)
  | 0, i, st => .ok (st, i)
  | left + 1, i, st => do
    let st ← calls.responseBegin i st
    let row ← tryRow calls eMax bMask i eMax 0 st
    if row.2 then proveRows left (i + 1) row.1 else .ok (row.1, i)

/-- The outer loop, on the samples of its turns so far. -/
def restarts (rho : ℕ) : List Ω → σ × ℕ → Outcome (σ × ℕ)
  | [], run => .ok run
  | ω :: ωs, run => do
    let st ← calls.restart ω run.1
    let run ← proveRows calls eMax bMask rho 0 st
    if run.2 = rho then .ok run else restarts rho ωs run

end Loops

/-- `fischlin_prove`, which returns when all rows are saved. The result is its state after the turns
whose samples are given, with the number of rows that the last turn has saved. -/
def fischlinProve {σ Ω : Type} (params : FischlinParams) (calls : FischlinCalls σ Ω) (ωs : List Ω)
    (st : σ) : Outcome (σ × ℕ) := do
  let eMax ← params.eMax
  let bMask ← params.bMask
  restarts calls eMax bMask params.rho.toNat ωs (st, 0)

section Zero

variable {σ Ω : Type} {calls : FischlinCalls σ Ω} {eMax : ℕ} {bMask : BitVec 32}

theorem proveRows_zero (hzero : ∀ i e st out, calls.hash i e st = .ok out → out.2 &&& bMask = 0)
    (heMax : 0 < eMax) (left i : ℕ) (st : σ) {run : σ × ℕ}
    (h : proveRows calls eMax bMask left i st = .ok run) : run.2 = i + left := by
  induction left generalizing i st with
  | zero =>
    cases h
    rfl
  | succ left ih =>
    obtain ⟨st', -, h⟩ := bind_ok_iff.mp h
    obtain ⟨row, hrow, h⟩ := bind_ok_iff.mp h
    obtain ⟨n, rfl⟩ : ∃ n, eMax = n + 1 := ⟨eMax - 1, by omega⟩
    obtain ⟨out, hout, hrow⟩ := bind_ok_iff.mp hrow
    rw [if_neg (not_not.mpr (hzero _ _ _ _ hout))] at hrow
    obtain ⟨st'', -, hrow⟩ := bind_ok_iff.mp hrow
    cases hrow
    rw [ih (i + 1) st'' h, add_assoc, add_comm 1]

/-- Where every hash has its bits zero, the first turn saves all rows. -/
theorem fischlinProve_zero {params : FischlinParams} (hb : params.bMask = .ok bMask)
    (hzero : ∀ i e st out, calls.hash i e st = .ok out → out.2 &&& bMask = 0) {ωs : List Ω}
    (hne : ωs ≠ []) {st : σ} {run : σ × ℕ} (h : fischlinProve params calls ωs st = .ok run) :
    run.2 = params.rho.toNat := by
  obtain ⟨eMax, heMax, h⟩ := bind_ok_iff.mp h
  obtain ⟨bMask', hb', h⟩ := bind_ok_iff.mp h
  obtain rfl : bMask = bMask' := Except.ok.inj (hb.symm.trans hb')
  obtain ⟨-, -, heMax⟩ := bind_ok_iff.mp heMax
  cases heMax
  obtain ⟨ω, ωs, rfl⟩ := List.exists_cons_of_ne_nil hne
  obtain ⟨st', -, h⟩ := bind_ok_iff.mp h
  obtain ⟨run', hrun, h⟩ := bind_ok_iff.mp h
  have hall : run'.2 = params.rho.toNat := by
    rw [proveRows_zero hzero (Nat.two_pow_pos _) _ _ _ hrun, zero_add]
  rw [if_pos hall] at h
  cases h
  exact hall

end Zero

/-- A function ends as `Q` says, or fails where failures are let pass. -/
def Ends {α : Type} (F : Prop) (x : Outcome α) (Q : α → Prop) : Prop :=
  match x with
  | .ok a => Q a
  | .error _ => F

section Ends

variable {α β : Type} {F : Prop}

theorem Ends.bind {x : Outcome α} {f : α → Outcome β} {P : α → Prop}
    {Q : β → Prop} (hx : Ends F x P) (hf : ∀ a, P a → Ends F (f a) Q) : Ends F (x >>= f) Q := by
  cases x with
  | ok a => exact hf a hx
  | error e => exact hx

theorem Ends.imp {x : Outcome α} {P Q : α → Prop} (hx : Ends F x P)
    (h : ∀ a, P a → Q a) : Ends F x Q := by
  cases x with
  | ok a => exact h a hx
  | error e => exact hx

/-- What a successful run returns, and that there is one where failures are not let pass. -/
theorem ends_of_ok {x : Outcome α} {Q : α → Prop} (h : ∀ a, x = .ok a → Q a)
    (hF : ¬F → ∃ a, x = .ok a) : Ends F x Q := by
  cases x with
  | ok a => exact h a rfl
  | error e =>
    by_contra hf
    obtain ⟨a, ha⟩ := hF hf
    exact absurd ha nofun

theorem Ends.ok {x : Outcome α} {Q : α → Prop} (h : Ends F x Q) {a : α} (hx : x = .ok a) : Q a := by
  subst hx
  exact h

theorem ends_false_iff {x : Outcome α} {Q : α → Prop} : Ends False x Q ↔ ∃ a, x = .ok a ∧ Q a := by
  cases x with
  | ok a => simp [Ends]
  | error e => simp [Ends]

end Ends

/-- What the called functions keep up: `Idle` between restarts, `Rows ω i` with `i` rows saved under
the samples `ω`, and `Try ω i e` with the response of row `i` to the challenge `e` at hand. -/
structure FischlinSpec {σ Ω : Type} (calls : FischlinCalls σ Ω) (F : Prop) (eMax : ℕ)
    (bMask : BitVec 32) (rho : ℕ) (Idle : σ → Prop) (Rows : Ω → ℕ → σ → Prop)
    (Try : Ω → ℕ → ℕ → σ → Prop) : Prop where
  restart : ∀ ω st, Idle st → Ends F (calls.restart ω st) (Rows ω 0)
  responseBegin : ∀ ω i st, i < rho → Rows ω i st → Ends F (calls.responseBegin i st) (Try ω i 0)
  hash : ∀ ω i e st, i < rho → e < eMax → Try ω i e st → Ends F (calls.hash i e st) fun h =>
    Try ω i e h.1 ∧ (h.2 &&& bMask = 0 → Ends F (calls.save i e h.1) (Rows ω (i + 1)))
  responseNext : ∀ ω i e st, i < rho → e + 1 < eMax → Try ω i e st →
    Ends F (calls.responseNext (e + 1) st) (Try ω i (e + 1))
  stop : ∀ ω i e st, Try ω i e st → Rows ω i st
  idle : ∀ ω i st, Rows ω i st → Idle st

namespace FischlinSpec

variable {σ Ω : Type} {calls : FischlinCalls σ Ω} {F : Prop} {eMax : ℕ} {bMask : BitVec 32}
  {rho : ℕ} {Idle : σ → Prop} {Rows : Ω → ℕ → σ → Prop} {Try : Ω → ℕ → ℕ → σ → Prop}

theorem tryRow (h : FischlinSpec calls F eMax bMask rho Idle Rows Try) {ω : Ω} {i : ℕ}
    (hi : i < rho) (left e : ℕ) (he : e + left = eMax) (hleft : 0 < left)
    (st : σ) (hst : Try ω i e st) :
    Ends F (CbMpc.tryRow calls eMax bMask i left e st) fun row => if row.2 then
      Rows ω (i + 1) row.1 else Rows ω i row.1 := by
  induction left generalizing e st with
  | zero => omega
  | succ left ih =>
    rw [CbMpc.tryRow]
    refine (h.hash ω i e st hi (by omega) hst).bind fun row hrow => ?_
    by_cases hmask : row.2 &&& bMask = 0
    · rw [if_neg (not_not.mpr hmask)]
      exact (hrow.2 hmask).bind fun st' hst' => hst'
    · rw [if_pos hmask, nextTry]
      by_cases hlast : e + 1 < eMax
      · rw [if_pos hlast]
        exact (h.responseNext ω i e row.1 hi hlast hrow.1).bind fun st' hst' =>
          ih (e + 1) (by omega) (by omega) st' hst'
      · obtain rfl : left = 0 := by omega
        rw [if_neg hlast, ok_bind]
        exact h.stop ω i e row.1 hrow.1

theorem proveRows (h : FischlinSpec calls F eMax bMask rho Idle Rows Try)
    (heMax : 0 < eMax) {ω : Ω} (left i : ℕ) (hi : i + left = rho) (st : σ) (hst : Rows ω i st) :
    Ends F (CbMpc.proveRows calls eMax bMask left i st) fun run =>
      Rows ω run.2 run.1 ∧ run.2 ≤ rho := by
  induction left generalizing i st with
  | zero => exact ⟨hst, by change i ≤ rho; omega⟩
  | succ left ih =>
    rw [CbMpc.proveRows]
    refine (h.responseBegin ω i st (by omega) hst).bind fun st' hst' => ?_
    refine (h.tryRow (by omega) eMax 0 (by omega) heMax st' hst').bind fun row hrow => ?_
    by_cases hfound : row.2 = true
    · rw [if_pos hfound] at hrow ⊢
      exact ih (i + 1) (by omega) row.1 hrow
    · rw [if_neg hfound] at hrow ⊢
      exact ⟨hrow, by change i ≤ rho; omega⟩

theorem restarts (h : FischlinSpec calls F eMax bMask rho Idle Rows Try) (heMax : 0 < eMax)
    (ωs : List Ω) (run : σ × ℕ) (hrun : Idle run.1) :
    Ends F (CbMpc.restarts calls eMax bMask rho ωs run) fun out =>
      Idle out.1 ∧ ((ωs = [] ∧ out = run) ∨ ∃ ω ∈ ωs, Rows ω out.2 out.1 ∧ out.2 ≤ rho) := by
  induction ωs generalizing run with
  | nil => exact ⟨hrun, .inl ⟨rfl, rfl⟩⟩
  | cons ω ωs ih =>
    rw [CbMpc.restarts]
    refine (h.restart ω run.1 hrun).bind fun st hst => ?_
    refine (h.proveRows heMax rho 0 (by omega) st hst).bind fun run' hrun' => ?_
    have hidle := h.idle ω _ _ hrun'.1
    by_cases hall : run'.2 = rho
    · rw [if_pos hall]
      exact ⟨hidle, .inr ⟨ω, List.mem_cons_self, hrun'⟩⟩
    · rw [if_neg hall]
      apply (ih run' hidle).imp
      rintro out ⟨hout, ⟨-, rfl⟩ | ⟨ω', hω', hrows⟩⟩
      · exact ⟨hout, .inr ⟨ω, List.mem_cons_self, hrun'⟩⟩
      · exact ⟨hout, .inr ⟨ω', List.mem_cons_of_mem ω hω', hrows⟩⟩

/-- The rule for `fischlin_prove`: from what single calls keep up to every run of any number of
tries, rows and restarts. -/
theorem fischlinProve {params : FischlinParams}
    (h : FischlinSpec calls F (2 ^ params.t.toNat) bMask params.rho.toNat Idle Rows Try)
    (ht : params.t < 31) (hb : params.bMask = .ok bMask) (ωs : List Ω) (st : σ) (hst : Idle st) :
    Ends F (CbMpc.fischlinProve params calls ωs st) fun out =>
      Idle out.1 ∧ ((ωs = [] ∧ out = (st, 0)) ∨ ∃ ω ∈ ωs, Rows ω out.2 out.1 ∧
          out.2 ≤ params.rho.toNat) := by
  rw [CbMpc.fischlinProve, FischlinParams.eMax, decide_eq_true ht, cbAssert_true, ok_bind, ok_bind,
    hb, ok_bind]
  exact h.restarts (Nat.two_pow_pos _) ωs (st, 0) hst

end FischlinSpec

end CbMpc
