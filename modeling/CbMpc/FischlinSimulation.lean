import CbMpc.Fischlin

/-!
# Two provers in step

Two provers that hash the same stop, start again and return together. One of them may compute its
responses in the plainest way, and then says what the other one computes.
-/
namespace CbMpc

/-- Both functions return, and their results are related. -/
def Both {α β : Type} (x : Outcome α) (y : Outcome β) (S : α → β → Prop) : Prop :=
  ∃ a b, x = .ok a ∧ y = .ok b ∧ S a b

theorem Both.ok {α β : Type} {S : α → β → Prop} {a : α} {b : β} (h : S a b) :
    Both (.ok a) (.ok b) S := ⟨a, b, rfl, rfl, h⟩

theorem Both.bind {α β γ δ : Type} {x : Outcome α} {y : Outcome β} {S : α → β → Prop}
    {f : α → Outcome γ} {g : β → Outcome δ} {U : γ → δ → Prop} (h : Both x y S)
    (hfg : ∀ a b, S a b → Both (f a) (g b) U) : Both (x >>= f) (y >>= g) U := by
  obtain ⟨a, b, rfl, rfl, hab⟩ := h
  exact hfg a b hab

variable {σ τ Ω : Type} {calls : FischlinCalls σ Ω} {calls' : FischlinCalls τ Ω}
  {eMax rho : ℕ} {bMask : BitVec 32} {Idle : σ → τ → Prop} {Try : ℕ → ℕ → σ → τ → Prop}

/-- `Idle` relates the states between rows, and `Try i e` those with the response of row `i` to the
challenge `e` at hand. -/
structure FischlinSimulation (calls : FischlinCalls σ Ω) (calls' : FischlinCalls τ Ω)
    (eMax rho : ℕ) (Idle : σ → τ → Prop) (Try : ℕ → ℕ → σ → τ → Prop) : Prop where
  restart : ∀ ω a b, Idle a b → Both (calls.restart ω a) (calls'.restart ω b) Idle
  responseBegin : ∀ i a b, i < rho → Idle a b →
    Both (calls.responseBegin i a) (calls'.responseBegin i b) (Try i 0)
  hash : ∀ i e a b, i < rho → e < eMax → Try i e a b →
    Both (calls.hash i e a) (calls'.hash i e b) fun x y => x.2 = y.2 ∧ Try i e x.1 y.1
  save : ∀ i e a b, i < rho → e < eMax → Try i e a b →
    Both (calls.save i e a) (calls'.save i e b) Idle
  responseNext : ∀ i e a b, i < rho → e + 1 < eMax → Try i e a b →
    Both (calls.responseNext (e + 1) a) (calls'.responseNext (e + 1) b) (Try i (e + 1))
  stop : ∀ i e a b, Try i e a b → Idle a b

namespace FischlinSimulation

theorem nextTry (h : FischlinSimulation calls calls' eMax rho Idle Try) {i e : ℕ} (hi : i < rho)
    (hlast : e + 1 < eMax) {a : σ} {b : τ} (hab : Try i e a b) :
    Both (CbMpc.nextTry calls eMax e a) (CbMpc.nextTry calls' eMax e b) (Try i (e + 1)) := by
  rw [CbMpc.nextTry, CbMpc.nextTry, if_pos hlast, if_pos hlast]
  exact h.responseNext i e a b hi hlast hab

theorem tryRow (h : FischlinSimulation calls calls' eMax rho Idle Try) {i : ℕ} (hi : i < rho)
    (left e : ℕ) (he : e + left = eMax) (hleft : 0 < left) (a : σ) (b : τ) (hab : Try i e a b) :
    Both (CbMpc.tryRow calls eMax bMask i left e a)
      (CbMpc.tryRow calls' eMax bMask i left e b) fun x y =>
      x.2 = y.2 ∧ Idle x.1 y.1 := by
  induction left generalizing e a b with
  | zero => omega
  | succ left ih =>
    rw [CbMpc.tryRow, CbMpc.tryRow]
    apply (h.hash i e a b hi (by omega) hab).bind
    rintro ⟨a', hash⟩ ⟨b', hash'⟩ ⟨heq, hab'⟩
    obtain rfl : hash = hash' := heq
    by_cases hmask : hash &&& bMask = 0
    · rw [if_neg (not_not.mpr hmask), if_neg (not_not.mpr hmask)]
      apply (h.save i e a' b' hi (by omega) hab').bind
      intro a'' b'' hidle
      exact Both.ok ⟨rfl, hidle⟩
    · rw [if_pos hmask, if_pos hmask]
      by_cases hlast : e + 1 < eMax
      · apply (h.nextTry hi hlast hab').bind
        intro a'' b'' htry
        exact ih (e + 1) (by omega) (by omega) a'' b'' htry
      · obtain rfl : left = 0 := by omega
        rw [CbMpc.nextTry, CbMpc.nextTry, if_neg hlast, if_neg hlast]
        exact Both.ok ⟨rfl, h.stop i e a' b' hab'⟩

theorem proveRows (h : FischlinSimulation calls calls' eMax rho Idle Try) (heMax : 0 < eMax)
    (left i : ℕ) (hi : i + left = rho) (a : σ) (b : τ) (hab : Idle a b) :
    Both (CbMpc.proveRows calls eMax bMask left i a)
      (CbMpc.proveRows calls' eMax bMask left i b) fun x y =>
      x.2 = y.2 ∧ Idle x.1 y.1 := by
  induction left generalizing i a b with
  | zero => exact Both.ok ⟨rfl, hab⟩
  | succ left ih =>
    rw [CbMpc.proveRows, CbMpc.proveRows]
    apply (h.responseBegin i a b (by omega) hab).bind
    intro a' b' htry
    apply (h.tryRow (by omega) eMax 0 (by omega) heMax a' b' htry).bind
    rintro ⟨a'', found⟩ ⟨b'', found'⟩ ⟨heq, hidle⟩
    obtain rfl : found = found' := heq
    cases found with
    | true => exact ih (i + 1) (by omega) a'' b'' hidle
    | false => exact Both.ok ⟨rfl, hidle⟩

theorem restarts (h : FischlinSimulation calls calls' eMax rho Idle Try) (heMax : 0 < eMax)
    (ωs : List Ω) (x : σ × ℕ) (y : τ × ℕ) (hxy : x.2 = y.2 ∧ Idle x.1 y.1) :
    Both (CbMpc.restarts calls eMax bMask rho ωs x)
      (CbMpc.restarts calls' eMax bMask rho ωs y) fun x y =>
      x.2 = y.2 ∧ Idle x.1 y.1 := by
  induction ωs generalizing x y with
  | nil => exact Both.ok hxy
  | cons ω ωs ih =>
    rw [CbMpc.restarts, CbMpc.restarts]
    apply (h.restart ω x.1 y.1 hxy.2).bind
    intro a b hab
    apply (h.proveRows heMax rho 0 (by omega) a b hab).bind
    intro x' y' hxy'
    by_cases hall : x'.2 = rho
    · rw [if_pos hall, if_pos (hxy'.1 ▸ hall)]
      exact Both.ok hxy'
    · rw [if_neg hall, if_neg (hxy'.1 ▸ hall)]
      exact ih x' y' hxy'

/-- The rule for two runs of `fischlin_prove` on the same samples. -/
theorem fischlinProve {params : FischlinParams}
    (h : FischlinSimulation calls calls' (2 ^ params.t.toNat) params.rho.toNat Idle Try)
    (ht : params.t < 31) (hb : params.b < 31) (ωs : List Ω) (a : σ) (b : τ) (hab : Idle a b) :
    Both (CbMpc.fischlinProve params calls ωs a) (CbMpc.fischlinProve params calls' ωs b) fun x y =>
      x.2 = y.2 ∧ Idle x.1 y.1 := by
  rw [CbMpc.fischlinProve, CbMpc.fischlinProve, FischlinParams.eMax, FischlinParams.bMask,
    decide_eq_true ht, decide_eq_true hb, cbAssert_true, ok_bind, ok_bind, ok_bind, ok_bind,
    ok_bind, ok_bind]
  exact h.restarts (Nat.two_pow_pos _) ωs (a, 0) (b, 0) ⟨rfl, hab⟩

end FischlinSimulation

end CbMpc
