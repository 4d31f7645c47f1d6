import CbMpc.ModArith

/-!
# Trial division by small primes

`check_integer_with_small_primes` multiplies the primes of its table into 64-bit words, takes
one remainder for a word and divides that remainder by every prime of the batch.
-/
namespace CbMpc

/-- `small_primes`: the first 10000 primes. -/
def smallPrimes : List ℕ := (List.range 104730).filter Nat.Prime

/-- `std::numeric_limits<BN_ULONG>::max()`. -/
def limbMax : ℕ := 2 ^ 64 - 1

/-- `BN_mod_word`. -/
def bnModWord (a : ℤ) (w : ℕ) : ℕ := a.natAbs % w

/-- The inner loop: the factors that still fit into a word, their product, and the factors behind
them. -/
def takeBatch (alpha : ℕ) : ℕ → List ℕ → ℕ × List ℕ × List ℕ
  | product, [] => (product, [], [])
  | product, p :: ps =>
    if p ≤ alpha ∧ product ≤ limbMax / p then
      let batch := takeBatch alpha (product * p) ps
      (batch.1, p :: batch.2.1, batch.2.2)
    else (product, [], p :: ps)

/-- The outer loop, which starts no batch with a factor above the bound. -/
def checkBatches (prime : ℤ) (alpha : ℕ) : ℕ → List ℕ → Outcome Unit
  | 0, _ => .ok ()
  | _, [] => .ok ()
  | fuel + 1, p :: ps =>
    if p ≤ alpha then do
      let batch := takeBatch alpha 1 (p :: ps)
      let remainder := bnModWord prime batch.1
      cbAssert (decide (remainder ≠ limbMax))
      forEach (fun factor => require (decide (remainder % factor ≠ 0)) .crypto) batch.2.1
      checkBatches prime alpha fuel batch.2.2
    else .ok ()

/-- `check_integer_with_small_primes`. -/
def checkIntegerWithSmallPrimes (prime : ℤ) (alpha : ℕ) : Outcome Unit :=
  checkBatches prime alpha smallPrimes.length smallPrimes

/-- A batch is a prefix of the factors, its product fits into a word, and every factor is within the
bound. -/
theorem takeBatch_spec (alpha product : ℕ) (ps : List ℕ) (hpos : ∀ p ∈ ps, 0 < p)
    (hfit : product ≤ limbMax) :
    (takeBatch alpha product ps).2.1 ++ (takeBatch alpha product ps).2.2 = ps ∧
      (takeBatch alpha product ps).1 = product * (takeBatch alpha product ps).2.1.prod ∧
      (takeBatch alpha product ps).1 ≤ limbMax ∧
      ∀ p ∈ (takeBatch alpha product ps).2.1, p ≤ alpha := by
  induction ps generalizing product with
  | nil => exact ⟨rfl, by simp [takeBatch], hfit, by simp [takeBatch]⟩
  | cons p ps ih =>
    unfold takeBatch
    by_cases h : p ≤ alpha ∧ product ≤ limbMax / p
    · have hmul : product * p ≤ limbMax :=
        (Nat.le_div_iff_mul_le (hpos p List.mem_cons_self)).mp h.2
      obtain ⟨happ, hprod, hle, hall⟩ :=
        ih (product * p) (fun r hr => hpos r (List.mem_cons_of_mem p hr)) hmul
      rw [if_pos h]
      refine ⟨by simp only [List.cons_append, happ], ?_, hle, ?_⟩
      · simp only [List.prod_cons, hprod, Nat.mul_assoc]
      · intro r hr
        rcases List.mem_cons.mp hr with rfl | hr
        · exact h.1
        · exact hall r hr
    · rw [if_neg h]
      exact ⟨rfl, by simp, hfit, by simp⟩

/-- The first factor within the bound always fits. -/
theorem takeBatch_cons {alpha p : ℕ} (ps : List ℕ) (hpos : 0 < p)
    (hp : p ≤ limbMax) (hle : p ≤ alpha) :
    (takeBatch alpha 1 (p :: ps)).2.1 ≠ [] := by
  have hfit : 1 ≤ limbMax / p := (Nat.le_div_iff_mul_le hpos).mpr (by rwa [Nat.one_mul])
  rw [takeBatch, if_pos ⟨hle, hfit⟩]
  exact List.cons_ne_nil _ _

/-- The remainder of a batch tells which of its factors divide the number. -/
theorem remainder_mod_eq {prime : ℤ} {product factor : ℕ} (h : factor ∣ product) :
    bnModWord prime product % factor ≠ 0 ↔ ¬(factor : ℤ) ∣ prime := by
  rw [bnModWord, Nat.mod_mod_of_dvd _ h, ne_eq, ← Nat.dvd_iff_mod_eq_zero, Int.natCast_dvd]

/-- Trial division in batches is trial division by every factor up to the bound. -/
theorem checkBatches_ok_iff (prime : ℤ) (alpha fuel : ℕ) (ps : List ℕ) (hpos : ∀ p ∈ ps, 0 < p)
    (hword : ∀ p ∈ ps, p ≤ limbMax) (hsorted : ps.Pairwise (· ≤ ·)) (hfuel : ps.length ≤ fuel) :
    checkBatches prime alpha fuel ps = .ok () ↔ ∀ p ∈ ps, p ≤ alpha → ¬(p : ℤ) ∣ prime := by
  induction fuel generalizing ps with
  | zero => simp [List.length_eq_zero_iff.mp (Nat.le_zero.mp hfuel), checkBatches]
  | succ fuel ih =>
    cases ps with
    | nil => simp [checkBatches]
    | cons p ps =>
      by_cases hle : p ≤ alpha
      · obtain ⟨happ, hprod, hfit, hall⟩ := takeBatch_spec alpha 1 (p :: ps) hpos (by decide)
        have hne := takeBatch_cons ps (hpos p List.mem_cons_self) (hword p List.mem_cons_self) hle
        rw [checkBatches, if_pos hle]
        generalize takeBatch alpha 1 (p :: ps) = batch at *
        obtain ⟨product, batch, rest⟩ := batch
        simp only at happ hprod hfit hall hne ⊢
        rw [Nat.one_mul] at hprod
        have hmem : ∀ r ∈ rest, r ∈ p :: ps := fun r hr => happ ▸ List.mem_append_right batch hr
        have hposB : 0 < product := by
          rw [hprod]
          exact List.prod_pos fun r hr => hpos r (happ ▸ List.mem_append_left rest hr)
        have hrem : bnModWord prime product ≠ limbMax := by
          have := Nat.mod_lt prime.natAbs hposB
          unfold bnModWord
          omega
        have hlen : rest.length ≤ fuel := by
          have := congrArg List.length happ
          have := List.length_pos_of_ne_nil hne
          rw [List.length_append] at *
          omega
        have hrest := ih rest (fun r hr => hpos r (hmem r hr)) (fun r hr => hword r (hmem r hr))
          (List.pairwise_append.mp (happ ▸ hsorted)).2.1 hlen
        have hbatch : forEach (fun factor =>
            require (decide (bnModWord prime product % factor ≠ 0)) .crypto) batch = .ok () ↔
            ∀ r ∈ batch, ¬(r : ℤ) ∣ prime := by
          rw [forEach_ok_iff]
          refine forall₂_congr fun r hr => ?_
          rw [require_ok_iff, decide_eq_true_iff, remainder_mod_eq (hprod ▸ List.dvd_prod hr)]
        rw [decide_eq_true hrem, cbAssert_true, ok_bind, bind_ok_iff]
        constructor
        · rintro ⟨u, hfirst, hlast⟩ r hr hra
          rw [← happ] at hr
          rcases List.mem_append.mp hr with hr | hr
          · exact hbatch.mp hfirst r hr
          · exact hrest.mp hlast r hr hra
        · intro h
          refine ⟨(), hbatch.mpr fun r hr => h r (happ ▸ List.mem_append_left rest hr) (hall r hr),
            ?_⟩
          exact hrest.mpr fun r hr => h r (hmem r hr)
      · rw [checkBatches, if_neg hle]
        refine iff_of_true rfl fun r hr hra => ?_
        rcases List.mem_cons.mp hr with rfl | hr
        · exact absurd hra hle
        · exact absurd ((List.rel_of_pairwise_cons hsorted hr).trans hra) hle

theorem mem_smallPrimes {p : ℕ} : p ∈ smallPrimes ↔ p < 104730 ∧ p.Prime := by
  rw [smallPrimes, List.mem_filter, List.mem_range, decide_eq_true_iff]

theorem checkIntegerWithSmallPrimes_ok_iff (prime : ℤ) (alpha : ℕ) :
    checkIntegerWithSmallPrimes prime alpha = .ok () ↔ ∀ p ∈ smallPrimes,
      p ≤ alpha → ¬(p : ℤ) ∣ prime := by
  refine checkBatches_ok_iff prime alpha _ _ (fun p hp => (mem_smallPrimes.mp hp).2.pos)
    (fun p hp => ?_) ?_ le_rfl
  · exact le_trans (mem_smallPrimes.mp hp).1.le (by decide)
  · exact List.Pairwise.filter _ List.pairwise_le_range

end CbMpc
