import CbMpc.Bn256

/-!
# Sums of products with one reduction

`add_no_reduce` and `mul_add_no_reduce` add to an accumulator of eight words and subtract the
modulus from its upper half once. The upper half stays below the modulus, so the accumulator is the
sum up to multiples of `2 ^ 256` times the modulus, and what `reduce` makes of it is decided by the
one Barrett reduction at the end.
-/
namespace CbMpc

open WordArray Uint256

variable (mod : Bn256Mod)

/-- What both additions do with the words of the summand. -/
def accumulate (r p : List Limb) : List Limb :=
  let s := add p r false
  let t := sub (s.1.drop 4) mod.m.words false
  let borrow := (subx (BitVec.ofNat 64 s.2.toNat) 0#64 t.2).2
  s.1.take 4 ++ blend borrow (s.1.drop 4) t.1

/-- `bn256_t::add_no_reduce`. -/
def addNoReduce (r : List Limb) (a : Uint256) : List Limb :=
  accumulate mod r (a.words ++ [0#64, 0#64, 0#64, 0#64])

/-- `bn256_t::mul_add_no_reduce`. -/
def mulAddNoReduce (r : List Limb) (a b : Uint256) : List Limb := accumulate mod r (mul256Noasm a b)

/-- A call on an accumulator. -/
inductive LazyCall where
  | add (a : Uint256)
  | mulAdd (a b : Uint256)
  deriving DecidableEq, Repr

namespace LazyCall

def run (r : List Limb) : LazyCall → List Limb
  | add a => addNoReduce mod r a
  | mulAdd a b => mulAddNoReduce mod r a b

/-- What a call adds. -/
def summand : LazyCall → ℕ
  | add a => value a.words
  | mulAdd a b => value a.words * value b.words

/-- The operands are residues. -/
def Reduced (m : ℕ) : LazyCall → Prop
  | add a => value a.words < m
  | mulAdd a b => value a.words < m ∧ value b.words < m

end LazyCall

/-- The accumulator after a sequence of calls, from zero. -/
def lazySum (calls : List LazyCall) : List Limb :=
  calls.foldl (LazyCall.run mod) (List.replicate 8 0#64)

variable {m : ℕ}

/-- One addition: the sum modulo `2 ^ 256` times the modulus. -/
theorem accumulate_spec (hm : Modulus256 m) {r p : List Limb}
    (hr : r.length = 8) (hp : p.length = 8) (hrlt : value r < 2 ^ 256 * m)
    (hplt : value p < 2 ^ 256 * m) :
    (accumulate (Bn256Mod.make m) r p).length = 8 ∧
      value (accumulate (Bn256Mod.make m) r p) = (value r + value p) % (2 ^ 256 * m) := by
  have hlen := length_add (hp.trans hr.symm) false
  have hsum := value_add (hp.trans hr.symm) false
  have hlt := hm.lt
  simp only [accumulate, subx_carry]
  generalize add p r false = s at hlen hsum
  have hlow : (s.1.take 4).length = 4 := by rw [List.length_take, hlen, hp]; rfl
  have hhigh : (s.1.drop 4).length = 4 := by rw [List.length_drop, hlen, hp]
  have hsplit := value_append (s.1.take 4) (s.1.drop 4)
  rw [List.take_append_drop, hlow] at hsplit
  have hlowlt := value_lt (s.1.take 4)
  rw [hlow] at hlowlt
  -- The upper half with its carry is the quotient of the sum by `2 ^ 256`.
  have hparts : value r + value p =
      value (s.1.take 4) + 2 ^ (64 * 4) *
        (value (s.1.drop 4) + 2 ^ (64 * (s.1.drop 4).length) * s.2.toNat) := by
    have hpow : 2 ^ (64 * p.length) = 2 ^ (64 * 4) * 2 ^ (64 * (s.1.drop 4).length) := by
      rw [hp, hhigh, ← pow_add]
    rw [hpow, hsplit, Bool.toNat_false, add_zero] at hsum
    linear_combination -hsum
  have hmod := Nat.mod_mul (x := value r + value p) (a := 2 ^ 256) (b := m)
  have hquot : (value r + value p) / 2 ^ 256 = value (s.1.drop 4) +
      2 ^ (64 * (s.1.drop 4).length) * s.2.toNat := by
    rw [hparts, Nat.add_mul_div_left _ _ (Nat.two_pow_pos _), Nat.div_eq_of_lt hlowlt, zero_add]
  have hrem : (value r + value p) % 2 ^ 256 = value (s.1.take 4) := by
    rw [hparts, Nat.add_mul_mod_self_left, Nat.mod_eq_of_lt hlowlt]
  have htwo : (value r + value p) / 2 ^ 256 < 2 * m := by
    rw [Nat.div_lt_iff_lt_mul (Nat.two_pow_pos _), mul_comm (2 * m), mul_left_comm]
    omega
  have hms : (s.1.drop 4).length = (Bn256Mod.make m).m.words.length := hhigh
  have hbound : value (s.1.drop 4) + 2 ^ (64 * (s.1.drop 4).length) * s.2.toNat <
      value (Bn256Mod.make m).m.words + 2 ^ (64 * (s.1.drop 4).length) := by
    rw [← hquot, hm.value_m, hhigh]
    omega
  obtain ⟨hlen', hval⟩ := condSub_spec hms hbound
  rw [← hquot, hm.value_m, ite_sub_eq_mod htwo] at hval
  constructor
  · rw [List.length_append, hlow, hlen', hhigh]
  · rw [value_append, hlow, hval, hmod, hrem]

theorem LazyCall.run_spec (hm : Modulus256 m) {r : List Limb} (hr : r.length = 8)
    (hrlt : value r < 2 ^ 256 * m) {call : LazyCall} (hcall : call.Reduced m) :
    (call.run (Bn256Mod.make m) r).length = 8 ∧
      value (call.run (Bn256Mod.make m) r) = (value r + call.summand) % (2 ^ 256 * m) := by
  cases call with
  | add a =>
    have hval : value (a.words ++ [0#64, 0#64, 0#64, 0#64]) = value a.words := by
      have hzero : value [0#64, 0#64, 0#64, 0#64] = 0 := by decide
      rw [value_append, hzero, mul_zero, add_zero]
    have hlt : value a.words < 2 ^ 256 * m :=
      lt_of_lt_of_le hcall (Nat.le_mul_of_pos_left m (Nat.two_pow_pos 256))
    have h := accumulate_spec hm hr
      (rfl : (a.words ++ [0#64, 0#64, 0#64, 0#64]).length = 8) hrlt (by rwa [hval])
    rwa [hval] at h
  | mulAdd a b =>
    obtain ⟨hlen, hval⟩ := value_mul256Noasm a b
    have hlt : value a.words * value b.words < 2 ^ 256 * m :=
      Nat.mul_lt_mul'' (value_lt a.words) hcall.2
    have h := accumulate_spec hm hr hlen hrlt (by rwa [hval])
    rwa [hval] at h

/-- A run of calls: the accumulator is the sum modulo `2 ^ 256` times the modulus. -/
theorem lazySum_spec (hm : Modulus256 m) {calls : List LazyCall}
    (hcalls : ∀ call ∈ calls, call.Reduced m) :
    (lazySum (Bn256Mod.make m) calls).length = 8 ∧
      value (lazySum (Bn256Mod.make m) calls) =
        (calls.map LazyCall.summand).sum % (2 ^ 256 * m) := by
  have hgt := hm.gt
  induction calls using List.reverseRecOn with
  | nil =>
    have hzero : value (List.replicate 8 (0#64)) = 0 := by decide
    exact ⟨rfl, hzero.trans (Nat.zero_mod _).symm⟩
  | append_singleton calls call ih =>
    obtain ⟨hlen, hval⟩ := ih fun c hc => hcalls c (List.mem_append_left _ hc)
    have hlt : value (lazySum (Bn256Mod.make m) calls) < 2 ^ 256 * m := by
      rw [hval]
      exact Nat.mod_lt _ (by omega)
    have h := LazyCall.run_spec hm hlen hlt
      (hcalls call (List.mem_append_right _ (List.mem_singleton_self call)))
    rw [lazySum, List.foldl_append, List.map_append, List.sum_append]
    refine ⟨h.1, h.2.trans ?_⟩
    rw [hval, Nat.mod_add_mod, List.map_singleton, List.sum_singleton]

/-- The upper half of a number modulo `2 ^ 256` times the modulus. -/
theorem value_upperHalf_lt (hm : Modulus256 m) {calls : List LazyCall}
    (hcalls : ∀ call ∈ calls, call.Reduced m) :
    value ((lazySum (Bn256Mod.make m) calls).drop 4) < m := by
  have hgt := hm.gt
  rw [value_drop, (lazySum_spec hm hcalls).2, Nat.div_lt_iff_lt_mul (Nat.two_pow_pos _), mul_comm m]
  exact Nat.mod_lt _ (by omega)

/-- The assertions of `reduce` hold for every modulus of four words. -/
theorem reduce_eq (hm : Modulus256 m) (x : List Limb) :
    reduce (Bn256Mod.make m) x = .ok (barrettReduce256 (Bn256Mod.make m) x) := by
  obtain ⟨k, hk, -, -, hle, hlt⟩ := modulus_words hm.valid
  have hcount := hk.symm.trans hm.wordCount
  have hmu : wordCount 64 (value (Bn256Mod.make m).mu) = 5 := by
    rw [← hm.mu, barrettMu, value_limbs, hk, wordCount_eq hle hlt, hcount]
  rw [reduce, hm.value_m, hm.wordCount, hmu]
  rfl

/-- What is asked of a sequence of calls: the upper half stays below the modulus, and the reduction
is the sum. -/
def LazySumExact (m : ℕ) (calls : List LazyCall) : Prop :=
  (∀ done, done <+: calls → value ((lazySum (Bn256Mod.make m) done).drop 4) < m) ∧
    ∃ r, reduce (Bn256Mod.make m) (lazySum (Bn256Mod.make m) calls) = .ok r ∧
      value r.words = (calls.map LazyCall.summand).sum % m

theorem lazySumExact_iff {m : ℕ} (hm : Modulus256 m) {calls : List LazyCall}
    (hcalls : ∀ call ∈ calls, call.Reduced m) :
    LazySumExact m calls ↔ ¬Dropped m ((calls.map LazyCall.summand).sum % (2 ^ 256 * m)) := by
  obtain ⟨hlen, hval⟩ := lazySum_spec hm hcalls
  have hred := value_barrettReduce256 hm hlen
  rw [hval] at hred
  have hexact := barrett_exact_iff hm hred
  rw [Nat.mod_mul_left_mod] at hexact
  rw [← hexact]
  constructor
  · rintro ⟨-, r, hr, hsum⟩
    cases (reduce_eq hm _).symm.trans hr
    exact hsum
  · intro h
    refine ⟨fun done hdone => ?_, _, reduce_eq hm _, h⟩
    exact value_upperHalf_lt hm fun call hcall => hcalls call (hdone.subset hcall)

theorem lazySumExact_iff_sample :
    LazySumExact droppingModulus [.add (fromNat 2), .mulAdd (fromNat 3) (fromNat 5)] := by
  refine (lazySumExact_iff droppingModulus256 ?_).mpr ?_
  · intro call hcall
    fin_cases hcall
    · show value (fromNat 2).words < droppingModulus
      decide
    · show value (fromNat 3).words < droppingModulus ∧ value (fromNat 5).words < droppingModulus
      decide
  · decide +kernel

/-- One product is enough. -/
theorem lazySum_loses_word :
    ¬∀ m : ℕ, Modulus256 m → ∀ calls : List LazyCall, (∀ call ∈ calls, call.Reduced m) →
    LazySumExact m calls := by
  intro h
  have hd := droppingModulus_cases.2.1
  have hcalls :
      ∀ call ∈
        [LazyCall.mulAdd (fromNat (droppingModulus - 1)) (fromNat (droppingModulus - 2 ^ 170))],
      call.Reduced droppingModulus := by
    rintro call hcall
    rw [List.mem_singleton.mp hcall]
    exact droppingFactors_lt
  obtain ⟨-, r, hr, hsum⟩ := h droppingModulus droppingModulus256 _ hcalls
  obtain ⟨hlen, hval⟩ := lazySum_spec droppingModulus256 hcalls
  have hred := value_barrettReduce256 droppingModulus256 hlen
  have hexact := barrett_exact_iff droppingModulus256 hred
  rw [hval, Nat.mod_mul_left_mod] at hexact
  cases (reduce_eq droppingModulus256 _).symm.trans hr
  have hnot := hexact.mp hsum
  rw [List.map_singleton, List.sum_singleton, LazyCall.summand, value_droppingFactors.1,
    value_droppingFactors.2] at hnot
  exact hnot hd

end CbMpc
