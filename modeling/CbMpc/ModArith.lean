import CbMpc.Outcome
import CbMpc.Interpolation

/-!
# Arithmetic modulo a prime

`bn_t` is an integer of any sign and size. Inside `MODULO(q)` the operators are
those of `mod_t`: outside a `vartime_scope_t` they assert that both operands are
already reduced, and inside one they reduce them. A reduced integer is written
`residue z` for a `z` in `ZMod q`, so that the operators become the field's.
-/
namespace CbMpc

open Interpolation

/-- `SEC_P_STAT`. -/
def secPStat : ℕ := 64

/-- `SEC_P_COM`. -/
def secPCom : ℕ := 128

/-- `check_open_range`. -/
def checkOpenRange (min x max : ℤ) : Outcome Unit := require (decide (¬(x ≤ min ∨ x ≥ max))) .crypto

/-- `check_right_open_range`. -/
def checkRightOpenRange (min x max : ℤ) : Outcome Unit :=
  require (decide (¬(x < min ∨ x ≥ max))) .crypto

/-- `mod_t::is_in_range`. -/
def isInRange (q : ℕ) (a : ℤ) : Bool := decide (0 ≤ a ∧ a < q)

/-- `mod_t::check`. -/
def check (q : ℕ) (a : ℤ) : Outcome Unit := cbAssert (isInRange q a)

/-- The shape shared by `_add`, `_sub` and `_mul`: the operands are checked unless
the caller holds a `vartime_scope_t`. -/
def modOp (f : ℤ → ℤ → ℤ) (vartime : Bool) (q : ℕ) (a b : ℤ) : Outcome ℤ :=
  if vartime then .ok (f a b % q)
  else do
    check q a
    check q b
    .ok (f a b % q)

/-- `mod_t::_add`. -/
def modAdd (vartime : Bool) (q : ℕ) (a b : ℤ) : Outcome ℤ := modOp (· + ·) vartime q a b

/-- `mod_t::_sub`. -/
def modSub (vartime : Bool) (q : ℕ) (a b : ℤ) : Outcome ℤ := modOp (· - ·) vartime q a b

/-- `mod_t::_mul`. -/
def modMul (vartime : Bool) (q : ℕ) (a b : ℤ) : Outcome ℤ := modOp (· * ·) vartime q a b

/-- `mod_t::_inv` inside a `vartime_scope_t`: `BN_mod_inverse`, asserted to succeed. -/
def modInv (q : ℕ) (a : ℤ) : Outcome ℤ :=
  if Int.gcd a q = 1 then .ok (Int.gcdA a q % q) else throwing .assertionFailed

/-- `mod_t::div` inside a `vartime_scope_t`. -/
def modDiv (q : ℕ) (a b : ℤ) : Outcome ℤ := do
  let c ← modInv q b
  modMul true q a c

/-- `mod_t::inv` outside a `vartime_scope_t` as a function of its operand. The product with a random
mask checks the operand, and one that has no inverse exhausts the masks. The masks are in range for
a modulus of three words or more, as the order of every curve is; `modInvMasked` has the assertion
too. -/
def modInvCt (q : ℕ) (a : ℤ) : Outcome ℤ := do
  check q a
  modInv q a

/-- `mod_t::div` outside a `vartime_scope_t`. -/
def modDivCt (q : ℕ) (a b : ℤ) : Outcome ℤ := do
  let c ← modInvCt q b
  modMul false q a c

/-- `SUM` of a vector of scalars modulo `q`. -/
def sumMod (q : ℕ) (vs : List ℤ) : Outcome ℤ := vs.foldlM (fun s v => modAdd false q s v) 0

/-- The loop body of `lagrange_basis`, on the running numerator and denominator. -/
def lagrangeBasisStep (q : ℕ) (x current : ℤ) (acc : ℤ × ℤ) (pid : ℤ) : Outcome (ℤ × ℤ) := do
  cbAssert (decide (0 < pid))
  if current = pid then .ok acc
  else do
    let dx ← modSub true q x pid
    let numerator ← modMul true q acc.1 dx
    let dp ← modSub true q current pid
    let denominator ← modMul true q acc.2 dp
    .ok (numerator, denominator)

/-- `lagrange_basis` for `bn_t` pids, which opens a `vartime_scope_t` of its own. -/
def lagrangeBasis (q : ℕ) (x : ℤ) (pids : List ℤ) (current : ℤ) : Outcome ℤ := do
  let acc ← pids.foldlM (lagrangeBasisStep q x current) (1, 1)
  modDiv q acc.1 acc.2

def lagrangePartialInterpolate (q : ℕ) (x : ℤ) (shares pidsForShares allPids : List ℤ) :
    Outcome ℤ := do
  cbAssert (decide (pidsForShares.length = shares.length))
  cbAssert (decide (shares.length ≤ allPids.length))
  (pidsForShares.zip shares).foldlM (fun secret p => do
    let lambda ← lagrangeBasis q x allPids p.1
    let term ← modMul false q lambda p.2
    modAdd false q secret term) 0

def lagrangeInterpolate (q : ℕ) (x : ℤ) (shares pids : List ℤ) : Outcome ℤ := do
  cbAssert (decide (shares.length = pids.length))
  lagrangePartialInterpolate q x shares pids pids

/-- `horner_poly`. A polynomial with a single coefficient never multiplies. -/
def hornerPoly (q : ℕ) : List ℤ → ℤ → Outcome ℤ
  | [], _ => throwing .assertionFailed
  | [a], _ => .ok a
  | a :: b :: rest, x => do
    let acc ← hornerPoly q (b :: rest) x
    let term ← modMul false q acc x
    modAdd false q a term

/-- The reduced representative of a residue class. -/
def residue {q : ℕ} (z : ZMod q) : ℤ := (z.val : ℤ)

theorem noCode_modOp {q : ℕ} (f : ℤ → ℤ → ℤ) (vartime : Bool) (a b : ℤ) :
    NoCode (modOp f vartime q a b) := by
  cases vartime with
  | true => exact noCode_ok _
  | false => exact (noCode_cbAssert _).bind fun _ => (noCode_cbAssert _).bind fun _ => noCode_ok _

theorem checkOpenRange_ok_iff {min x max : ℤ} :
    checkOpenRange min x max = .ok () ↔ min < x ∧ x < max := by
  rw [checkOpenRange, require_ok_iff, decide_eq_true_iff]
  omega

theorem checkRightOpenRange_ok_iff {min x max : ℤ} :
    checkRightOpenRange min x max = .ok () ↔ min ≤ x ∧ x < max := by
  rw [checkRightOpenRange, require_ok_iff, decide_eq_true_iff]
  omega

theorem isInRange_iff {q : ℕ} (a : ℤ) : isInRange q a = true ↔ 0 ≤ a ∧ a < q := by
  simp [isInRange]

/-- On reduced operands the operators agree inside and outside a `vartime_scope_t`, for any
modulus. -/
theorem modOp_eq_emod {m : ℕ} (f : ℤ → ℤ → ℤ) (vartime : Bool) {a b : ℤ} (ha : isInRange m a = true)
    (hb : isInRange m b = true) : modOp f vartime m a b = .ok (f a b % m) := by
  cases vartime with
  | true => rfl
  | false => simp [modOp, check, ha, hb]

theorem eq_emod_of_modOp_ok {m : ℕ} {f : ℤ → ℤ → ℤ} {vartime : Bool} {a b r : ℤ}
    (h : modOp f vartime m a b = .ok r) :
    r = f a b % m := by
  cases vartime with
  | true => exact (Except.ok.inj h).symm
  | false =>
    obtain ⟨u, -, h⟩ := bind_ok_iff.mp h
    obtain ⟨u', -, h⟩ := bind_ok_iff.mp h
    exact (Except.ok.inj h).symm

theorem isInRange_emod {m : ℕ} (hm : 0 < m) (a : ℤ) : isInRange m (a % m) = true :=
  (isInRange_iff _).mpr ⟨Int.emod_nonneg a (by omega), Int.emod_lt_of_pos a (by omega)⟩

/-- Two reduced integers that agree modulo `m` are equal. -/
theorem eq_of_isInRange {m : ℕ} {a b : ℤ} (ha : isInRange m a = true) (hb : isInRange m b = true)
    (h : (a : ZMod m) = b) : a = b := by
  rw [isInRange_iff] at ha hb
  rw [ZMod.intCast_eq_intCast_iff, Int.ModEq, Int.emod_eq_of_lt ha.1 ha.2,
    Int.emod_eq_of_lt hb.1 hb.2] at h
  exact h

theorem cast_emod {m : ℕ} (a : ℤ) : ((a % m : ℤ) : ZMod m) = a := by
  rw [ZMod.intCast_mod]

theorem modInvCt_of_gcd {m : ℕ} (hm : 0 < m) {a : ℤ} (ha : isInRange m a = true)
    (hcop : Int.gcd a m = 1) :
    ∃ v, modInvCt m a = .ok v ∧ isInRange m v = true ∧ (a : ZMod m) * v = 1 := by
  refine ⟨Int.gcdA a m % m, ?_, isInRange_emod hm _, ?_⟩
  · simp [modInvCt, check, ha, modInv, hcop]
  · have h := congrArg (fun x : ℤ => (x : ZMod m)) (Int.gcd_eq_gcd_ab a m)
    rw [hcop] at h
    rw [cast_emod]
    simpa using h.symm

variable {q : ℕ} [hq : Fact q.Prime]

theorem emod_eq_residue (a : ℤ) : a % q = residue (a : ZMod q) := (ZMod.val_intCast a).symm

@[simp] theorem cast_residue (z : ZMod q) : ((residue z : ℤ) : ZMod q) = z := by
  simp [residue]

@[simp] theorem isInRange_residue (z : ZMod q) : isInRange q (residue z) = true := by
  rw [isInRange_iff]
  exact ⟨Int.natCast_nonneg _, Int.ofNat_lt.mpr (ZMod.val_lt z)⟩

theorem eq_residue_of_isInRange {a : ℤ} (h : isInRange q a = true) : a = residue (a : ZMod q) := by
  rw [isInRange_iff] at h
  rw [← emod_eq_residue, Int.emod_eq_of_lt h.1 h.2]

theorem residue_injective : Function.Injective (residue : ZMod q → ℤ) := fun a b h => by
  have hc := congrArg (fun x : ℤ => (x : ZMod q)) h
  simpa using hc

@[simp] theorem residue_inj {a b : ZMod q} : residue a = residue b ↔ a = b :=
  residue_injective.eq_iff

@[simp] theorem residue_zero : residue (0 : ZMod q) = 0 := by simp [residue]

@[simp] theorem residue_eq_zero {a : ZMod q} : residue a = 0 ↔ a = 0 := by
  rw [← residue_zero (q := q), residue_inj]

theorem modOp_vartime (f : ℤ → ℤ → ℤ) (a b : ℤ) :
    modOp f true q a b = .ok (residue (f a b : ZMod q)) := by
  simp [modOp, emod_eq_residue]

theorem modOp_of_isInRange (f : ℤ → ℤ → ℤ) {a b : ℤ} (vartime : Bool) (ha : isInRange q a = true)
    (hb : isInRange q b = true) : modOp f vartime q a b = .ok (residue (f a b : ZMod q)) := by
  cases vartime with
  | true => exact modOp_vartime f a b
  | false => simp [modOp, check, ha, hb, emod_eq_residue]

/-- Outside a `vartime_scope_t` the operators are defined on reduced operands only. -/
theorem modOp_ok_iff (f : ℤ → ℤ → ℤ) (a b r : ℤ) :
    modOp f false q a b = .ok r ↔
      isInRange q a = true ∧ isInRange q b = true ∧ r = residue (f a b : ZMod q) := by
  by_cases ha : isInRange q a = true
  · by_cases hb : isInRange q b = true
    · simp [modOp_of_isInRange f false ha hb, ha, hb, eq_comm]
    · simp [modOp, check, ha, hb, cbAssert, throwing]
  · simp [modOp, check, ha, cbAssert, throwing]

@[simp] theorem modAdd_residue (vartime : Bool) (a b : ZMod q) :
    modAdd vartime q (residue a) (residue b) = .ok (residue (a + b)) := by
  simp [modAdd, modOp_of_isInRange]

@[simp] theorem modSub_residue (vartime : Bool) (a b : ZMod q) :
    modSub vartime q (residue a) (residue b) = .ok (residue (a - b)) := by
  simp [modSub, modOp_of_isInRange]

@[simp] theorem modMul_residue (vartime : Bool) (a b : ZMod q) :
    modMul vartime q (residue a) (residue b) = .ok (residue (a * b)) := by
  simp [modMul, modOp_of_isInRange]

@[simp] theorem modSub_vartime (a b : ℤ) :
    modSub true q a b = .ok (residue ((a : ZMod q) - (b : ZMod q))) := by
  simp [modSub, modOp_vartime]

@[simp] theorem modMul_vartime (a b : ℤ) :
    modMul true q a b = .ok (residue ((a : ZMod q) * (b : ZMod q))) := by
  simp [modMul, modOp_vartime]

theorem modInv_eq {a : ℤ} (ha : (a : ZMod q) ≠ 0) : modInv q a = .ok (residue (a : ZMod q)⁻¹) := by
  have hcop : Int.gcd a q = 1 := by
    rw [Int.gcd_comm, Int.isCoprime_iff_gcd_eq_one.symm]
    exact (Prime.coprime_iff_not_dvd (Nat.prime_iff_prime_int.mp hq.out)).mpr
      fun h => ha ((ZMod.intCast_zmod_eq_zero_iff_dvd a q).mpr h)
  have hbez : (a : ZMod q) * (Int.gcdA a q : ZMod q) = 1 := by
    have h := congrArg (fun x : ℤ => (x : ZMod q)) (Int.gcd_eq_gcd_ab a q)
    rw [hcop] at h
    simpa using h.symm
  simp only [modInv, hcop, if_true, emod_eq_residue]
  rw [eq_inv_of_mul_eq_one_right hbez]

theorem modDiv_eq {a b : ℤ} (hb : (b : ZMod q) ≠ 0) :
    modDiv q a b = .ok (residue ((a : ZMod q) / (b : ZMod q))) := by
  simp [modDiv, modInv_eq hb, div_eq_mul_inv]

theorem modInvCt_residue {a : ZMod q} (ha : a ≠ 0) :
    modInvCt q (residue a) = .ok (residue a⁻¹) := by
  have hne : ((residue a : ℤ) : ZMod q) ≠ 0 := by rwa [cast_residue]
  simp [modInvCt, check, modInv_eq hne]

theorem modDivCt_residue (a : ZMod q) {b : ZMod q} (hb : b ≠ 0) :
    modDivCt q (residue a) (residue b) = .ok (residue (a / b)) := by
  simp [modDivCt, modInvCt_residue hb, div_eq_mul_inv]

theorem sumMod_residue (vs : List (ZMod q)) : sumMod q (vs.map residue) = .ok (residue vs.sum) := by
  have hloop : ∀ (l : List (ZMod q)) (s : ZMod q),
      (l.map residue).foldlM (fun s v => modAdd false q s v) (residue s) =
        Except.ok (ε := Failure) (residue (s + l.sum)) := by
    intro l
    induction l with
    | nil =>
      intro s
      rw [List.map_nil, List.sum_nil, add_zero]
      rfl
    | cons v l ih =>
      intro s
      rw [List.map_cons, List.foldlM_cons, modAdd_residue, ok_bind, ih, List.sum_cons, add_assoc]
  have h := hloop vs 0
  rwa [residue_zero, zero_add] at h

/-- The pids behind a list of positive integers, as field elements. -/
def nodesOf (q : ℕ) (pids : List ℤ) : List (ZMod q) := pids.map (fun p : ℤ => (p : ZMod q))

/-- Nonzero pids that differ mod `q` are positive integers that differ. -/
theorem pids_positive_injective (nodes : List ℕ) (hne : ∀ r ∈ nodes, r ≠ 0)
    (hnd : (nodes.map (fun r : ℕ => (r : ZMod q))).Nodup) :
    (∀ p ∈ nodes.map (fun r : ℕ => (r : ℤ)), 0 < p) ∧
      ∀ p ∈ nodes.map (fun r : ℕ => (r : ℤ)), ∀ r ∈ nodes.map (fun r : ℕ => (r : ℤ)),
        (p : ZMod q) = (r : ZMod q) → p = r := by
  constructor
  · intro p hp
    obtain ⟨a, ha, rfl⟩ := List.mem_map.mp hp
    have := hne a ha
    omega
  · intro p hp r hr h
    obtain ⟨a, ha, rfl⟩ := List.mem_map.mp hp
    obtain ⟨b, hb, rfl⟩ := List.mem_map.mp hr
    have hab : a = b := List.inj_on_of_nodup_map hnd ha hb (by simpa using h)
    rw [hab]

/-- The running numerator and denominator of `lagrange_basis`. -/
theorem lagrangeBasis_foldlM (x current : ℤ) (pids : List ℤ)
    (hpos : ∀ p ∈ pids, 0 < p) (n d : ZMod q) :
    ∃ n' d' : ZMod q, pids.foldlM (lagrangeBasisStep q x current) (residue n, residue d)
        = .ok (residue n', residue d') ∧
      n' = n * ((pids.filter (· ≠ current)).map (fun p : ℤ => (x : ZMod q) - (p : ZMod q))).prod ∧
      d' = d * ((pids.filter (· ≠ current)).map (fun p : ℤ =>
        (current : ZMod q) - (p : ZMod q))).prod := by
  induction pids generalizing n d with
  | nil => exact ⟨n, d, rfl, by simp, by simp⟩
  | cons p pids ih =>
    have hp : 0 < p := hpos p (by simp)
    have hrest : ∀ p ∈ pids, 0 < p := fun r hr => hpos r (by simp [hr])
    rw [List.foldlM_cons]
    by_cases hc : current = p
    · obtain ⟨n', d', hfold, hn, hd⟩ := ih hrest n d
      refine ⟨n', d', ?_, ?_, ?_⟩
      · simpa [lagrangeBasisStep, hp, hc] using hfold
      · simpa [hc] using hn
      · simpa [hc] using hd
    · have hc' : p ≠ current := fun h => hc h.symm
      obtain ⟨n', d', hfold, hn, hd⟩ := ih hrest (n * (x - p)) (d * (current - p))
      refine ⟨n', d', ?_, ?_, ?_⟩
      · simpa [lagrangeBasisStep, hp, hc] using hfold
      · simpa [hc', mul_assoc] using hn
      · simpa [hc', mul_assoc] using hd

theorem prod_map_div {α : Type} (l : List α) (f g : α → ZMod q) :
    (l.map f).prod / (l.map g).prod = (l.map (fun a => f a / g a)).prod := by
  induction l with
  | nil => simp
  | cons a l ih => rw [List.map_cons, List.map_cons, List.map_cons, List.prod_cons, List.prod_cons,
      List.prod_cons, ← ih, mul_div_mul_comm]

/-- The differences of `current` with the other pids, none of which agrees with it mod `q`. -/
theorem prod_sub_ne_zero {current : ℤ} {pids : List ℤ}
    (hinj : ∀ p ∈ pids, (p : ZMod q) = current → p = current) :
    ((pids.filter (· ≠ current)).map (fun p : ℤ => (current : ZMod q) - (p : ZMod q))).prod ≠
      0 := by
  refine List.prod_ne_zero fun hz => ?_
  obtain ⟨p, hp, hpz⟩ := List.mem_map.mp hz
  have hmem := List.mem_filter.mp hp
  exact (of_decide_eq_true hmem.2) (hinj p hmem.1 (sub_eq_zero.mp hpz).symm)

/-- The quotient of the two products is the interpolation weight. -/
theorem prod_div_prod_eq_weight (x : ℤ) {current : ℤ} {pids : List ℤ}
    (hinj : ∀ p ∈ pids, (p : ZMod q) = current → p = current) :
    ((pids.filter (· ≠ current)).map (fun p : ℤ => (x : ZMod q) - (p : ZMod q))).prod /
      ((pids.filter (· ≠ current)).map (fun p : ℤ => (current : ZMod q) - (p : ZMod q))).prod =
        weight (nodesOf q pids) (current : ZMod q) x := by
  have hfilter : (nodesOf q pids).filter (· ≠ (current : ZMod q)) =
      (pids.filter (· ≠ current)).map (fun p : ℤ => (p : ZMod q)) := by
    rw [nodesOf, List.filter_map]
    congr 1
    refine List.filter_congr fun p hp => ?_
    simp only [Function.comp, ne_eq, decide_not]
    congr 1
    exact decide_eq_decide.mpr ⟨hinj p hp, fun h => by rw [h]⟩
  rw [prod_map_div, weight, hfilter, List.map_map]
  rfl

/-- `lagrange_basis` computes the interpolation weight, when pids that agree mod `q` agree. -/
theorem lagrangeBasis_eq (x current : ℤ) (pids : List ℤ) (hpos : ∀ p ∈ pids, 0 < p)
    (hinj : ∀ p ∈ pids, (p : ZMod q) = current → p = current) :
    lagrangeBasis q x pids current =
      .ok (residue (weight (nodesOf q pids) (current : ZMod q) x)) := by
  have hone : (1 : ℤ) = residue (1 : ZMod q) := by
    have := hq.out.one_lt
    simp [residue, ZMod.val_one]
  obtain ⟨n, d, hfold, hn, hd⟩ := lagrangeBasis_foldlM x current pids hpos (1 : ZMod q) (1 : ZMod q)
  rw [one_mul] at hn hd
  have hdne : d ≠ 0 := hd ▸ prod_sub_ne_zero hinj
  rw [lagrangeBasis, hone, hfold]
  simp only [ok_bind]
  rw [modDiv_eq (by simpa using hdne), cast_residue, cast_residue, hn, hd,
    prod_div_prod_eq_weight x hinj]

/-- The scalar loop, for any pids among `allPids`. -/
theorem lagrangePartialInterpolate_eq (x : ℤ) (allPids : List ℤ) (hpos : ∀ p ∈ allPids, 0 < p)
    (hinj : ∀ p ∈ allPids, ∀ r ∈ allPids, (p : ZMod q) = r → p = r)
    (pts : List (ℤ × ZMod q)) (hmem : ∀ p ∈ pts, p.1 ∈ allPids)
    (hlen : pts.length ≤ allPids.length) :
    lagrangePartialInterpolate q x (pts.map (fun p => residue p.2)) (pts.map Prod.fst) allPids =
      .ok (residue (pts.map (fun p => weight (nodesOf q allPids) (p.1 : ZMod q) x • p.2)).sum) := by
  have hloop : ∀ (l : List (ℤ × ZMod q)) (acc : ZMod q), (∀ p ∈ l, p.1 ∈ allPids) →
      ((l.map Prod.fst).zip (l.map (fun p => residue p.2))).foldlM (fun secret p => do
        let lambda ← lagrangeBasis q x allPids p.1
        let term ← modMul false q lambda p.2
        modAdd false q secret term) (residue acc) =
      .ok (residue
        (acc + (l.map (fun p => weight (nodesOf q allPids) (p.1 : ZMod q) x • p.2)).sum)) := by
    intro l
    induction l with
    | nil =>
      intro acc _
      simp
      rfl
    | cons p l ih =>
      intro acc hl
      have hp : p.1 ∈ allPids := hl p (by simp)
      have hbasis := lagrangeBasis_eq x p.1 allPids hpos (fun r hr h => hinj r hr p.1 hp h)
      rw [List.map_cons, List.map_cons, List.zip_cons_cons, List.foldlM_cons, hbasis]
      simp only [ok_bind, modMul_residue, modAdd_residue]
      rw [ih _ (fun r hr => hl r (by simp [hr])), List.map_cons, List.sum_cons,
        smul_eq_mul, add_assoc]
  have h := hloop pts 0 hmem
  rw [residue_zero, zero_add] at h
  simp only [lagrangePartialInterpolate, List.length_map, decide_true, hlen, cbAssert_true, ok_bind]
  exact h

theorem hornerPoly_eq (b : List (ZMod q)) (hb : b ≠ []) (x : ℤ)
    (hx : 2 ≤ b.length → isInRange q x = true) :
    hornerPoly q (b.map residue) x = .ok (residue (horner b (x : ZMod q))) := by
  induction b with
  | nil => exact absurd rfl hb
  | cons a b ih =>
    cases b with
    | nil => simp [hornerPoly]
    | cons c b =>
      have hxr : isInRange q x = true := hx (by simp)
      have ih' := ih (by simp) (fun _ => hxr)
      rw [List.map_cons, List.map_cons] at *
      simp only [hornerPoly, ih', ok_bind]
      rw [eq_residue_of_isInRange hxr, modMul_residue, ok_bind, modAdd_residue, cast_residue,
        horner_cons a, smul_eq_mul, mul_comm]

end CbMpc
