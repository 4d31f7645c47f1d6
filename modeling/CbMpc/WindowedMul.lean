import CbMpc.BoothWnaf
import CbMpc.EdwardsProjective

/-!
# Windowed scalar multiplication

`ecurve_core_t::mul` goes over the windows of a scalar from the highest one down with a table of the
multiples up to 16, and `mul_to_generator` from the lowest one up with a table of 32 multiples for
each window.
-/
namespace CbMpc

open SignedDigits

/-- What `ecurve_core_t` uses of the points. -/
structure GroupOps (Pt : Type) where
  infinity : Pt
  dbl : Pt → Pt
  add : Pt → Pt → Pt
  cndNeg : Bool → Pt → Pt

/-- Points that stand for those of a group. -/
structure GroupOps.Lawful {Pt E : Type} [AddCommGroup E] (G : GroupOps Pt)
    (Rep : Pt → E → Prop) : Prop where
  infinity : Rep G.infinity 0
  dbl : ∀ {A P}, Rep A P → Rep (G.dbl A) (P + P)
  add : ∀ {A B P Q}, Rep A P → Rep B Q → Rep (G.add A B) (P + Q)
  cndNeg : ∀ {A P} (flag), Rep A P → Rep (G.cndNeg flag A) (if flag then -P else P)

/-- The points with the extended and the precomputed forms of `mul_to_generator`. `mulgAssign` is
the assignment of a precomputed point, which the Edwards form leaves empty. -/
structure GeneratorOps (Pt Mg Pre : Type) extends GroupOps Pt where
  toPrecomp : Pt → Pre
  preCndNeg : Bool → Pre → Pre
  mulgInfinity : Mg
  addPrecomp : Mg → Pre → Mg
  mulgAssign : Mg → Pre → Mg
  getXyz : Mg → Pt

structure GeneratorOps.Lawful {Pt Mg Pre E : Type} [AddCommGroup E]
    (G : GeneratorOps Pt Mg Pre) (Rep : Pt → E → Prop) (MgRep : Mg → E → Prop)
    (PreRep : Pre → E → Prop) : Prop extends GroupOps.Lawful G.toGroupOps Rep where
  toPrecomp : ∀ {A P}, Rep A P → PreRep (G.toPrecomp A) P
  preCndNeg : ∀ {p P} (flag), PreRep p P → PreRep (G.preCndNeg flag p) (if flag then -P else P)
  mulgInfinity : MgRep G.mulgInfinity 0
  addPrecomp : ∀ {A p P Q}, MgRep A P → PreRep p Q → MgRep (G.addPrecomp A p) (P + Q)
  mulgAssign : ∀ {A p P}, MgRep A P → PreRep p P → MgRep (G.mulgAssign A p) P
  getXyz : ∀ {A P}, MgRep A P → Rep (G.getXyz A) P

def tableRead {α : Type} (table : List α) (i : ℕ) : Outcome α :=
  match table[i]? with
  | some a => .ok a
  | none => throwing .outOfBounds

theorem tableRead_eq {α : Type} {table : List α} {i : ℕ} {a : α} (h : table[i]? = some a) :
    tableRead table i = .ok a := by
  rw [tableRead, h]

section Mul

variable {Pt : Type} (G : GroupOps Pt)

/-- `ecurve_core_t::ct_get`. -/
def ctGet (vartime : Bool) (table : List Pt) (lineSize index : ℕ) : Outcome Pt :=
  if vartime then tableRead table index
  else (List.range' 1 (lineSize - 1)).foldlM
    (fun R i => do
      let a ← tableRead table i
      .ok (cndAssign (decide (index = i)) R a)) G.infinity

/-- The table of `ecurve_core_t::mul`. -/
def multiples (P : Pt) : List Pt :=
  let t2 := G.dbl P
  let t3 := G.add t2 P
  let t4 := G.dbl t2
  let t5 := G.add t4 P
  let t6 := G.dbl t3
  let t7 := G.add t6 P
  let t8 := G.dbl t4
  let t9 := G.add t8 P
  let t10 := G.dbl t5
  let t11 := G.add t10 P
  let t12 := G.dbl t6
  let t13 := G.add t12 P
  let t14 := G.dbl t7
  let t15 := G.add t14 P
  let t16 := G.dbl t8
  [G.infinity, P, t2, t3, t4, t5, t6, t7, t8, t9, t10, t11, t12, t13, t14, t15, t16]

/-- One turn of the loop of `ecurve_core_t::mul`. -/
def mulStep (vartime : Bool) (tab : List Pt) (s : Bool × Pt) (value : BitVec 32)
    (neg : Bool) : Outcome (Bool × Pt) :=
  if s.1 then do
    let R ← ctGet G vartime tab 17 value.toNat
    .ok (false, G.cndNeg neg R)
  else do
    let R := G.dbl^[5] s.2
    let A ← ctGet G vartime tab 17 value.toNat
    .ok (false, G.add R (G.cndNeg neg A))

/-- `ecurve_core_t::mul` without the endomorphism. -/
def curveMul (vartime : Bool) (P : Pt) (v : ℤ) (R : Pt) : Outcome Pt := do
  let tab := multiples G P
  let wnaf ← Booth.make 5 v 256 true (by decide)
  let s ← wnaf.loop (mulStep G vartime tab) (true, R)
  .ok s.2

end Mul

section MulToGenerator

variable {Pt Mg Pre : Type} (G : GeneratorOps Pt Mg Pre)

/-- The line of the table for `base`, from `row` on. -/
def precompLine (base : Pt) : ℕ → Pt → List Pre
  | 0, _ => []
  | j + 1, row => G.toPrecomp row :: precompLine base j (G.add row base)

def precompLines : ℕ → Pt → List Pre
  | 0, _ => []
  | n + 1, base => precompLine G base 32 base ++ precompLines n (G.dbl^[6] base)

/-- `ecurve_core_t::precompute`: the first entry is never written. -/
def precompute (unset : Pre) (generator : Pt) (qbits : ℕ) : List Pre :=
  unset :: precompLines G ((qbits + 5) / 6) generator

/-- `precomp_t::ct_get`: outside of the variable-time version the index is a byte that wraps round
below zero. -/
def precompGet (vartime : Bool) (unset : Pre) (table : List Pre) (line index : ℕ) : Outcome Pre :=
  if vartime then tableRead table (line + index)
  else (List.range 32).foldlM
    (fun R i => do
      let p ← tableRead table (line + 1 + i)
      .ok (cndAssign (decide ((index + 255) % 256 = i)) R p)) unset

/-- The loop of `mul_to_generator`: the sum so far, the line of the table, and whether all digits
were zero. -/
structure MulgState (Mg : Type) where
  A : Mg
  line : ℕ
  rIsInf : Bool

def mulgStep (vartime : Bool) (unset : Pre) (table : List Pre) (s : MulgState Mg)
    (ind : BitVec 32) (isNeg : Bool) :
    Outcome (MulgState Mg) := do
  let pre ← precompGet vartime unset table s.line ind.toNat
  let pre := G.preCndNeg isNeg pre
  let A := G.addPrecomp s.A pre
  let A := if s.rIsInf then G.mulgAssign A pre else A
  let addInf := decide (ind = 0)
  .ok ⟨cndAssign addInf A s.A, s.line + 32, s.rIsInf && addInf⟩

/-- `ecurve_core_t::mul_to_generator`. -/
def curveMulToGenerator (vartime : Bool) (unset unset' : Pre) (generator : Pt) (qbits : ℕ)
    (x : ℤ) : Outcome Pt := do
  let table := precompute G unset generator qbits
  let wnaf ← Booth.make 6 x qbits false (by decide)
  let s ← wnaf.loop (mulgStep G vartime unset' table) ⟨G.mulgInfinity, 0, true⟩
  .ok (cndAssign s.rIsInf (G.getXyz s.A) G.infinity)

end MulToGenerator

section MulProof

variable {Pt E : Type} [AddCommGroup E] {G : GroupOps Pt} {Rep : Pt → E → Prop}

theorem ctGet_foldlM {table : List Pt} {index n : ℕ} (hn : n + 1 ≤ table.length) :
    (List.range' 1 n).foldlM
      (fun R i => do
        let a ← tableRead table i
        .ok (cndAssign (decide (index = i)) R a)) G.infinity =
      .ok (if 1 ≤ index ∧ index ≤ n then table.getD index G.infinity else G.infinity) := by
  induction n with
  | zero =>
    have hempty : ¬(1 ≤ index ∧ index ≤ 0) := by omega
    rw [if_neg hempty]
    rfl
  | succ n ih =>
    have hget : table[1 + n]? = some (table.getD (1 + n) G.infinity) := by
      rw [List.getD_eq_getElem?_getD, List.getElem?_eq_getElem (by omega)]
      rfl
    rw [List.range'_1_concat, List.foldlM_append, ih (by omega), ok_bind, List.foldlM_cons,
      tableRead_eq hget, ok_bind, ok_bind, List.foldlM_nil]
    show Except.ok _ = Except.ok _
    congr 1
    by_cases h : index = 1 + n
    · have hin : 1 ≤ 1 + n ∧ 1 + n ≤ n + 1 := by omega
      rw [h, if_pos hin, decide_eq_true rfl]
      rfl
    · have hiff : (1 ≤ index ∧ index ≤ n) ↔ 1 ≤ index ∧ index ≤ n + 1 := by omega
      rw [decide_eq_false h]
      show (if 1 ≤ index ∧ index ≤ n then _ else _) = _
      exact if_congr hiff rfl rfl

/-- Both lookups read the entry. -/
theorem ctGet_eq {table : List Pt} {index : ℕ} {A : Pt} (hzero : table[0]? = some G.infinity)
    (hA : table[index]? = some A) (vartime : Bool) :
    ctGet G vartime table table.length index = .ok A := by
  cases vartime with
  | true => exact tableRead_eq hA
  | false =>
    obtain ⟨hlt, -⟩ := List.getElem?_eq_some_iff.mp hA
    have hgetD : table.getD index G.infinity = A := by
      rw [List.getD_eq_getElem?_getD, hA, Option.getD_some]
    rw [ctGet, if_neg Bool.false_ne_true, ctGet_foldlM (by omega), hgetD]
    by_cases h : 1 ≤ index ∧ index ≤ table.length - 1
    · rw [if_pos h]
    · have hindex : index = 0 := by omega
      rw [hindex, hzero] at hA
      rw [if_neg h, Option.some.inj hA]

variable (hG : G.Lawful Rep)
include hG

theorem rep_dbl {A : Pt} {Q : E} {k : ℕ} (h : Rep A (k • Q)) : Rep (G.dbl A) ((2 * k) • Q) := by
  rw [mul_nsmul', two_nsmul]
  exact hG.dbl h

theorem rep_add {A P : Pt} {Q : E} {k : ℕ} (hP : Rep P Q) (h : Rep A (k • Q)) :
    Rep (G.add A P) ((k + 1) • Q) := by
  rw [succ_nsmul]
  exact hG.add h hP

theorem multiples_get {P : Pt} {Q : E} (hP : Rep P Q) {i : ℕ} (hi : i < 17) :
    ∃ A, (multiples G P)[i]? = some A ∧ Rep A (i • Q) := by
  have h1 : Rep P (1 • Q) := by rwa [one_nsmul]
  have h2 := rep_dbl hG h1
  have h3 := rep_add hG hP h2
  have h4 := rep_dbl hG h2
  have h5 := rep_add hG hP h4
  have h6 := rep_dbl hG h3
  have h7 := rep_add hG hP h6
  have h8 := rep_dbl hG h4
  have h9 := rep_add hG hP h8
  have h10 := rep_dbl hG h5
  have h11 := rep_add hG hP h10
  have h12 := rep_dbl hG h6
  have h13 := rep_add hG hP h12
  have h14 := rep_dbl hG h7
  have h15 := rep_add hG hP h14
  have h16 := rep_dbl hG h8
  have h0 : Rep G.infinity (0 • Q) := by
    rw [zero_nsmul]
    exact hG.infinity
  interval_cases i
  all_goals exact ⟨_, rfl, by assumption⟩

theorem rep_iterate {A : Pt} {Q : E} {z : ℤ} (h : Rep A (z • Q)) (n : ℕ) :
    Rep (G.dbl^[n] A) ((2 ^ n * z) • Q) := by
  induction n with
  | zero => rwa [pow_zero, one_mul]
  | succ n ih =>
    rw [Function.iterate_succ_apply', pow_succ', mul_assoc, two_mul, add_zsmul]
    exact hG.dbl ih

/-- A table entry with the sign of its digit. -/
theorem multiples_digit {P : Pt} {Q : E} (hP : Rep P Q) (v j : ℕ) :
    ∃ A, (∀ vartime, ctGet G vartime (multiples G P) 17 (digitWord 5 v j).1.toNat = .ok A) ∧
      Rep (G.cndNeg (digitWord 5 v j).2 A) (digit 5 v j • Q) := by
  have hvalue := @toNat_digitWord 5 (by decide) (by decide) v j
  have hle := digit_natAbs_le (w := 5) (by decide) v j
  obtain ⟨A, hA, hrep⟩ := multiples_get hG hP (i := (digitWord 5 v j).1.toNat) (by omega)
  refine ⟨A, ctGet_eq rfl hA, ?_⟩
  have hneg := hG.cndNeg (digitWord 5 v j).2 hrep
  have hsigned := @signedValue_digitWord 5 (by decide) (by decide) v j
  rw [← hsigned, signedValue]
  split_ifs at hneg ⊢
  · rwa [neg_zsmul, natCast_zsmul]
  · rwa [natCast_zsmul]

/-- The windows below the highest one, by Horner's rule. -/
theorem mulLoop_ok {P : Pt} {Q : E} (hP : Rep P Q) {v k : ℕ} {R : Pt}
    (hR : Rep R ((rounded v (5 * k) : ℤ) • Q)) :
    ∃ S, (∀ vartime, ((List.range k).reverse.map (windowAt 5 v)).foldlM
        (fun s e => mulStep G vartime (multiples G P) s e.2.1 e.2.2) (false, R) = .ok (false, S)) ∧
        Rep S ((v : ℤ) • Q) := by
  induction k generalizing R with
  | zero =>
    rw [Nat.mul_zero, rounded_zero] at hR
    exact ⟨R, fun _ => rfl, hR⟩
  | succ k ih =>
    obtain ⟨A, hA, hrep⟩ := multiples_digit hG hP v (5 * k)
    have hnext : Rep (G.add (G.dbl^[5] R) (G.cndNeg (digitWord 5 v (5 * k)).2 A))
        ((rounded v (5 * k) : ℤ) • Q) := by
      have hsum := hG.add (rep_iterate hG hR 5) hrep
      rwa [← add_zsmul, Nat.mul_succ, ← rounded_eq] at hsum
    obtain ⟨S, hS, hrepS⟩ := ih hnext
    refine ⟨S, ?_, hrepS⟩
    intro vartime
    have hstep : mulStep G vartime (multiples G P) (false, R) (digitWord 5 v (5 * k)).1
        (digitWord 5 v (5 * k)).2 =
        .ok (false, G.add (G.dbl^[5] R) (G.cndNeg (digitWord 5 v (5 * k)).2 A)) := by
      rw [mulStep, if_neg Bool.false_ne_true, hA vartime]
      rfl
    rw [List.range_succ, List.reverse_append, List.reverse_singleton, List.singleton_append,
      List.map_cons, List.foldlM_cons]
    show (mulStep G vartime (multiples G P) (false, R) (digitWord 5 v (5 * k)).1
      (digitWord 5 v (5 * k)).2 >>= _) = _
    rw [hstep, ok_bind]
    exact hS vartime

theorem curveMul_ok {P : Pt} {Q : E} (hP : Rep P Q) {v : ℕ} (hv : v < 2 ^ 256) :
    ∃ S, (∀ vartime R, curveMul G vartime P v R = .ok S) ∧ Rep S (v • Q) := by
  obtain ⟨A, hA, hrep⟩ := multiples_digit hG hP v (5 * 51)
  have htop : rounded v (5 * 51 + 5) = 0 := by
    apply rounded_eq_zero
    omega
  have hfirst : Rep (G.cndNeg (digitWord 5 v (5 * 51)).2 A) ((rounded v (5 * 51) : ℤ) • Q) := by
    rwa [rounded_eq 5, htop, Nat.cast_zero, mul_zero, zero_add]
  obtain ⟨S, hS, hrepS⟩ := mulLoop_ok hG hP hfirst
  rw [natCast_zsmul] at hrepS
  refine ⟨S, ?_, hrepS⟩
  intro vartime R
  have hdigits := @make_digits_back 5 (by decide) (by decide) v 256 (by decide) _ rfl
  have hstep : mulStep G vartime (multiples G P) (true, R) (digitWord 5 v (5 * 51)).1
      (digitWord 5 v (5 * 51)).2 =
      .ok (false, G.cndNeg (digitWord 5 v (5 * 51)).2 A) := by
    rw [mulStep, if_pos rfl, hA vartime]
    rfl
  rw [curveMul, make_ok 5 hv, ok_bind, if_pos rfl, Booth.loop_eq _ hdigits, List.range_succ,
    List.reverse_append, List.reverse_singleton, List.singleton_append, List.map_cons,
    List.foldlM_cons]
  show ((mulStep G vartime (multiples G P) (true, R) (digitWord 5 v (5 * 51)).1
    (digitWord 5 v (5 * 51)).2 >>= _) >>= _) = _
  rw [hstep, ok_bind]
  exact (congrArg (· >>= _) (hS vartime)).trans rfl

end MulProof

section MulToGeneratorProof

variable {Pt Mg Pre E : Type} [AddCommGroup E] {G : GeneratorOps Pt Mg Pre}
  {Rep : Pt → E → Prop} {MgRep : Mg → E → Prop} {PreRep : Pre → E → Prop}

theorem length_precompLine (base : Pt) (n : ℕ) (row : Pt) :
    (precompLine G base n row).length = n := by
  induction n generalizing row with
  | zero => rfl
  | succ n ih => rw [precompLine, List.length_cons, ih]

theorem length_precompLines (n : ℕ) (base : Pt) : (precompLines G n base).length = 32 * n := by
  induction n generalizing base with
  | zero => rfl
  | succ n ih =>
    rw [precompLines, List.length_append, length_precompLine, ih]
    omega

/-- A lookup stays within the table, and finds the entry of its digit unless that is zero. -/
theorem precompGet_ok {unset : Pre} {lines : List Pre} {line index : ℕ}
    (hline : line + 32 ≤ lines.length) (hindex : index ≤ 32) (vartime : Bool) (unset' : Pre) :
    ∃ p, precompGet vartime unset' (unset :: lines) line index = .ok p ∧
    (0 < index → lines[line + index - 1]? = some p) := by
  cases vartime with
  | true =>
    have hlt : line + index < (unset :: lines).length := by
      rw [List.length_cons]
      omega
    refine ⟨(unset :: lines)[line + index], tableRead_eq (List.getElem?_eq_getElem hlt), ?_⟩
    intro hpos
    rw [← List.getElem?_eq_getElem hlt, show line + index = line + index - 1 + 1 by omega,
      List.getElem?_cons_succ]
    rfl
  | false =>
    have hfold : ∀ n ≤ 32, (List.range n).foldlM
        (fun R i => do
          let p ← tableRead (unset :: lines) (line + 1 + i)
          .ok (cndAssign (decide ((index + 255) % 256 = i)) R p)) unset' =
        .ok (if 0 < index ∧ index ≤ n then lines.getD (line + index - 1) unset' else unset') := by
      intro n
      induction n with
      | zero =>
        intro _
        have hempty : ¬(0 < index ∧ index ≤ 0) := by omega
        rw [if_neg hempty]
        rfl
      | succ n ih =>
        intro hn
        have hget : (unset :: lines)[line + 1 + n]? = some (lines.getD (line + n) unset') := by
          rw [show line + 1 + n = line + n + 1 by omega, List.getElem?_cons_succ,
            List.getD_eq_getElem?_getD, List.getElem?_eq_getElem (by omega)]
          rfl
        rw [List.range_succ, List.foldlM_append, ih (by omega), ok_bind, List.foldlM_cons,
          tableRead_eq hget, ok_bind, ok_bind, List.foldlM_nil]
        show Except.ok _ = Except.ok _
        congr 1
        by_cases h : index = n + 1
        · have hin : 0 < n + 1 ∧ n + 1 ≤ n + 1 := by omega
          have hflag : (n + 1 + 255) % 256 = n := by omega
          rw [h, if_pos hin, decide_eq_true hflag]
          rfl
        · have hflag : ¬(index + 255) % 256 = n := by omega
          have hiff : (0 < index ∧ index ≤ n) ↔ 0 < index ∧ index ≤ n + 1 := by omega
          rw [decide_eq_false hflag]
          show (if 0 < index ∧ index ≤ n then _ else _) = _
          exact if_congr hiff rfl rfl
    refine ⟨_, hfold 32 le_rfl, ?_⟩
    intro hpos
    rw [if_pos ⟨hpos, hindex⟩, List.getD_eq_getElem?_getD, List.getElem?_eq_getElem (by omega)]
    rfl

/-- A turn does the same for every lookup and every unset value: what they do not agree on is not
used. -/
theorem mulgStep_eq {unset : Pre} {lines : List Pre} {s : MulgState Mg} {ind : BitVec 32}
    {isNeg : Bool} {p : Pre} (hline : s.line + 32 ≤ lines.length) (hind : ind.toNat ≤ 32)
    (hp : 0 < ind.toNat → lines[s.line + ind.toNat - 1]? = some p) (vartime : Bool) (unset' : Pre) :
    mulgStep G vartime unset' (unset :: lines) s ind isNeg =
      .ok (if ind = 0 then ⟨s.A, s.line + 32, s.rIsInf⟩
        else ⟨if s.rIsInf then G.mulgAssign
          (G.addPrecomp s.A (G.preCndNeg isNeg p)) (G.preCndNeg isNeg p)
            else G.addPrecomp s.A (G.preCndNeg isNeg p), s.line + 32, false⟩) := by
  obtain ⟨p', hread, hp'⟩ := precompGet_ok hline hind vartime unset'
  rw [mulgStep, hread, ok_bind]
  by_cases h : ind = 0
  · simp [h, cndAssign]
  · have hpos : 0 < ind.toNat := by
      rw [Nat.pos_iff_ne_zero]
      intro hzero
      exact h (BitVec.eq_of_toNat_eq hzero)
    have heq : p' = p := Option.some.inj ((hp' hpos).symm.trans (hp hpos))
    have hne : ¬ind = 0#32 := h
    rw [if_neg h]
    simp [hne, heq, cndAssign]

variable (hG : G.Lawful Rep MgRep PreRep)
include hG

theorem precompLine_get {base : Pt} {Q : E} (hbase : Rep base Q) {n k : ℕ} {row : Pt}
    (hrow : Rep row ((k + 1) • Q)) {j : ℕ} (hj : j < n) :
    ∃ p, (precompLine G base n row)[j]? = some p ∧ PreRep p ((k + j + 1) • Q) := by
  induction n generalizing row k j with
  | zero => exact absurd hj (Nat.not_lt_zero j)
  | succ n ih =>
    cases j with
    | zero => exact ⟨_, rfl, hG.toPrecomp hrow⟩
    | succ j =>
      have hnext : Rep (G.add row base) ((k + 1 + 1) • Q) := by
        rw [succ_nsmul]
        exact hG.add hrow hbase
      obtain ⟨p, hp, hrep⟩ := ih hnext (Nat.lt_of_succ_lt_succ hj)
      refine ⟨p, hp, ?_⟩
      rwa [show k + (j + 1) + 1 = k + 1 + j + 1 by omega]

/-- The entry `k` of the line `i` is `k * 2 ^ (6 * i)` times the generator. -/
theorem precompLines_get {base : Pt} {Q : E} (hbase : Rep base Q) {n i k : ℕ} (hi : i < n)
    (hpos : 0 < k) (hk : k ≤ 32) :
    ∃ p, (precompLines G n base)[32 * i + k - 1]? = some p ∧ PreRep p (k • 2 ^ (6 * i) • Q) := by
  induction n generalizing base Q i with
  | zero => exact absurd hi (Nat.not_lt_zero i)
  | succ n ih =>
    cases i with
    | zero =>
      have hrow : Rep base ((0 + 1) • Q) := by rwa [zero_add, one_nsmul]
      obtain ⟨p, hp, hrep⟩ := precompLine_get hG hbase hrow (show k - 1 < 32 by omega)
      refine ⟨p, ?_, ?_⟩
      · rw [precompLines, List.getElem?_append_left (by rw [length_precompLine]; omega),
          Nat.mul_zero, Nat.zero_add]
        exact hp
      · rwa [show 0 + (k - 1) + 1 = k by omega, ← one_nsmul Q] at hrep
    | succ i =>
      have hnext : Rep (G.dbl^[6] base) (2 ^ 6 • Q) := by
        have hiter := rep_iterate hG.toLawful (z := 1) (by rwa [one_zsmul]) 6
        rw [mul_one] at hiter
        exact_mod_cast hiter
      obtain ⟨p, hp, hrep⟩ := ih hnext (Nat.lt_of_succ_lt_succ hi)
      refine ⟨p, ?_, ?_⟩
      · rw [precompLines, List.getElem?_append_right (by rw [length_precompLine]; omega),
          length_precompLine,
          show 32 * (i + 1) + k - 1 - 32 = 32 * i + k - 1 by omega]
        exact hp
      · have hpow : 2 ^ (6 * (i + 1)) • Q = 2 ^ (6 * i) • 2 ^ 6 • Q := by
          rw [smul_smul, ← pow_add, Nat.mul_succ]
        rwa [hpow]

/-- The state after `j` windows. -/
structure MulgInvariant (MgRep : Mg → E → Prop) (x : ℕ) (Q : E) (j : ℕ)
    (s : MulgState Mg) : Prop where
  line : s.line = 32 * j
  sum : MgRep s.A (((x : ℤ) - 2 ^ (6 * j) * rounded x (6 * j)) • Q)
  inf : s.rIsInf = true → (x : ℤ) - 2 ^ (6 * j) * rounded x (6 * j) = 0

omit [AddCommGroup E] hG in
/-- The sum of the windows below grows by the digit of the next one. -/
theorem partialSum_succ (x j : ℕ) :
    (x : ℤ) - 2 ^ (6 * (j + 1)) * rounded x (6 * (j + 1)) =
      x - 2 ^ (6 * j) * rounded x (6 * j) + digit 6 x (6 * j) * 2 ^ (6 * j) := by
  rw [← sum_digit, ← sum_digit, Finset.sum_range_succ]

theorem mulgStep_ok {generator : Pt} {Q : E} (hgen : Rep generator Q) {n x j : ℕ}
    (hj : j < n) {s : MulgState Mg} (hs : MulgInvariant MgRep x Q j s) :
    ∃ s', (∀ vartime unset unset', mulgStep G vartime unset' (unset :: precompLines G n generator) s
        (digitWord 6 x (6 * j)).1 (digitWord 6 x (6 * j)).2 = .ok s') ∧
        MulgInvariant MgRep x Q (j + 1) s' := by
  have hvalue := @toNat_digitWord 6 (by decide) (by decide) x (6 * j)
  have hsigned := @signedValue_digitWord 6 (by decide) (by decide) x (6 * j)
  have hle := digit_natAbs_le (w := 6) (by decide) x (6 * j)
  have hlength := length_precompLines (G := G) n generator
  have hline : s.line + 32 ≤ (precompLines G n generator).length := by
    rw [hs.line, hlength]
    omega
  generalize hd : digitWord 6 x (6 * j) = d at hvalue hsigned
  have hind : d.1.toNat ≤ 32 := by
    rw [hvalue]
    exact hle
  by_cases hzero : d.1 = 0
  · have hdigit : digit 6 x (6 * j) = 0 := by
      rw [← hsigned, signedValue, hzero]
      split <;> rfl
    have hread : 0 < d.1.toNat →
        (precompLines G n generator)[s.line + d.1.toNat - 1]? = some (G.toPrecomp generator) := by
      intro hpos
      rw [hzero] at hpos
      exact absurd hpos (lt_irrefl 0)
    have hsum := partialSum_succ x j
    rw [hdigit, zero_mul, add_zero] at hsum
    refine ⟨_, fun vartime unset unset' => mulgStep_eq hline hind hread vartime unset', ?_⟩
    rw [if_pos hzero]
    refine ⟨?_, ?_, ?_⟩
    · show s.line + 32 = 32 * (j + 1)
      rw [hs.line]
      ring
    · rw [hsum]
      exact hs.sum
    · rw [hsum]
      exact hs.inf
  · have hpos : 0 < d.1.toNat := by
      rw [Nat.pos_iff_ne_zero]
      intro h
      exact hzero (BitVec.eq_of_toNat_eq h)
    obtain ⟨p, hp, hrep⟩ := precompLines_get hG hgen hj hpos hind
    rw [← hs.line] at hp
    have hneg : PreRep (G.preCndNeg d.2 p) ((digit 6 x (6 * j) * 2 ^ (6 * j)) • Q) := by
      have hflag := hG.preCndNeg d.2 hrep
      have hpow : ((2 : ℤ) ^ (6 * j)) • Q = 2 ^ (6 * j) • Q := by
        rw [← natCast_zsmul]
        push_cast
        rfl
      rw [mul_smul, hpow, ← hsigned, signedValue]
      split_ifs at hflag ⊢
      · rwa [neg_zsmul, natCast_zsmul]
      · rwa [natCast_zsmul]
    have hadd := hG.addPrecomp hs.sum hneg
    rw [← add_zsmul, ← partialSum_succ] at hadd
    refine ⟨_, fun vartime unset unset' => mulgStep_eq hline hind (fun _ => hp) vartime unset', ?_⟩
    rw [if_neg hzero]
    refine ⟨?_, ?_, by rintro ⟨⟩⟩
    · show s.line + 32 = 32 * (j + 1)
      rw [hs.line]
      ring
    · -- up to here all digits were zero where the sum is replaced by the entry itself
      cases hinf : s.rIsInf with
      | false => exact hadd
      | true =>
        have hsame : digit 6 x (6 * j) * 2 ^ (6 * j) =
            x - 2 ^ (6 * (j + 1)) * rounded x (6 * (j + 1)) := by
          rw [partialSum_succ, hs.inf hinf, zero_add]
        rw [hsame] at hneg
        exact hG.mulgAssign hadd hneg

theorem mulgLoop_ok {generator : Pt} {Q : E} (hgen : Rep generator Q) {n x k j : ℕ}
    (hj : j + k = n) {s : MulgState Mg} (hs : MulgInvariant MgRep x Q j s) :
    ∃ s', (∀ vartime unset unset', ((List.range' j k).map (windowAt 6 x)).foldlM
        (fun s e => mulgStep G vartime unset' (unset :: precompLines G n generator) s e.2.1 e.2.2)
          s = .ok s') ∧
      MulgInvariant MgRep x Q n s' := by
  induction k generalizing j s with
  | zero =>
    have hend : j = n := hj
    rw [hend] at hs
    exact ⟨s, fun _ _ _ => rfl, hs⟩
  | succ k ih =>
    obtain ⟨s₁, hstep, hs₁⟩ := mulgStep_ok hG hgen (n := n) (by omega) hs
    obtain ⟨s', hloop, hs'⟩ := ih (by omega) hs₁
    refine ⟨s', ?_, hs'⟩
    intro vartime unset unset'
    rw [List.range'_succ, List.map_cons, List.foldlM_cons]
    show (mulgStep G vartime unset' _ s (digitWord 6 x (6 * j)).1 (digitWord 6 x (6 * j)).2 >>= _) =
      _
    rw [hstep, ok_bind]
    exact hloop vartime unset unset'

theorem curveMulToGenerator_ok {generator : Pt} {Q : E} (hgen : Rep generator Q)
    {x : ℕ} (hx : x < 2 ^ 253) :
    ∃ S, (∀ vartime unset unset', curveMulToGenerator G vartime unset unset' generator 253 x =
      .ok S) ∧ Rep S (x • Q) := by
  have hcount : windowCount 6 253 = 43 := rfl
  have hstart : MulgInvariant MgRep x Q 0 ⟨G.mulgInfinity, 0, true⟩ := by
    have hzero : (x : ℤ) - 2 ^ (6 * 0) * rounded x (6 * 0) = 0 := by
      rw [Nat.mul_zero, rounded_zero]
      ring
    refine ⟨rfl, ?_, fun _ => hzero⟩
    rw [hzero, zero_zsmul]
    exact hG.mulgInfinity
  obtain ⟨s, hloop, hs⟩ := mulgLoop_ok hG hgen (n := 43) (k := 43) (j := 0) rfl hstart
  have hlt : x < 2 ^ 256 := by omega
  have htop : rounded x (6 * 43) = 0 := by
    apply rounded_eq_zero
    omega
  have hsum := hs.sum
  have hinf := hs.inf
  rw [htop, Nat.cast_zero, mul_zero, sub_zero] at hsum hinf
  refine ⟨cndAssign s.rIsInf (G.getXyz s.A) G.infinity, ?_, ?_⟩
  · intro vartime unset unset'
    have hdigits := @make_digits_front 6 (by decide) (by decide) x 253 (by decide) _ rfl
    rw [hcount, List.range_eq_range'] at hdigits
    rw [curveMulToGenerator, make_ok 6 hlt, ok_bind, if_neg Bool.false_ne_true,
      Booth.loop_eq _ hdigits]
    exact congrArg (· >>= _) (hloop vartime unset unset')
  · cases hflag : s.rIsInf with
    | true =>
      have hxz : x = 0 := by exact_mod_cast hinf hflag
      rw [hxz, zero_nsmul]
      exact hG.infinity
    | false =>
      rw [natCast_zsmul] at hsum
      exact hG.getXyz hsum

/-- Multiples of points for all scalars, whichever lookup is taken and whatever the unset entries
are. -/
theorem windowedMul_correct :
    (∀ (P : Pt) (Q : E) (v : ℕ), Rep P Q → v < 2 ^ 256 →
      ∃ S, (∀ vartime R, curveMul G.toGroupOps vartime P v R = .ok S) ∧ Rep S (v • Q)) ∧
    (∀ (generator : Pt) (Q : E) (x : ℕ), Rep generator Q → x < 2 ^ 253 →
      ∃ S, (∀ vartime unset unset', curveMulToGenerator G vartime unset unset' generator 253 x =
        .ok S) ∧ Rep S (x • Q)) ∧
    (∀ (win bits x : ℕ) (back : Bool) (hwin : 0 < win), (win = 5 ∧ bits = 256) ∨
      (win = 6 ∧ bits = 253) → x < 2 ^ bits →
      ∃ l, (Booth.make win x bits back hwin >>= Booth.digits) = .ok l ∧
        (∀ e ∈ l, e.2.1.toNat ≤ 2 ^ (win - 1)) ∧
        (l.map fun e => signedValue e.2 * 2 ^ e.1).sum = x) := by
  refine ⟨?_, ?_, ?_⟩
  · intro P Q v hP hv
    exact curveMul_ok hG.toLawful hP hv
  · intro generator Q x hgen hx
    exact curveMulToGenerator_ok hG hgen hx
  · rintro win bits x back hwin (⟨rfl, rfl⟩ | ⟨rfl, rfl⟩) hx
    · have hcover : 256 < 5 * windowsOf 5 256 back := by cases back <;> decide
      exact digits_sum hwin (by decide) (by decide) (by decide) hx (two_mul_lt_pow hx hcover)
    · have hcover : 253 < 6 * windowsOf 6 253 back := by cases back <;> decide
      exact digits_sum hwin (by decide) (by decide) (by decide) (by omega)
        (two_mul_lt_pow hx hcover)

end MulToGeneratorProof

section EdwardsOps

open Edwards

variable {FE K : Type} [Field K] [Finite K] {d : K} [Complete d] {F : FieldOps FE} {val : FE → K}

/-- A sum whose output is not its second input. -/
def addPoints (F : FieldOps FE) (A B : ProjectivePoint FE) : ProjectivePoint FE :=
  if B.isInfinity F then A else if A.isInfinity F then B else addCore F A B

theorem add_eq_addPoints (F : FieldOps FE) (m : Store FE) {r a b : ℕ} (h : b ≠ r) :
    Store.add F m r a b r = addPoints F (m a) (m b) := by
  simp [add_self, addPoints, h]

def toPrecomp (F : FieldOps FE) (P : ProjectivePoint FE) : Precomp FE :=
  let zi := F.inv P.z
  Precomp.setXY F (F.mul P.x zi) (F.mul P.y zi)

/-- The points of an Edwards curve, with an assignment of a precomputed point that does nothing. -/
def edwardsOps (F : FieldOps FE) :
    GeneratorOps (ProjectivePoint FE) (MulgPoint FE) (Precomp FE) where
  infinity := ProjectivePoint.infinity F
  dbl := dblCore F
  add := addPoints F
  cndNeg flag P := P.cndNeg F flag
  toPrecomp := toPrecomp F
  preCndNeg flag p := p.cndNeg F flag
  mulgInfinity := MulgPoint.infinity F
  addPrecomp := addPrecompInplace F
  mulgAssign A _ := A
  getXyz A := ⟨A.x, A.y, A.z⟩

theorem edwardsOps_lawful (hF : F.Lawful val d) :
    (edwardsOps F).Lawful (E := Point d) (Represents val) (MulgRepresents val) (PrecompOf val) where
  infinity := represents_infinity hF
  dbl h := dblCore_represents hF h
  add {A B P Q} hA hB := by
    have hsum := add_represents hF (m := fun i => if i = 1 then A else B) (a := 1) (b := 2) hA hB 0
    rwa [add_eq_addPoints F _ (by decide)] at hsum
  cndNeg {A P} flag h := by
    cases flag
    · exact h
    · exact represents_neg hF h
  toPrecomp {A P} h := by
    obtain ⟨hz, hx, hy⟩ := h
    apply precompOf_setXY hF
    · rw [hF.mul, hF.inv, hx, mul_inv_cancel_right₀ hz]
    · rw [hF.mul, hF.inv, hy, mul_inv_cancel_right₀ hz]
  preCndNeg flag h := precompOf_cndNeg hF h flag
  mulgInfinity := by
    refine ⟨represents_infinity hF, ?_⟩
    show val F.zero * val F.one = val F.zero * val F.one
    rfl
  addPrecomp hA hp := addPrecompInplace_represents hF hA hp
  mulgAssign hA _ := hA
  getXyz hA := hA.1

/-- The curve over `ZMod 13`, with multiples of its point of order four. -/
theorem windowedMul_correct_sample :
    (∃ S, (∀ vartime R, curveMul (edwardsOps sampleOps).toGroupOps vartime
      (sampleStore 0) 1001 R = .ok S) ∧
      Represents id S (1001 • samplePoint4)) ∧
    ∃ S, (∀ vartime unset unset', curveMulToGenerator (edwardsOps sampleOps) vartime unset unset'
      (sampleStore 0) 253 0 = .ok S) ∧ Represents id S (0 • samplePoint4) := by
  obtain ⟨hmul, hgen, -⟩ :=
    windowedMul_correct (edwardsOps_lawful (FieldOps.exact_lawful (2 : ZMod 13)))
  have hpoint : Represents id (sampleStore 0) samplePoint4 := ⟨by decide, by decide, by decide⟩
  exact ⟨hmul _ _ 1001 hpoint (by norm_num), hgen _ _ 0 hpoint (by norm_num)⟩

end EdwardsOps

end CbMpc
