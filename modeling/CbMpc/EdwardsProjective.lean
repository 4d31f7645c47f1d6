import Mathlib.Tactic.NormNum.Prime
import CbMpc.EdwardsCurve

/-!
# Projective Edwards points

The formulas of `edwards_projective_t` over the operations of a field element. A store keeps the
points of a computation, so that the output of a formula may be one of its inputs.
-/
namespace CbMpc

open Edwards

/-- What the formulas use of a field element. -/
structure FieldOps (FE : Type) where
  zero : FE
  one : FE
  d : FE
  add : FE → FE → FE
  sub : FE → FE → FE
  mul : FE → FE → FE
  sqr : FE → FE
  inv : FE → FE
  isZero : FE → Bool
  eq : FE → FE → Bool

/-- Field elements that stand for those of a field, possibly many for one. -/
structure FieldOps.Lawful {FE K : Type} [Field K] (F : FieldOps FE)
    (val : FE → K) (d : K) : Prop where
  zero : val F.zero = 0
  one : val F.one = 1
  d_eq : val F.d = d
  add : ∀ a b, val (F.add a b) = val a + val b
  sub : ∀ a b, val (F.sub a b) = val a - val b
  mul : ∀ a b, val (F.mul a b) = val a * val b
  sqr : ∀ a, val (F.sqr a) = val a ^ 2
  inv : ∀ a, val (F.inv a) = (val a)⁻¹
  isZero_iff : ∀ a, F.isZero a = true ↔ val a = 0
  eq_iff : ∀ a b, F.eq a b = true ↔ val a = val b

structure ProjectivePoint (FE : Type) where
  x : FE
  y : FE
  z : FE

/-- A point with `t = x * y / z`. -/
structure MulgPoint (FE : Type) where
  x : FE
  y : FE
  z : FE
  t : FE

/-- An affine point in the form that is added to a `MulgPoint`. -/
structure Precomp (FE : Type) where
  yMinusX : FE
  yPlusX : FE
  kt : FE

section Formulas

variable {FE : Type}

def FieldOps.neg (F : FieldOps FE) (a : FE) : FE := F.sub F.zero a

def cndAssign {α : Type} (flag : Bool) (r a : α) : α := if flag then a else r

def ProjectivePoint.isInfinity (F : FieldOps FE) (P : ProjectivePoint FE) : Bool :=
  F.isZero P.x && F.eq P.y P.z

def ProjectivePoint.infinity (F : FieldOps FE) : ProjectivePoint FE := ⟨F.zero, F.one, F.one⟩

def ProjectivePoint.isOnCurve (F : FieldOps FE) (P : ProjectivePoint FE) : Bool :=
  let xx := F.sqr P.x
  let yy := F.sqr P.y
  let zz := F.sqr P.z
  let t := F.sub yy xx
  F.eq (F.mul t zz) (F.add (F.sqr zz) (F.mul (F.mul F.d xx) yy))

def ProjectivePoint.neg (F : FieldOps FE) (P : ProjectivePoint FE) : ProjectivePoint FE :=
  { P with x := F.neg P.x }

def ProjectivePoint.cndNeg (F : FieldOps FE) (flag : Bool)
    (P : ProjectivePoint FE) : ProjectivePoint FE :=
  { P with x := cndAssign flag P.x (F.neg P.x) }

/-- The points of a computation, by the objects that hold them. -/
abbrev Store (FE : Type) := ℕ → ProjectivePoint FE

def Store.setX (m : Store FE) (r : ℕ) (v : FE) : Store FE := Function.update m r { m r with x := v }

def Store.setY (m : Store FE) (r : ℕ) (v : FE) : Store FE := Function.update m r { m r with y := v }

def Store.setZ (m : Store FE) (r : ℕ) (v : FE) : Store FE := Function.update m r { m r with z := v }

/-- `edwards_projective_t::dbl`. -/
def Store.dbl (F : FieldOps FE) (m : Store FE) (r a : ℕ) : Store FE :=
  let tc := F.sqr (m a).x
  let td := F.sqr (m a).y
  let tf := F.sub td tc
  let te := F.sqr (m a).z
  let tb := F.sub tf te
  let tb := F.sub tb te
  let m := m.setX r (F.add (m a).x (m a).y)
  let m := m.setX r (F.sqr (m r).x)
  let m := m.setX r (F.sub (m r).x tc)
  let m := m.setX r (F.sub (m r).x td)
  let m := m.setX r (F.mul (m r).x tb)
  let te := F.neg tc
  let m := m.setY r (F.sub te td)
  let m := m.setY r (F.mul (m r).y tf)
  m.setZ r (F.mul tf tb)

/-- `edwards_projective_t::add`. -/
def Store.add (F : FieldOps FE) (m : Store FE) (r a b : ℕ) : Store FE :=
  let aIsInf := (m a).isInfinity F
  let bIsInf := (m b).isInfinity F
  let save := m a
  let ta := F.mul (m a).z (m b).z
  let tb := F.sqr ta
  let tc := F.mul (m a).x (m b).x
  let td := F.mul (m a).y (m b).y
  let te := F.mul F.d tc
  let te := F.mul te td
  let tf := F.sub tb te
  let te := F.add te tb
  let tb := F.add (m a).x (m a).y
  let m := m.setX r (F.add (m b).x (m b).y)
  let m := m.setX r (F.mul (m r).x tb)
  let m := m.setX r (F.sub (m r).x tc)
  let m := m.setX r (F.sub (m r).x td)
  let m := m.setX r (F.mul (m r).x tf)
  let m := m.setX r (F.mul (m r).x ta)
  let m := m.setY r (F.add td tc)
  let m := m.setY r (F.mul (m r).y te)
  let m := m.setY r (F.mul (m r).y ta)
  let m := m.setZ r (F.mul tf te)
  -- what `b` holds here is the output where both are one object
  let m := m.setX r (cndAssign aIsInf (m r).x (m b).x)
  let m := m.setY r (cndAssign aIsInf (m r).y (m b).y)
  let m := m.setZ r (cndAssign aIsInf (m r).z (m b).z)
  let m := m.setX r (cndAssign bIsInf (m r).x save.x)
  let m := m.setY r (cndAssign bIsInf (m r).y save.y)
  m.setZ r (cndAssign bIsInf (m r).z save.z)

/-- `edwards_projective_t::add_affine_inplace`. -/
def addAffineInplace (F : FieldOps FE) (P : ProjectivePoint FE) (X2 Y2 : FE) : ProjectivePoint FE :=
  let aIsInf := P.isInfinity F
  let B := F.sqr P.z
  let C := F.mul P.x X2
  let D := F.mul P.y Y2
  let E := F.mul F.d C
  let E := F.mul E D
  let F' := F.sub B E
  let G := F.add B E
  let H := F.add P.x P.y
  let X3 := F.add X2 Y2
  let X3 := F.mul X3 H
  let X3 := F.sub X3 C
  let X3 := F.sub X3 D
  let X3 := F.mul X3 P.z
  let X3 := F.mul X3 F'
  let Y3 := F.add D C
  let Y3 := F.mul Y3 P.z
  let Y3 := F.mul Y3 G
  let Z3 := F.mul F' G
  ⟨cndAssign aIsInf X3 X2, cndAssign aIsInf Y3 Y2, cndAssign aIsInf Z3 F.one⟩

def Precomp.setXY (F : FieldOps FE) (x y : FE) : Precomp FE :=
  ⟨F.sub y x, F.add y x, F.mul (F.add F.d F.d) (F.mul y x)⟩

def Precomp.cndNeg (F : FieldOps FE) (flag : Bool) (p : Precomp FE) : Precomp FE :=
  ⟨cndAssign flag p.yMinusX p.yPlusX, cndAssign flag p.yPlusX p.yMinusX,
    cndAssign flag p.kt (F.neg p.kt)⟩

def MulgPoint.infinity (F : FieldOps FE) : MulgPoint FE := ⟨F.zero, F.one, F.one, F.zero⟩

/-- `edwards_projective_t::add_precomp_inplace`. -/
def addPrecompInplace (F : FieldOps FE) (r : MulgPoint FE) (p : Precomp FE) : MulgPoint FE :=
  let a := F.sub r.y r.x
  let a := F.mul a p.yMinusX
  let b := F.add r.y r.x
  let b := F.mul b p.yPlusX
  let c := F.mul r.t p.kt
  let d := F.add r.z r.z
  let e := F.sub b a
  let f := F.sub d c
  let g := F.add d c
  let h := F.add b a
  ⟨F.mul e f, F.mul g h, F.mul f g, F.mul e h⟩

@[simp] theorem setX_self (m : Store FE) (r : ℕ) (v : FE) :
    m.setX r v r = { m r with x := v } := Function.update_self ..

@[simp] theorem setY_self (m : Store FE) (r : ℕ) (v : FE) :
    m.setY r v r = { m r with y := v } := Function.update_self ..

@[simp] theorem setZ_self (m : Store FE) (r : ℕ) (v : FE) :
    m.setZ r v r = { m r with z := v } := Function.update_self ..

theorem setX_of_ne (m : Store FE) {r s : ℕ} (h : s ≠ r) (v : FE) : m.setX r v s = m s :=
  Function.update_of_ne h ..

theorem setY_of_ne (m : Store FE) {r s : ℕ} (h : s ≠ r) (v : FE) : m.setY r v s = m s :=
  Function.update_of_ne h ..

theorem setZ_of_ne (m : Store FE) {r s : ℕ} (h : s ≠ r) (v : FE) : m.setZ r v s = m s :=
  Function.update_of_ne h ..

variable (F : FieldOps FE)

/-- The double of a point without a store. -/
def dblCore (P : ProjectivePoint FE) : ProjectivePoint FE :=
  let tc := F.sqr P.x
  let td := F.sqr P.y
  let tf := F.sub td tc
  let te := F.sqr P.z
  let tb := F.sub (F.sub tf te) te
  ⟨F.mul (F.sub (F.sub (F.sqr (F.add P.x P.y)) tc) td) tb, F.mul (F.sub (F.neg tc) td) tf,
    F.mul tf tb⟩

/-- The sum of two points before the cases of the identity. -/
def addCore (P Q : ProjectivePoint FE) : ProjectivePoint FE :=
  let ta := F.mul P.z Q.z
  let tb := F.sqr ta
  let tc := F.mul P.x Q.x
  let td := F.mul P.y Q.y
  let te := F.mul (F.mul F.d tc) td
  let tf := F.sub tb te
  let tg := F.add te tb
  ⟨F.mul (F.mul (F.sub (F.sub (F.mul (F.add Q.x Q.y) (F.add P.x P.y)) tc) td) tf) ta,
    F.mul (F.mul (F.add td tc) tg) ta, F.mul tf tg⟩

theorem dbl_self (m : Store FE) (r a : ℕ) : Store.dbl F m r a r = dblCore F (m a) := by
  simp [Store.dbl, dblCore]

theorem dbl_of_ne (m : Store FE) {r s : ℕ} (a : ℕ) (h : s ≠ r) : Store.dbl F m r a s = m s := by
  simp [Store.dbl, setX_of_ne, setY_of_ne, setZ_of_ne, h]

theorem add_self (m : Store FE) (r a b : ℕ) :
    Store.add F m r a b r =
      if (m b).isInfinity F then m a
      else if (m a).isInfinity F && decide (b ≠ r) then m b
      else addCore F (m a) (m b) := by
  by_cases hb : b = r
  · subst hb
    cases h : (m b).isInfinity F <;> simp [Store.add, addCore, cndAssign, h]
  · cases h : (m b).isInfinity F <;> cases ha : (m a).isInfinity F <;>
      simp [Store.add, addCore, cndAssign, setX_of_ne, setY_of_ne, setZ_of_ne, h, ha, hb]

theorem add_of_ne (m : Store FE) {r s : ℕ} (a b : ℕ) (h : s ≠ r) : Store.add F m r a b s = m s := by
  simp [Store.add, setX_of_ne, setY_of_ne, setZ_of_ne, h]

end Formulas

section Complete

variable {FE K : Type} [Field K] {d : K} {F : FieldOps FE} {val : FE → K}

/-- Projective coordinates of a point of the curve. -/
def Represents (val : FE → K) (P : ProjectivePoint FE) (Q : Point d) : Prop :=
  val P.z ≠ 0 ∧ val P.x = Q.x * val P.z ∧ val P.y = Q.y * val P.z

/-- Extended coordinates of a point of the curve. -/
def MulgRepresents (val : FE → K) (P : MulgPoint FE) (Q : Point d) : Prop :=
  Represents val ⟨P.x, P.y, P.z⟩ Q ∧ val P.t * val P.z = val P.x * val P.y

/-- The precomputed form of an affine point. -/
def PrecompOf (val : FE → K) (p : Precomp FE) (Q : Point d) : Prop :=
  val p.yMinusX = Q.y - Q.x ∧ val p.yPlusX = Q.y + Q.x ∧ val p.kt = 2 * d * (Q.x * Q.y)

theorem val_neg (hF : F.Lawful val d) (a : FE) : val (F.neg a) = -val a := by
  rw [FieldOps.neg, hF.sub, hF.zero, zero_sub]

theorem isInfinity_iff (hF : F.Lawful val d) {P : ProjectivePoint FE} {Q : Point d}
    (h : Represents val P Q) :
    P.isInfinity F = true ↔ Q = Point.zero := by
  obtain ⟨hz, hx, hy⟩ := h
  rw [ProjectivePoint.isInfinity, Bool.and_eq_true, hF.isZero_iff, hF.eq_iff, hx, hy]
  constructor
  · rintro ⟨h0, h1⟩
    apply Point.ext
    · exact (mul_eq_zero.mp h0).resolve_right hz
    · exact mul_right_cancel₀ hz (h1.trans (one_mul _).symm)
  · rintro rfl
    exact ⟨zero_mul _, one_mul _⟩

theorem isOnCurve_iff (hF : F.Lawful val d) {P : ProjectivePoint FE} (hz : val P.z ≠ 0) :
    P.isOnCurve F = true ↔ ∃ Q : Point d, Represents val P Q := by
  have hcurve : P.isOnCurve F = true ↔ (val P.y ^ 2 - val P.x ^ 2) * val P.z ^ 2 =
      (val P.z ^ 2) ^ 2 + d * val P.x ^ 2 * val P.y ^ 2 := by
    simp only [ProjectivePoint.isOnCurve, hF.eq_iff, hF.mul, hF.sub, hF.add, hF.sqr, hF.d_eq]
  rw [hcurve]
  constructor
  · intro h
    refine ⟨⟨val P.x / val P.z, val P.y / val P.z, ?_⟩, hz, (div_mul_cancel₀ _ hz).symm,
      (div_mul_cancel₀ _ hz).symm⟩
    field_simp
    linear_combination h
  · rintro ⟨Q, -, hx, hy⟩
    rw [hx, hy]
    linear_combination val P.z ^ 4 * Q.onCurve

theorem represents_infinity (hF : F.Lawful val d) :
    Represents val (ProjectivePoint.infinity F) (Point.zero : Point d) := by
  refine ⟨?_, ?_, ?_⟩
  · show val F.one ≠ 0
    rw [hF.one]
    exact one_ne_zero
  · show val F.zero = 0 * val F.one
    rw [hF.zero, zero_mul]
  · exact (one_mul _).symm

theorem represents_neg (hF : F.Lawful val d) {P : ProjectivePoint FE} {Q : Point d}
    (h : Represents val P Q) :
    Represents val (P.neg F) Q.neg := by
  obtain ⟨hz, hx, hy⟩ := h
  refine ⟨hz, ?_, hy⟩
  show val (F.neg P.x) = -Q.x * val P.z
  rw [val_neg hF, hx, neg_mul]

theorem precompOf_setXY (hF : F.Lawful val d) {x y : FE} {Q : Point d}
    (hx : val x = Q.x) (hy : val y = Q.y) :
    PrecompOf val (Precomp.setXY F x y) Q := by
  refine ⟨?_, ?_, ?_⟩
  all_goals simp only [Precomp.setXY, hF.mul, hF.add, hF.sub, hF.d_eq, hx, hy]
  ring

theorem precompOf_cndNeg (hF : F.Lawful val d) {p : Precomp FE} {Q : Point d}
    (hp : PrecompOf val p Q) (flag : Bool) :
    PrecompOf val (p.cndNeg F flag) (if flag then Q.neg else Q) := by
  obtain ⟨hminus, hplus, hkt⟩ := hp
  cases flag
  · exact ⟨hminus, hplus, hkt⟩
  · refine ⟨?_, ?_, ?_⟩
    · show val p.yPlusX = Q.y - -Q.x
      rw [hplus, sub_neg_eq_add]
    · show val p.yMinusX = Q.y + -Q.x
      rw [hminus, sub_eq_add_neg]
    · show val (F.neg p.kt) = 2 * d * (-Q.x * Q.y)
      rw [val_neg hF, hkt]
      ring

variable [Finite K] [Complete d]

/-- Coordinates over the product of the two denominators are those of the sum. -/
theorem represents_add {P Q : Point d} {R : ProjectivePoint FE} {u : K} (hu : u ≠ 0)
    (hx : val R.x = u * ((P.x * Q.y + P.y * Q.x) * (1 - P.cross Q)))
    (hy : val R.y = u * ((P.y * Q.y + P.x * Q.x) * (1 + P.cross Q)))
    (hz : val R.z = u * ((1 + P.cross Q) * (1 - P.cross Q))) : Represents val R (P.add Q) := by
  have hadd := P.one_add_cross_ne_zero Q
  have hsub := P.one_sub_cross_ne_zero Q
  refine ⟨?_, ?_, ?_⟩
  · rw [hz]
    exact mul_ne_zero hu (mul_ne_zero hadd hsub)
  · show val R.x = (P.x * Q.y + P.y * Q.x) / (1 + P.cross Q) * val R.z
    rw [hx, hz]
    field_simp
  · show val R.y = (P.y * Q.y + P.x * Q.x) / (1 - P.cross Q) * val R.z
    rw [hy, hz]
    field_simp

theorem dblCore_represents (hF : F.Lawful val d) {P : ProjectivePoint FE} {Q : Point d}
    (h : Represents val P Q) :
    Represents val (dblCore F P) (Q.add Q) := by
  obtain ⟨hz, hx, hy⟩ := h
  have hcurve : Q.y ^ 2 - Q.x ^ 2 = 1 + Q.cross Q := by
    rw [Point.cross]
    linear_combination Q.onCurve
  apply represents_add (neg_ne_zero.mpr (pow_ne_zero 4 hz))
  all_goals simp only [dblCore, hF.mul, hF.add, hF.sub, hF.sqr, val_neg hF, hx, hy]
  · linear_combination 2 * Q.x * Q.y * val P.z ^ 4 * hcurve
  · linear_combination -(Q.x ^ 2 + Q.y ^ 2) * val P.z ^ 4 * hcurve
  · linear_combination val P.z ^ 4 * (Q.y ^ 2 - Q.x ^ 2 - 2 + 1 + Q.cross Q) * hcurve

theorem addCore_represents (hF : F.Lawful val d) {A B : ProjectivePoint FE} {P Q : Point d}
    (hA : Represents val A P) (hB : Represents val B Q) :
    Represents val (addCore F A B) (P.add Q) := by
  obtain ⟨hz, hx, hy⟩ := hA
  obtain ⟨hz', hx', hy'⟩ := hB
  apply represents_add (pow_ne_zero 4 (mul_ne_zero hz hz'))
  all_goals
    simp only [addCore, hF.mul, hF.add, hF.sub, hF.sqr, hF.d_eq, hx, hy, hx', hy', Point.cross]
    ring

theorem addAffineInplace_represents (hF : F.Lawful val d) {A : ProjectivePoint FE}
    {X2 Y2 : FE} {P Q : Point d} (hA : Represents val A P) (hX : val X2 = Q.x) (hY : val Y2 = Q.y) :
    Represents val (addAffineInplace F A X2 Y2) (P.add Q) := by
  cases hinf : A.isInfinity F with
  | true =>
    rw [(isInfinity_iff hF hA).mp hinf, Point.zero_add]
    simp only [addAffineInplace, hinf, cndAssign, if_true, Represents, hF.one, hX, hY, mul_one]
    exact ⟨one_ne_zero, trivial, trivial⟩
  | false =>
    obtain ⟨hz, hx, hy⟩ := hA
    simp only [addAffineInplace, hinf, cndAssign, Bool.false_eq_true, if_false]
    apply represents_add (pow_ne_zero 4 hz)
    all_goals
      simp only [hF.mul, hF.add, hF.sub, hF.sqr, hF.d_eq, hx, hy, hX, hY, Point.cross]
      ring

theorem addPrecompInplace_represents (hF : F.Lawful val d) {A : MulgPoint FE}
    {p : Precomp FE} {P Q : Point d} (hA : MulgRepresents val A P) (hp : PrecompOf val p Q) :
    MulgRepresents val (addPrecompInplace F A p) (P.add Q) := by
  obtain ⟨⟨hz, hx, hy⟩, ht⟩ := hA
  obtain ⟨hminus, hplus, hkt⟩ := hp
  dsimp only at hz hx hy
  have htz : val A.t = P.x * P.y * val A.z := by
    apply mul_right_cancel₀ hz
    rw [ht, hx, hy]
    ring
  have htwo : (2 : K) ≠ 0 := Complete.two_ne_zero (d := d)
  constructor
  · apply represents_add (mul_ne_zero (pow_ne_zero 2 htwo) (pow_ne_zero 2 hz))
    all_goals
      simp only [addPrecompInplace, hF.mul, hF.add, hF.sub, hx, hy, htz, hminus, hplus, hkt,
        Point.cross]
      ring
  · simp only [addPrecompInplace, hF.mul]
    ring

theorem add_represents (hF : F.Lawful val d) {m : Store FE} {a b : ℕ} {P Q : Point d}
    (hA : Represents val (m a) P) (hB : Represents val (m b) Q) (r : ℕ) :
    Represents val (Store.add F m r a b r) (P.add Q) := by
  rw [add_self]
  split_ifs with hb ha
  · rwa [(isInfinity_iff hF hB).mp hb, Point.add_comm, Point.zero_add]
  · rw [Bool.and_eq_true] at ha
    rwa [(isInfinity_iff hF hA).mp ha.1, Point.zero_add]
  · exact addCore_represents hF hA hB

theorem edwardsFormulas_complete (hF : F.Lawful val d) :
    (∀ (m : Store FE) (r a : ℕ) (P : Point d), Represents val (m a) P →
      Represents val (Store.dbl F m r a r) (P.add P) ∧ ∀ s ≠ r, Store.dbl F m r a s = m s) ∧
    (∀ (m : Store FE) (r a b : ℕ) (P Q : Point d), Represents val (m a) P → Represents val (m b) Q →
      Represents val (Store.add F m r a b r) (P.add Q) ∧ ∀ s ≠ r, Store.add F m r a b s = m s) ∧
    (∀ (A : ProjectivePoint FE) (X2 Y2 : FE) (P Q : Point d), Represents val A P →
      val X2 = Q.x → val Y2 = Q.y →
      Represents val (addAffineInplace F A X2 Y2) (P.add Q)) ∧
    (∀ (A : MulgPoint FE) (p : Precomp FE) (P Q : Point d),
      MulgRepresents val A P → PrecompOf val p Q →
      MulgRepresents val (addPrecompInplace F A p) (P.add Q)) := by
  refine ⟨?_, ?_, ?_, ?_⟩
  · intro m r a P hP
    refine ⟨?_, fun s hs => dbl_of_ne F m a hs⟩
    rw [dbl_self]
    exact dblCore_represents hF hP
  · intro m r a b P Q hP hQ
    exact ⟨add_represents hF hP hQ r, fun s hs => add_of_ne F m a b hs⟩
  · intro A X2 Y2 P Q hA hX hY
    exact addAffineInplace_represents hF hA hX hY
  · intro A p P Q hA hp
    exact addPrecompInplace_represents hF hA hp

end Complete

/-- The operations of a field itself. -/
def FieldOps.exact {K : Type} [Field K] [DecidableEq K] (d : K) : FieldOps K where
  zero := 0
  one := 1
  d := d
  add a b := a + b
  sub a b := a - b
  mul a b := a * b
  sqr a := a ^ 2
  inv a := a⁻¹
  isZero a := decide (a = 0)
  eq a b := decide (a = b)

theorem FieldOps.exact_lawful {K : Type} [Field K] [DecidableEq K] (d : K) :
    (FieldOps.exact d).Lawful id d where
  zero := rfl
  one := rfl
  d_eq := rfl
  add _ _ := rfl
  sub _ _ := rfl
  mul _ _ := rfl
  sqr _ := rfl
  inv _ := rfl
  isZero_iff _ := decide_eq_true_iff
  eq_iff _ _ := decide_eq_true_iff

section Examples

instance factPrime13 : Fact (Nat.Prime 13) := ⟨by norm_num⟩

instance complete13 : Complete (2 : ZMod 13) where
  nonsquare := by
    rintro ⟨r, hr⟩
    revert r
    decide
  neg_one := ⟨5, by decide⟩

/-- A point of order four. -/
def samplePoint4 : Point (2 : ZMod 13) := ⟨5, 0, by decide⟩

def sampleOps : FieldOps (ZMod 13) := FieldOps.exact 2

def sampleStore : Store (ZMod 13) := fun _ => ⟨2, 0, 3⟩

/-- The sum of the point with itself, in its own place. -/
theorem edwardsFormulas_complete_sample :
    Represents id (Store.add (FieldOps.exact 2) sampleStore 0 0 0 0)
      (samplePoint4.add samplePoint4) ∧
    Represents id (Store.dbl (FieldOps.exact 2) sampleStore 0 0 0) (samplePoint4.add samplePoint4) ∧
    Represents id (addAffineInplace (FieldOps.exact 2) ⟨2, 0, 3⟩ 5 0)
      (samplePoint4.add samplePoint4) ∧
    MulgRepresents id (addPrecompInplace (FieldOps.exact 2) ⟨2, 0, 3, 0⟩
      (Precomp.setXY (FieldOps.exact 2) 5 0))
      (samplePoint4.add samplePoint4) := by
  obtain ⟨hdbl, hadd, haffine, hprecomp⟩ :=
    edwardsFormulas_complete (FieldOps.exact_lawful (2 : ZMod 13))
  have hpoint : Represents id (⟨2, 0, 3⟩ : ProjectivePoint (ZMod 13)) samplePoint4 :=
    ⟨by decide, by decide, by decide⟩
  refine ⟨(hadd sampleStore 0 0 0 _ _ hpoint hpoint).1, (hdbl sampleStore 0 0 _ hpoint).1,
    haffine _ _ _ _ _ hpoint rfl rfl, ?_⟩
  exact hprecomp _ _ _ _ ⟨hpoint, by decide⟩ (precompOf_setXY (FieldOps.exact_lawful 2) rfl rfl)

end Examples

end CbMpc
