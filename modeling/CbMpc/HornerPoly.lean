import CbMpc.Bn256
import CbMpc.Curve
import CbMpc.LagrangeInt

/-!
# Horner's rule in its variants

`horner_poly` for `bn_t`, for `bn256_t` and for points, and `horner_poly_small_vartime` for points
and an `int`. All run one loop, and differ in the step that multiplies and adds. On words the
products are those of Barrett's method, so the value is the polynomial's unless one of them loses a
word.
-/
namespace CbMpc

open WordArray Uint256 Interpolation

/-- The loop of `horner_poly`, over the step from `b` to `a[i] + b * x`. -/
def hornerLoop {α : Type} (step : α → α → Outcome α) (a : List α) : Outcome α := do
  cbAssert (!a.isEmpty)
  match (counted a).reverse with
  | [] => throwing .outOfBounds
  | last :: rest => rest.foldlM (fun b ai => step ai b) last

/-- `mod_t::_add` on words. The sum has as many words as the modulus. -/
def addWords (m : ℕ) (a b : List Limb) : Outcome (List Limb) := do
  cbAssert (decide (value a < m))
  cbAssert (decide (value b < m))
  .ok (ofNat 64 (wordCount 64 m) ((value a + value b) % m))

/-- `horner_poly` for `bn_t`. -/
def hornerPolyWords (q : ℕ) (a : List (List Limb)) (x : List Limb) : Outcome (List Limb) :=
  hornerLoop (fun ai b => do
    let product ← mulWords q b x
    addWords q ai product) a

/-- `horner_poly` for `bn_t` inside a `vartime_scope_t`. -/
def hornerPolyVartime (q : ℕ) (a : List ℤ) (x : ℤ) : Outcome ℤ :=
  hornerLoop (fun ai b => do
    let product ← modMul true q b x
    modAdd true q ai product) a

/-- `horner_poly` for `bn256_t`. -/
def hornerPoly256 (mod : Bn256Mod) (a : List Uint256) (x : Uint256) : Outcome Uint256 :=
  hornerLoop (fun ai b => .ok (addMod mod ai (mulMod256 mod b x))) a

section Points

variable {q : ℕ} {E : Type} [AddCommGroup E]

/-- `horner_poly` for points. -/
def hornerPolyPoint [Module (ZMod q) E] (curve : Curve q E) (A : List E) (x : ℤ) : Outcome E :=
  hornerLoop (fun Ai B => do
    let product ← curve.mul x B
    .ok (Ai + product)) A

/-- The loop of `small_mul_vartime`. -/
def smallMulLoop (magnitude : BitVec 32) (doubled result : E) : E :=
  if magnitude = 0#32 then result
  else smallMulLoop (magnitude >>> 1) (doubled + doubled)
    (if magnitude.getLsbD 0 then result + doubled else result)
termination_by magnitude.toNat
decreasing_by
  rename_i h
  have hpos : magnitude.toNat ≠ 0 := fun h0 => h (BitVec.eq_of_toNat_eq h0)
  rw [BitVec.toNat_ushiftRight, Nat.shiftRight_eq_div_pow]
  omega

/-- `small_mul_vartime`. -/
def smallMulVartime (magnitude : BitVec 32) (P : E) : E := smallMulLoop magnitude P 0

/-- `horner_poly_small_vartime`, where `x` is an `int` and its magnitude an `unsigned`. -/
def hornerPolySmallVartime (A : List E) (x : BitVec 32) : Outcome E :=
  let negative := decide (x.toInt < 0)
  let magnitude := if negative then 0#32 - x else x
  hornerLoop (fun Ai B =>
    let product := smallMulVartime magnitude B
    .ok (if negative then Ai - product else Ai + product)) A

end Points

/-! ## The loop -/

/-- The loop from the highest coefficient down, as a recursion on the lowest one. -/
def hornerRec {α : Type} (step : α → α → Outcome α) : List α → Outcome α
  | [] => throwing .assertionFailed
  | [a] => .ok a
  | a :: b :: rest => do
    let acc ← hornerRec step (b :: rest)
    step a acc

theorem hornerRec_eq_foldlM {α : Type} (step : α → α → Outcome α) {a : List α} (ha : a ≠ []) :
    ∃ last rest, a.reverse = last :: rest ∧
    rest.foldlM (fun b ai => step ai b) last = hornerRec step a := by
  induction a with
  | nil => exact absurd rfl ha
  | cons a l ih =>
    cases l with
    | nil => exact ⟨a, [], rfl, rfl⟩
    | cons b l =>
      obtain ⟨last, rest, hrev, hfold⟩ := ih (List.cons_ne_nil b l)
      refine ⟨last, rest ++ [a], ?_, ?_⟩
      · rw [List.reverse_cons, hrev, List.cons_append]
      · rw [List.foldlM_append, hfold, hornerRec]
        congr 1
        funext acc
        exact bind_pure (step a acc)

theorem hornerLoop_eq_hornerRec {α : Type} (step : α → α → Outcome α) {a : List α}
    (hlen : a.length ≤ intMax) :
    hornerLoop step a = hornerRec step a := by
  cases a with
  | nil => rfl
  | cons c l =>
    obtain ⟨last, rest, hrev, hfold⟩ := hornerRec_eq_foldlM step (List.cons_ne_nil c l)
    rw [← hfold, hornerLoop, counted_eq hlen, hrev]
    rfl

/-- Values that stand for coefficients yield a value that stands for the polynomial's, when each
step does. The steps are those of the nonempty proper suffixes. -/
theorem hornerLoop_spec {α F M : Type} [Field F] [AddCommGroup M] [Module F M] {Rep : α → M → Prop}
    {step : α → α → Outcome α} {x : F} {a : List α} {c : List M}
    (hrep : List.Forall₂ Rep a c) (hne : c ≠ []) (hlen : c.length ≤ intMax)
    (hstep : ∀ ai ci b rest, rest ≠ [] → ci :: rest <:+ c → Rep ai ci → Rep b (horner rest x) →
      ∃ r, step ai b = .ok r ∧ Rep r (ci + x • horner rest x)) :
    ∃ r, hornerLoop step a = .ok r ∧ Rep r (horner c x) := by
  rw [hornerLoop_eq_hornerRec step (hrep.length_eq ▸ hlen)]
  clear hlen
  induction hrep with
  | nil => exact absurd rfl hne
  | @cons ai ci a c hhead htail ih =>
    cases htail with
    | nil =>
      refine ⟨ai, rfl, ?_⟩
      rw [horner_cons, horner_nil, smul_zero, add_zero]
      exact hhead
    | @cons bi di a c hbi htail =>
      obtain ⟨b, hb, hrepb⟩ := ih (List.cons_ne_nil _ _) fun ai ci b rest hrest hsuffix =>
        hstep ai ci b rest hrest (hsuffix.trans (List.suffix_cons _ _))
      obtain ⟨r, hr, hrepr⟩ := hstep ai ci b (di :: c) (List.cons_ne_nil _ _)
        List.suffix_rfl hhead hrepb
      refine ⟨r, ?_, hrepr⟩
      rw [hornerRec, hb, ok_bind, hr]

/-- A step that is exact on all values. -/
theorem hornerLoop_eq {F M : Type} [Field F] [AddCommGroup M] [Module F M]
    {step : M → M → Outcome M} {x : F} {a : List M} (hne : a ≠ []) (hlen : a.length ≤ intMax)
    (hstep : ∀ ai b, step ai b = .ok (ai + x • b)) :
    hornerLoop step a = .ok (horner a x) := by
  obtain ⟨r, hr, rfl⟩ := @hornerLoop_spec M F M _ _ _ (fun r m => r = m) step x a a
    (List.forall₂_refl a) hne hlen
    fun ai ci b rest _ _ hai hb => ⟨_, hstep ai b, by rw [hai, hb]⟩
  exact hr

/-! ## Points -/

section Points

variable {q : ℕ} {E : Type} [AddCommGroup E]

theorem toNat_eq_shift (magnitude : BitVec 32) :
    magnitude.toNat = 2 * (magnitude >>> 1).toNat + (magnitude.getLsbD 0).toNat := by
  have hbit : (magnitude.getLsbD 0).toNat = magnitude.toNat % 2 := by
    rw [BitVec.getLsbD, Nat.testBit_zero]
    rcases Nat.mod_two_eq_zero_or_one magnitude.toNat with h | h <;> simp [h]
  rw [BitVec.toNat_ushiftRight, Nat.shiftRight_eq_div_pow, hbit]
  omega

theorem smallMulLoop_eq (magnitude : BitVec 32) (doubled result : E) :
    smallMulLoop magnitude doubled result = result + magnitude.toNat • doubled := by
  induction magnitude, doubled, result using smallMulLoop.induct with
  | case1 doubled result =>
    rw [smallMulLoop, if_pos rfl, BitVec.toNat_ofNat, Nat.zero_mod, zero_smul, add_zero]
  | case2 magnitude doubled result h ih =>
    have htwice : (2 * (magnitude >>> 1).toNat) • doubled =
        (magnitude >>> 1).toNat • (doubled + doubled) := by
      rw [mul_comm, mul_nsmul', two_nsmul]
    rw [dite_eq_ite] at ih
    rw [smallMulLoop, if_neg h, ih, toNat_eq_shift magnitude, add_nsmul, htwice]
    cases magnitude.getLsbD 0 with
    | false => simp
    | true =>
      rw [if_pos rfl, Bool.toNat_true, one_nsmul]
      abel

theorem smallMulVartime_eq (magnitude : BitVec 32) (P : E) :
    smallMulVartime magnitude P = magnitude.toNat • P := by
  rw [smallMulVartime, smallMulLoop_eq, zero_add]

/-- The negative values wrap to their magnitude, the least one included. -/
theorem toNat_magnitude (x : BitVec 32) :
    (((if decide (x.toInt < 0) then 0#32 - x else x).toNat : ℕ) : ℤ) = if x.toInt < 0 then
      -x.toInt else x.toInt := by
  have hlt := x.isLt
  have hcond := x.toInt_eq_toNat_cond
  by_cases h : x.toInt < 0
  · rw [decide_eq_true h, if_pos rfl, if_pos h, BitVec.toNat_sub, BitVec.toNat_ofNat]
    split_ifs at hcond <;> omega
  · rw [decide_eq_false h, if_neg Bool.false_ne_true, if_neg h]
    split_ifs at hcond <;> omega

variable [Fact q.Prime] [Module (ZMod q) E]

theorem hornerPolyPoint_eq (curve : Curve q E) {A : List E} (hne : A ≠ [])
    (hlen : A.length ≤ intMax) {x : ℤ} (hx : isInRange q x = true) :
    hornerPolyPoint curve A x = .ok (horner A (x : ZMod q)) := by
  apply hornerLoop_eq hne hlen
  intro Ai B
  rw [mul_of_isInRange curve hx, ok_bind]

theorem hornerPolySmallVartime_eq {A : List E} (hne : A ≠ [])
    (hlen : A.length ≤ intMax) (x : BitVec 32) :
    hornerPolySmallVartime A x = .ok (horner A (x.toInt : ZMod q)) := by
  apply hornerLoop_eq hne hlen
  intro Ai B
  have hmagnitude := toNat_magnitude x
  simp only [smallMulVartime_eq]
  generalize (if decide (x.toInt < 0) then 0#32 - x else x).toNat = n at hmagnitude
  rw [← Nat.cast_smul_eq_nsmul ℤ, hmagnitude, Int.cast_smul_eq_zsmul]
  by_cases h : x.toInt < 0
  · rw [if_pos h, decide_eq_true h, if_pos rfl, neg_zsmul, sub_neg_eq_add]
  · rw [if_neg h, decide_eq_false h, if_neg Bool.false_ne_true]

end Points

/-! ## Scalars -/

section Scalars

variable {q : ℕ} [hq : Fact q.Prime]

theorem hornerPolyVartime_eq {a : List (ZMod q)} (hne : a ≠ [])
    (hlen : a.length ≤ intMax) (x : ZMod q) :
    hornerPolyVartime q (a.map residue) (residue x) = .ok (residue (horner a x)) := by
  have hrep : List.Forall₂ (fun (n : ℤ) (z : ZMod q) => n = residue z) (a.map residue) a :=
    List.forall₂_map_left_iff.mpr (List.forall₂_same.mpr fun z _ => rfl)
  have hloop : ∃ r, hornerPolyVartime q (a.map residue) (residue x) = .ok r ∧
      r = residue (horner a x) := by
    apply hornerLoop_spec hrep hne hlen
    intro ai ci b rest _ _ hai hb
    refine ⟨_, ?_, rfl⟩
    rw [hai, hb, modMul_residue, ok_bind, modAdd_residue, smul_eq_mul, mul_comm]
  obtain ⟨r, hr, rfl⟩ := hloop
  exact hr

/-- No product of the evaluation loses a word. The factors are the values of the nonempty proper
suffixes. -/
def LosesNoWord (a : List (ZMod q)) (x : ZMod q) : Prop :=
  ∀ ci rest, rest ≠ [] → ci :: rest <:+ a → ¬Dropped q ((horner rest x).val * x.val)

/-- Words that stand for a residue. -/
structure WordsOf (w : List Limb) (z : ZMod q) : Prop where
  value_eq : value w = z.val
  length_le : w.length ≤ wordCount 64 q

/-- A `bn256_t` that stands for a residue. -/
structure Words256Of (w : Uint256) (z : ZMod q) : Prop where
  value_eq : value w.words = z.val

theorem WordsOf.value_lt {w : List Limb} {z : ZMod q} (h : WordsOf w z) : value w < q :=
  h.value_eq.trans_lt (ZMod.val_lt z)

/-- `mod_t::_mul` on words that stand for residues. -/
theorem WordsOf.multipliesTo_iff (hvalid : isValidModulus q = true) {b xw : List Limb}
    {z x : ZMod q} (hb : WordsOf b z) (hx : WordsOf xw x) :
    MultipliesTo q b xw ↔ ¬Dropped q (z.val * x.val) := by
  have hlimbs := length_limbs q
  have hiff := CbMpc.multipliesTo_iff hvalid hb.value_lt hx.value_lt
    (hlimbs ▸ hb.length_le) (hlimbs ▸ hx.length_le)
  rwa [hb.value_eq, hx.value_eq] at hiff

theorem val_horner_step (a b x : ZMod q) : (a + x • b).val = (a.val + b.val * x.val % q) % q := by
  rw [smul_eq_mul, mul_comm, ZMod.val_add, ZMod.val_mul]

theorem hornerStepWords_spec (hvalid : isValidModulus q = true) {ai b xw : List Limb}
    {ci z x : ZMod q} (hai : WordsOf ai ci) (hb : WordsOf b z) (hx : WordsOf xw x)
    (hd : ¬Dropped q (z.val * x.val)) :
    ∃ r, (mulWords q b xw >>= fun product => addWords q ai product) = .ok r ∧
    WordsOf r (ci + x • z) := by
  obtain ⟨p, hp, hval⟩ := (hb.multipliesTo_iff hvalid hx).mpr hd
  have hplt : value p < q := hval.trans_lt (Nat.mod_lt _ hq.out.pos)
  have hsum : (value ai + value p) % q < 2 ^ (64 * wordCount 64 q) :=
    (Nat.mod_lt _ hq.out.pos).trans (lt_two_pow_wordCount (by norm_num) q)
  refine ⟨ofNat 64 (wordCount 64 q) ((value ai + value p) % q), ?_, ?_, ?_⟩
  · rw [hp, ok_bind, addWords, decide_eq_true hai.value_lt, cbAssert_true, ok_bind,
      decide_eq_true hplt, cbAssert_true, ok_bind]
  · rw [value_ofNat_of_lt hsum, hval, hai.value_eq, hb.value_eq, hx.value_eq, val_horner_step]
  · rw [length_ofNat]

theorem hornerPolyWords_spec (hvalid : isValidModulus q = true)
    {w : List (List Limb)} {a : List (ZMod q)} (hw : List.Forall₂ WordsOf w a) (hne : a ≠ [])
    (hlen : a.length ≤ intMax) {xw : List Limb} {x : ZMod q} (hx : WordsOf xw x)
    (hloses : LosesNoWord a x) : ∃ r, hornerPolyWords q w xw = .ok r ∧ WordsOf r (horner a x) := by
  apply hornerLoop_spec hw hne hlen
  intro ai ci b rest hrest hsuffix hai hb
  exact hornerStepWords_spec hvalid hai hb hx (hloses ci rest hrest hsuffix)

theorem hornerPoly256_spec (hm : Modulus256 q) {w : List Uint256} {a : List (ZMod q)}
    (hw : List.Forall₂ Words256Of w a) (hne : a ≠ []) (hlen : a.length ≤ intMax) {xw : Uint256}
    {x : ZMod q} (hx : Words256Of xw x) (hloses : LosesNoWord a x) :
    ∃ r, hornerPoly256 (Bn256Mod.make q) w xw = .ok r ∧ Words256Of r (horner a x) := by
  apply hornerLoop_spec hw hne hlen
  intro ai ci b rest hrest hsuffix hai hb
  have hmul := value_mulMod256 hm b xw
  rw [hb.value_eq, hx.value_eq, if_neg (hloses ci rest hrest hsuffix)] at hmul
  refine ⟨_, rfl, ⟨?_⟩⟩
  rw [value_addMod hm, hmul, hai.value_eq, val_horner_step]
  · rw [hai.value_eq]
    exact ZMod.val_lt _
  · rw [hmul]
    exact Nat.mod_lt _ hq.out.pos

theorem wordsOf_limbs {n : ℕ} (hn : n < q) : WordsOf (limbs n) (n : ZMod q) := by
  constructor
  · rw [value_limbs, ZMod.val_natCast_of_lt hn]
  · rw [length_limbs]
    exact wordCount_le (by norm_num) (hn.trans (lt_two_pow_wordCount (by norm_num) q))

/-- With two coefficients there is one product. -/
theorem losesNoWord_pair (c z x : ZMod q) : LosesNoWord [c, z] x ↔ ¬Dropped q (z.val * x.val) := by
  have hvalue : horner [z] x = z := by simp
  constructor
  · intro h
    have hd := h c [z] (List.cons_ne_nil z []) List.suffix_rfl
    rwa [hvalue] at hd
  · intro hd ci rest hrest hsuffix
    have hlen := hsuffix.length_le
    have hpos := List.length_pos_of_ne_nil hrest
    have hpair : ci :: rest = [c, z] :=
      hsuffix.eq_of_length (by simp only [List.length_cons, List.length_nil] at *; omega)
    obtain rfl := (List.cons.inj hpair).2
    rwa [hvalue]

/-- The sum tells what the product was. -/
theorem eq_mod_of_add_mod {m p c n : ℕ} (hp : p < m) (h : (c + p) % m = (c + n % m) % m) :
    p = n % m := by
  have hmod : p ≡ n % m [MOD m] := Nat.ModEq.add_left_cancel' c h
  rwa [Nat.ModEq, Nat.mod_mod, Nat.mod_eq_of_lt hp] at hmod

/-- The value of a polynomial of two coefficients is right only where its product is. -/
theorem not_dropped_of_hornerPolyWords (hvalid : isValidModulus q = true)
    {a b xw r : List Limb} {c z x : ZMod q} (ha : WordsOf a c) (hb : WordsOf b z)
    (hx : WordsOf xw x) (h : hornerPolyWords q [a, b] xw = .ok r)
    (hr : WordsOf r (horner [c, z] x)) : ¬Dropped q (z.val * x.val) := by
  have hloop : hornerPolyWords q [a, b] xw = mulWords q b xw >>=
      fun product => addWords q a product :=
    hornerLoop_eq_hornerRec _ (by decide : 2 ≤ intMax)
  have hvalue : horner [z] x = z := by simp
  rw [hloop] at h
  obtain ⟨p, hp, hadd⟩ := bind_ok_iff.mp h
  obtain ⟨-, hadd⟩ := cbAssert_bind_ok_iff.mp hadd
  obtain ⟨hlt, hadd⟩ := cbAssert_bind_ok_iff.mp hadd
  have hsum : (value a + value p) % q < 2 ^ (64 * wordCount 64 q) :=
    (Nat.mod_lt _ hq.out.pos).trans (lt_two_pow_wordCount (by norm_num) q)
  have hval := hr.value_eq
  rw [← Except.ok.inj hadd, value_ofNat_of_lt hsum, horner_cons, hvalue, val_horner_step,
    ← ha.value_eq, ← hb.value_eq, ← hx.value_eq] at hval
  exact (hb.multipliesTo_iff hvalid hx).mp ⟨p, hp, eq_mod_of_add_mod (of_decide_eq_true hlt) hval⟩

theorem not_dropped_of_hornerPoly256 (hm : Modulus256 q) {a b xw r : Uint256}
    {c z x : ZMod q} (ha : Words256Of a c) (hb : Words256Of b z) (hx : Words256Of xw x)
    (h : hornerPoly256 (Bn256Mod.make q) [a, b] xw = .ok r) (hr : Words256Of r (horner [c, z] x)) :
    ¬Dropped q (z.val * x.val) := by
  have hloop : hornerPoly256 (Bn256Mod.make q) [a, b] xw =
      .ok (addMod (Bn256Mod.make q) a (mulMod256 (Bn256Mod.make q) b xw)) :=
    hornerLoop_eq_hornerRec _ (by decide : 2 ≤ intMax)
  have hvalue : horner [z] x = z := by simp
  have hmul := value_mulMod256 hm b xw
  rw [hb.value_eq, hx.value_eq] at hmul
  have hlt : value (mulMod256 (Bn256Mod.make q) b xw).words < q := by
    rw [hmul]
    have hmod := Nat.mod_lt (z.val * x.val) hq.out.pos
    have hq256 := hm.lt
    split_ifs <;> omega
  have hval := hr.value_eq
  rw [← Except.ok.inj (hloop.symm.trans h),
    value_addMod hm (ha.value_eq.trans_lt (ZMod.val_lt c)) hlt, horner_cons, hvalue,
    val_horner_step, ha.value_eq] at hval
  intro hd
  have hproduct := eq_mod_of_add_mod hlt hval
  rw [hmul, if_pos hd] at hproduct
  have hne := dropped_ne hd
  rw [hm.wordCount] at hne
  omega

end Scalars

end CbMpc
