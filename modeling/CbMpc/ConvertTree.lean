import CbMpc.Convert
import CbMpc.AccessStructure

/-!
# Conversion of access structures

A tree is written parents first, and both modes stop at a node below level 64 by
setting the error flag. The reader reports it; `ser` does not look at the flag of
the writer, and returns the bytes written so far.
-/
namespace CbMpc

open Node ReadM WriteM

/-- `MAX_AC_TREE_LEVEL`; the root is at level 1. -/
def maxAcTreeLevel : ℕ := 64

/-- `int(type)`. -/
def nodeTypeWord : NodeType → Word .w32
  | .none => 0
  | .leaf => 1
  | .and => 2
  | .or => 3
  | .threshold => 4

/-- `node_e(temp)`; a value outside of the enumeration is as invalid as `NONE`. -/
def wordNodeType (w : Word .w32) : NodeType :=
  if w = 1 then .leaf
  else if w = 2 then .and
  else if w = 3 then .or
  else if w = 4 then .threshold
  else .none

/-- The rest of `convert(first, last...)`. -/
def writeRest (x : WriteM Unit) : WriteM Unit := do
  if ← WriteM.isError then
    return
  else
    x

def readRest {α : Type} (default : α) (x : ReadM α) : ReadM α := do
  if ← ReadM.isError then
    return default
  else
    x

/-- The loop over the children, which is left at the first error. -/
def writeChildren : List (WriteM Unit) → WriteM Unit
  | [] => return
  | c :: cs => do
    c
    writeRest (writeChildren cs)

def readChildren (x : ReadM Node) : ℕ → ReadM (List Node)
  | 0 => return []
  | n + 1 => do
    let child ← x
    readRest [] do
      let children ← readChildren x n
      return child :: children

/-- The body of `node_t::convert_node` when writing. -/
def writeNode (type : NodeType) (name : PName) (threshold : ℤ)
    (children : List (PName × (ℕ → WriteM Unit))) (level : ℕ) : WriteM Unit := do
  if maxAcTreeLevel < level then
    WriteM.setError .format
  else
    writeUint (nodeTypeWord type)
    writeString name
    writeRest (writeUint (BitVec.ofInt _ threshold : Word .w32))
    writeLen children.length
    writeChildren (children.map (fun c => c.2 (level + 1)))

/-- `node_t::convert_node` when reading, where `levels` more levels are allowed. -/
def readNode : ℕ → ReadM Node
  | 0 => do
    ReadM.setError .format
    return mk .none [] 0 []
  | levels + 1 => do
    let type ← readUint .w32
    let name ← readString
    let threshold ← readRest 0 (readUint .w32)
    let n ← readLen
    let children ← readChildren (readNode levels) n
    return mk (wordNodeType type) name threshold.toInt children

section Ac

variable (L : CurveTable)

/-- `ac_owned_t::convert`. -/
def writeAc (ac : AcOwned L.Curve) : WriteM Unit := do
  writeBool ac.root.isSome
  match ac.root with
  | none => return
  | some root => do
    writeCurve L ac.curve
    root.fold writeNode 1

/-- `ac_owned_t::convert` into a new object. -/
def readAc : ReadM (AcOwned L.Curve) := do
  let isPresent ← readBool
  if !isPresent then
    return ⟨none, none⟩
  else
    let curve ← readCurve L
    if curve.isNone then
      ReadM.setError .format
      return ⟨none, none⟩
    else
      let root ← readNode maxAcTreeLevel
      if ← ReadM.isError then
        return ⟨curve, none⟩
      else
        match root.validateTree with
        | .ok _ => return ⟨curve, some root⟩
        | .error (.code rv) => do
          ReadM.setError rv
          return ⟨curve, none⟩
        | .error (.thrown e) => throw (.thrown e)

end Ac

/-- The bytes of a tree. -/
def encNode (t : Node) : List Octet :=
  t.fold fun type name threshold children =>
    encUint (nodeTypeWord type) ++
      (encString name ++ (encUint (BitVec.ofInt _ threshold : Word .w32) ++
      (encLen children.length ++ children.flatMap Prod.snd)))

theorem encNode_mk (type : NodeType) (name : PName) (th : ℤ) (cs : List Node) :
    encNode (mk type name th cs) = encUint (nodeTypeWord type) ++ (encString name ++
      (encUint (BitVec.ofInt _ th : Word .w32) ++ (encLen cs.length ++ cs.flatMap encNode))) := by
  rw [encNode, fold_mk]
  simp only [List.length_map, List.flatMap_map]
  rfl

/-- What the length prefixes of a node can express. -/
def Node.Convertible (s : Node) : Prop :=
  s.name.length ≤ shrtMax ∧ s.children.length ≤ maxConvertLen ∧
    -2 ^ 31 ≤ s.threshold ∧ s.threshold < 2 ^ 31

theorem wordNodeType_nodeTypeWord (type : NodeType) : wordNodeType (nodeTypeWord type) = type := by
  cases type <;> rfl

theorem writes_writeRest {x : WriteM Unit} {bytes : List Octet} (hx : Writes x bytes) :
    Writes (writeRest x) bytes :=
  .unless hx

theorem writes_writeChildren {cs : List Node} {x : Node → WriteM Unit}
    (h : ∀ c ∈ cs, Writes (x c) (encNode c)) :
    Writes (writeChildren (cs.map x)) (cs.flatMap encNode) := by
  induction cs with
  | nil => exact .pure
  | cons c cs ih =>
    rw [List.map_cons, List.flatMap_cons]
    exact (h c (by simp)).bind (writes_writeRest (ih fun d hd => h d (by simp [hd])))

theorem writes_writeNode {t : Node} (ht : t.Forall Convertible) {level : ℕ}
    (hlevel : level + t.height ≤ maxAcTreeLevel) :
    Writes (t.fold writeNode level) (encNode t) := by
  induction t using Node.induction generalizing level with
  | h type name th cs ih =>
    obtain ⟨⟨hname, harity, -, -⟩, hcs⟩ := forall_mk.mp ht
    have hbelow : ∀ c ∈ cs, level + 1 + c.height ≤ maxAcTreeLevel := by
      intro c hc
      have := height_le_iff.mp (le_refl (mk type name th cs).height) c hc
      omega
    have hchildren := writes_writeChildren fun c hc => ih c hc (hcs c hc) (hbelow c hc)
    rw [fold_mk, encNode_mk]
    unfold writeNode
    rw [if_neg (by omega), List.length_map, List.map_map]
    exact (writes_writeUint _).bind ((writes_writeString hname).bind
      ((writes_writeRest (writes_writeUint _)).bind ((writes_writeLen harity).bind hchildren)))

theorem decodes_readRest {α : Type} {default a : α} {x : ReadM α} {bytes : List Octet}
    (hx : Decodes x bytes a) :
    Decodes (readRest default x) bytes a := by
  refine .bind_nil decodes_isError ?_
  rw [if_neg Bool.false_ne_true]
  exact hx

theorem decodes_readChildren {cs : List Node} {x : ReadM Node}
    (h : ∀ c ∈ cs, Decodes x (encNode c) c) :
    Decodes (readChildren x cs.length) (cs.flatMap encNode) cs := by
  induction cs with
  | nil => exact .pure []
  | cons c cs ih =>
    rw [List.flatMap_cons]
    exact (h c (by simp)).bind
      (decodes_readRest ((ih fun d hd => h d (by simp [hd])).bind_end (.pure (c :: cs))))

theorem toInt_ofInt_threshold {th : ℤ} (hlo : -2 ^ 31 ≤ th) (hhi : th < 2 ^ 31) :
    (BitVec.ofInt _ th : Word .w32).toInt = th := by
  rw [BitVec.toInt_ofInt]
  exact Int.bmod_eq_of_le (by simp only [IntWidth.bytes]; omega)
    (by simp only [IntWidth.bytes]; omega)

theorem decodes_readNode {t : Node} (ht : t.Forall Convertible) {levels : ℕ}
    (hlevels : t.height < levels) :
    Decodes (readNode levels) (encNode t) t := by
  induction t using Node.induction generalizing levels with
  | h type name th cs ih =>
    obtain ⟨⟨hname, harity, hlo, hhi⟩, hcs⟩ := forall_mk.mp ht
    cases levels with
    | zero => omega
    | succ levels =>
      have hbelow : ∀ c ∈ cs, c.height < levels := by
        intro c hc
        have := height_le_iff.mp (le_refl (mk type name th cs).height) c hc
        omega
      have hchildren := decodes_readChildren fun c hc => ih c hc (hcs c hc) (hbelow c hc)
      rw [encNode_mk]
      refine (decodes_readUint _).bind
        ((decodes_readString hname).bind ((decodes_readRest (decodes_readUint _)).bind
        ((decodes_readLen harity).bind (hchildren.bind_end ?_))))
      have hth : (BitVec.ofInt _ th : Word .w32).toInt = th := toInt_ofInt_threshold hlo hhi
      rw [wordNodeType_nodeTypeWord, hth]
      exact .pure _

theorem sound_readRest {α : Type} {default : α} {x : ReadM α} (hx : Sound x) :
    Sound (readRest default x) :=
  sound_isError.bind fun _ => .ite (.pure default) hx

theorem sound_readChildren {x : ReadM Node} (hx : Sound x) (n : ℕ) : Sound (readChildren x n) := by
  induction n with
  | zero => exact .pure []
  | succ n ih => exact hx.bind fun c => sound_readRest (ih.bind fun cs => .pure (c :: cs))

theorem sound_readNode (levels : ℕ) : Sound (readNode levels) := by
  induction levels with
  | zero => exact sound_setError .format _
  | succ levels ih =>
    exact (sound_readUint .w32).bind fun _ => sound_readString.bind fun _ =>
      (sound_readRest (sound_readUint .w32)).bind fun _ => sound_readLen.bind fun n =>
        (sound_readChildren ih n).bind fun _ => .pure _

/-- `validate_tree` answers with a code. -/
theorem returns_validateTree (t : Node) : Returns t.validateTree := by
  suffices h : ∀ hasParent names, Returns (t.fold validateNode hasParent names) by
    exact returns_bind_iff.mpr ⟨h false [], fun _ _ => returns_ok ()⟩
  induction t using Node.induction with
  | h type name th cs ih =>
    intro hasParent names
    rw [fold_mk]
    have hloop : ∀ before, Returns ((cs.map (fun c => (c.name, c.fold validateNode))).foldlM
        (fun seen c => c.2 true seen) before) := fun before => returns_foldlM (fun b a ha => by
      obtain ⟨c, hc, rfl⟩ := List.mem_map.mp ha
      exact ih c hc true b) before
    refine returns_bind_iff.mpr ⟨returns_require _ _, fun _ _ =>
        returns_bind_iff.mpr ⟨returns_require _ _, fun _ _ =>
      returns_bind_iff.mpr ⟨returns_require _ _, fun _ _ => ?_⟩⟩⟩
    cases type with
    | none => exact returns_fail .badArg
    | leaf => exact returns_bind_iff.mpr ⟨returns_require _ _, fun _ _ =>
        returns_bind_iff.mpr ⟨returns_require _ _, fun _ _ => returns_ok _⟩⟩
    | and => exact returns_bind_iff.mpr ⟨returns_require _ _, fun _ _ =>
        returns_bind_iff.mpr ⟨returns_require _ _, fun _ _ => hloop _⟩⟩
    | or => exact returns_bind_iff.mpr ⟨returns_require _ _, fun _ _ =>
        returns_bind_iff.mpr ⟨returns_require _ _, fun _ _ => hloop _⟩⟩
    | threshold => exact returns_bind_iff.mpr ⟨returns_require _ _, fun _ _ =>
        returns_bind_iff.mpr ⟨returns_require _ _, fun _ _ => hloop _⟩⟩

theorem ensures_readChildren {x : ReadM Node} {P : Node → Prop} (hx : Ensures x P)
    (hs : Sound x) (n : ℕ) :
    Ensures (readChildren x n) fun cs => ∀ c ∈ cs, P c := by
  induction n with
  | zero => exact .pure (by simp)
  | succ n ih =>
    refine hx.bind (fun c hc => ?_) fun c =>
      (sound_readRest ((sound_readChildren hs n).bind fun _ => .pure _)).stable
    refine ensures_isError.bind (fun e he => .ite (fun h => by simp [he] at h) fun _ => ?_) fun _ =>
      .ite (.pure _) ((sound_readChildren hs n).bind fun _ => .pure _).stable
    refine ih.bind (fun cs hcs => .pure ?_) fun _ => .pure _
    simpa using ⟨hc, hcs⟩

/-- What is read has no more levels than are allowed. -/
theorem ensures_readNode (levels : ℕ) : Ensures (readNode levels) fun t => t.height < levels := by
  induction levels with
  | zero => exact ensures_setError .format _ _
  | succ levels ih =>
    have hend : ∀ (type : Word .w32) (name : List Octet) (th : Word .w32) (n : ℕ),
        Sound (readChildren (readNode levels) n >>= fun cs =>
          pure (mk (wordNodeType type) name th.toInt cs)) :=
      fun type name th n => (sound_readChildren (sound_readNode levels) n).bind fun _ => .pure _
    refine (ensures_true _).bind (fun type _ =>
      (ensures_true _).bind (fun name _ => (ensures_true _).bind
      (fun th _ => (ensures_true _).bind (fun n _ => ?_) fun n => (hend type name th n).stable)
      fun th => (sound_readLen.bind (hend type name th)).stable)
      fun name => ((sound_readRest (sound_readUint .w32)).bind fun th =>
        sound_readLen.bind (hend type name th)).stable)
      fun type => (sound_readString.bind fun name =>
        (sound_readRest (sound_readUint .w32)).bind fun th =>
        sound_readLen.bind (hend type name th)).stable
    refine (ensures_readChildren ih (sound_readNode levels) n).bind
      (fun cs hcs => .pure ?_) fun _ => .pure _
    have hle : (mk (wordNodeType type) name th.toInt cs).height ≤ levels :=
      height_le_iff.mpr fun c hc => hcs c hc
    exact Nat.lt_succ_of_le hle

section Ac

variable {L : CurveTable}

theorem sound_readAc : Sound (readAc L) := by
  refine sound_readBool.bind fun isPresent => .ite (.pure _) ((sound_readCurve L).bind fun curve =>
    .ite (sound_setError .format _) ((sound_readNode _).bind fun root => sound_isError.bind fun _ =>
      .ite (.pure _) ?_))
  cases hv : root.validateTree with
  | ok u => exact .pure _
  | error e =>
    cases e with
    | code rv => exact sound_setError rv _
    | thrown e => exact absurd hv (returns_validateTree root e)

/-- The bytes of an access structure. -/
def encAc (curve : L.Curve) (root : Node) : List Octet :=
  encUint (1 : Word .w8) ++ (encCurve L (some curve) ++ encNode root)

theorem writes_writeAc {curve : L.Curve} {root : Node} (ht : root.Forall Convertible)
    (hlevels : root.height + 1 ≤ maxAcTreeLevel) :
    Writes (writeAc L ⟨some curve, some root⟩) (encAc curve root) :=
  (writes_writeUint _).bind ((writes_writeCurve L _).bind (writes_writeNode ht (by omega)))

theorem decodes_readAc {curve : L.Curve} {root : Node} (hvalid : root.validateTree = .ok ())
    (ht : root.Forall Convertible) (hlevels : root.height + 1 ≤ maxAcTreeLevel) :
    Decodes (readAc L) (encAc curve root) ⟨some curve, some root⟩ := by
  refine (decodes_readBool true).bind ?_
  rw [if_neg (by simp)]
  refine (decodes_readCurve L curve).bind ?_
  rw [if_neg (by simp)]
  refine (decodes_readNode ht (by omega)).bind_end (.bind_nil decodes_isError ?_)
  rw [if_neg Bool.false_ne_true, hvalid]
  exact .pure _

/-- What is read is no tree, or a valid one with what `readNode` ensures. -/
theorem ensures_readAc_of {P : Node → Prop} (hP : Ensures (readNode maxAcTreeLevel) P) :
    Ensures (readAc L) fun ac =>
    ac = ⟨none, none⟩ ∨ ∃ curve root, ac = ⟨some curve, some root⟩ ∧
        root.validateTree = .ok () ∧ P root := by
  have hend : ∀ (curve : Option L.Curve) (root : Node),
    Stable (ReadM.isError >>= fun e => if e = true then
      pure ⟨curve, none⟩ else match root.validateTree with
        | .ok _ => pure ⟨curve, some root⟩
        | .error (.code rv) => ReadM.setError rv >>= fun _ => pure ⟨curve, none⟩
        | .error (.thrown e) => throw (.thrown e) : ReadM (AcOwned L.Curve)) := by
    intro curve root
    refine stable_isError.bind fun _ => .ite (.pure _) ?_
    cases hv : root.validateTree with
    | ok u => exact .pure _
    | error e =>
      cases e with
      | code rv => exact (stable_setError rv).bind fun _ => .pure _
      | thrown e => exact absurd hv (returns_validateTree root e)
  refine (ensures_true _).bind (fun isPresent _ =>
      .ite (fun _ => .pure (.inl rfl)) fun _ => ?_) fun _ =>
    .ite (.pure _) ((sound_readCurve L).stable.bind fun curve =>
      .ite (sound_setError .format _).stable
      ((sound_readNode _).stable.bind (hend curve)))
  refine (ensures_true _).bind (fun curve _ =>
      .ite (fun _ => ensures_setError _ _ _) fun hcurve => ?_) fun curve =>
    .ite (sound_setError .format _).stable ((sound_readNode _).stable.bind (hend curve))
  refine hP.bind (fun root hroot => ?_) (hend curve)
  refine ensures_isError.bind (fun e he => .ite (fun h => by simp [he] at h) fun _ => ?_) fun _ =>
    .ite (.pure _) ?_
  · obtain ⟨c, rfl⟩ : ∃ c, curve = some c :=
      Option.ne_none_iff_exists'.mp fun h => hcurve (by simp [h])
    cases hv : root.validateTree with
    | ok u => exact .pure (.inr ⟨c, root, rfl, hv, hroot⟩)
    | error e =>
      cases e with
      | code rv => exact ensures_setError _ _ _
      | thrown e => exact absurd hv (returns_validateTree root e)
  · cases hv : root.validateTree with
    | ok u => exact .pure _
    | error e =>
      cases e with
      | code rv => exact (stable_setError rv).bind fun _ => .pure _
      | thrown e => exact absurd hv (returns_validateTree root e)

/-- What `deser` accepts is no tree, or a valid one of at most 64 levels. -/
theorem ensures_readAc : Ensures (readAc L) fun ac => ac.root = none ∨ ∃ curve root,
      ac = ⟨some curve, some root⟩ ∧
    root.validateTree = .ok () ∧ root.height < maxAcTreeLevel := by
  intro r ac r' h he
  rcases ensures_readAc_of (ensures_readNode _) r ac r' h he with rfl | hroot
  · exact .inl rfl
  · exact .inr hroot

theorem deser_ensures {α : Type} {x : ReadM α} {P : α → Prop} (hx : Ensures x P)
    {src : List Octet} {a : α} (h : deser x src = .ok a) : P a := by
  rw [deser] at h
  obtain ⟨⟨b, r⟩, hr, h⟩ := bind_ok_iff.mp h
  cases he : r.error with
  | some rv =>
    rw [he] at h
    cases h
  | none =>
    rw [he] at h
    obtain ⟨-, h⟩ := require_bind_ok_iff.mp h
    cases h
    exact hx _ _ _ hr he

theorem convertible_of_wellFormed {t : Node} (hwf : t.WellFormed)
    (hnames : ∀ nm ∈ t.names, nm.length ≤ shrtMax)
    (harity : ∀ s ∈ t.subtrees, s.children.length ≤ maxConvertLen) : t.Forall Convertible := by
  have hmax : maxConvertLen = 67108864 := rfl
  intro s hs
  have hloc := hwf s hs
  have har := harity s hs
  have hth : 0 ≤ s.threshold ∧ s.threshold ≤ s.children.length := by
    unfold LocalWf at hloc
    split at hloc
    · omega
    · omega
    · omega
    · omega
    · exact hloc.elim
  exact ⟨hnames _ (List.mem_map_of_mem hs), har, by omega, by omega⟩

/-- The trees that survive are those of at most 64 levels whose bytes fit an `int`. Whatever bytes
are accepted, a tree that they yield is valid. -/
theorem deser_ser_ac_iff (garbage : ℕ → Octet) (curve : L.Curve) {root : Node}
    (hvalid : root.validateTree = .ok ()) (hnames : ∀ nm ∈ root.names, nm.length ≤ shrtMax)
    (harity : ∀ s ∈ root.subtrees, s.children.length ≤ maxConvertLen) :
    ((∃ bytes, ser garbage (writeAc L ⟨some curve, some root⟩) = .ok bytes ∧
        deser (readAc L) bytes = .ok ⟨some curve, some root⟩) ↔
      root.height + 1 ≤ maxAcTreeLevel ∧ (encAc curve root).length ≤ intMax) ∧
    ∀ bytes ac, deser (readAc L) bytes = .ok ac → ∀ root', ac.root = some root' →
      ac.curve.isSome = true ∧ root'.validateTree = .ok () := by
  have hconv := convertible_of_wellFormed (validateTree_ok hvalid).1 hnames harity
  refine ⟨⟨?_, ?_⟩, ?_⟩
  · rintro ⟨bytes, hser, hdeser⟩
    have hlevels : root.height + 1 ≤ maxAcTreeLevel := by
      rcases deser_ensures ensures_readAc hdeser with h | ⟨c, t, h, -, hheight⟩
      · cases h
      · cases h
        exact hheight
    rw [ser_eq (writes_writeAc hconv hlevels)] at hser
    refine ⟨hlevels, ?_⟩
    by_contra hlen
    rw [if_neg hlen] at hser
    cases hser
  · rintro ⟨hlevels, hlen⟩
    refine ⟨encAc curve root, ?_, deser_eq (decodes_readAc hvalid hconv hlevels) hlen⟩
    rw [ser_eq (writes_writeAc hconv hlevels), if_pos hlen]
  · intro bytes ac hdeser root' hroot'
    rcases deser_ensures ensures_readAc hdeser with h | ⟨c, t, rfl, hv, -⟩
    · rw [h] at hroot'
      cases hroot'
    · cases hroot'
      exact ⟨rfl, hv⟩

end Ac

section Examples

/-- A table of one curve with the code of secp256k1, of which only one point is known. -/
def sampleCurves : CurveTable where
  Curve := Unit
  code _ := 714
  find w := if w = 714 then some () else none
  code_ne_zero _ := by decide
  find_code _ := if_pos rfl
  Point := Unit
  pointSize _ := 33
  toBin _ _ := 2 :: List.replicate 32 0
  fromBin _ bytes := if bytes = 2 :: List.replicate 32 0 then .ok () else .error .crypto
  length_toBin _ _ := rfl

/-- AND nodes with one child each, above a leaf. -/
def chain : ℕ → Node
  | 0 => mk .leaf [200] 0 []
  | n + 1 => mk .and [Fin.ofNat 256 n] 0 [chain n]

def deepTree (n : ℕ) : Node := mk .and [] 0 [chain n]

def isFormatError {α : Type} : Outcome α → Bool
  | .error (.code .format) => true
  | _ => false

theorem eq_fail_of_isFormatError {α : Type} {x : Outcome α}
    (h : isFormatError x = true) : x = fail .format := by
  match x, h with
  | .error (.code .format), _ => rfl

/-- With 65 levels the bytes that `ser` returns stop before the leaf, and are rejected. -/
theorem deepTree_truncated :
    (deepTree 63).validateTree = .ok () ∧ (deepTree 63).height + 1 = 65 ∧
      (deepTree 63).height ≤ accessStructureMaxDepth ∧
      ∃ bytes, ser (fun _ => 0) (writeAc sampleCurves ⟨some (), some (deepTree 63)⟩) = .ok bytes ∧
        deser (readAc sampleCurves) bytes = fail .format := by
  refine ⟨by decide +kernel, by decide +kernel, by decide +kernel, ?_⟩
  have h : (match ser (fun _ => 0) (writeAc sampleCurves ⟨some (), some (deepTree 63)⟩) with
      | .ok bytes => isFormatError (deser (readAc sampleCurves) bytes)
      | .error _ => false) = true := by decide +kernel
  cases hser : ser (fun _ => 0) (writeAc sampleCurves ⟨some (), some (deepTree 63)⟩) with
  | error e =>
    rw [hser] at h
    cases h
  | ok bytes =>
    rw [hser] at h
    exact ⟨bytes, rfl, eq_fail_of_isFormatError h⟩

/-- A tree of 4 levels. -/
theorem deser_ser_ac_sample :
    ∃ bytes, ser (fun _ => 0) (writeAc sampleCurves ⟨some (), some (deepTree 2)⟩) = .ok bytes ∧
      deser (readAc sampleCurves) bytes = .ok ⟨some (), some (deepTree 2)⟩ :=
  (@deser_ser_ac_iff sampleCurves (fun _ => 0) () (deepTree 2) (by decide)
    (by decide) (by decide)).1.mpr
    ⟨by decide, by decide⟩

end Examples

end CbMpc
