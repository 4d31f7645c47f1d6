import CbMpc.BitsT

/-!
# Runs of operations on strings of bits

Any number of `bits_t` objects under names, and sequences of operations on them. The operands of an
operation can be the same object. The lists that the objects stand for go through the same sequence
of operations on lists.
-/
namespace CbMpc

open BitString LimbMemory

inductive BitsOp where
  | construct (i count : ℕ)
  | copy (i j : ℕ)
  | move (i j : ℕ)
  | free (i : ℕ)
  | resize (i : ℕ) (count : ℤ)
  | alloc (i count : ℕ)
  | bzero (i : ℕ)
  | get (i : ℕ) (index : ℤ)
  | set (i : ℕ) (index : ℤ) (value : Bool)
  | append (i : ℕ) (value : Bool)
  | xorAssign (i j : ℕ)
  | xor (i j k : ℕ)
  | appendAssign (i j : ℕ)
  | concat (i j k : ℕ)
  | toBin (i : ℕ)
  | fromBin (i : ℕ) (src : List Byte)
  | write (i : ℕ)
  | read (i : ℕ) (r : Reader)

/-- What an operation returns to its caller. -/
inductive BitsResult where
  | nothing
  | bit (value : Bool)
  | bytes (bin : List Byte)
  | blob (bytes : List Octet)
  | reader (r : Reader)

abbrev BitsEnv := ℕ → BitsT

abbrev ListEnv := ℕ → List Bool

def BitsEnv.lists (env : BitsEnv) : ListEnv := fun i => (env i).list

/-- The operations on objects. `fresh` is what new memory holds. -/
def bitsStep (fresh : ℕ → Limb) : BitsOp → BitsEnv → Outcome (BitsResult × BitsEnv)
  | .construct i count, env => .ok (.nothing, Function.update env i (BitsT.ofCount count))
  | .copy i j, env =>
    .ok (.nothing, if i = j then env else Function.update env i ((env i).copyFrom fresh (env j)))
  | .move i j, env =>
    .ok (.nothing, if i = j then env else
      Function.update (Function.update env i (env j)) j BitsT.free)
  | .free i, env => .ok (.nothing, Function.update env i BitsT.free)
  | .resize i count, env => do
    let x ← (env i).resize count
    .ok (.nothing, Function.update env i x)
  | .alloc i count, env => .ok (.nothing, Function.update env i ((env i).alloc fresh count))
  | .bzero i, env => .ok (.nothing, Function.update env i (env i).bzero)
  | .get i index, env => do
    let value ← (env i).get index
    .ok (.bit value, env)
  | .set i index value, env => do
    let x ← (env i).set index value
    .ok (.nothing, Function.update env i x)
  | .append i value, env => do
    let x ← (env i).append value
    .ok (.nothing, Function.update env i x)
  | .xorAssign i j, env => do
    let x ← (env i).xorAssign (env j)
    .ok (.nothing, Function.update env i x)
  | .xor i j k, env => do
    let x ← BitsT.xor fresh (env j) (env k)
    .ok (.nothing, Function.update env i x)
  | .appendAssign i j, env =>
    if i = j then do
      let x ← (env i).appendSelf
      .ok (.nothing, Function.update env i x)
    else do
      let xs ← (env i).appendAssign (env j)
      .ok (.nothing, Function.update (Function.update env j xs.2) i xs.1)
  | .concat i j k, env => do
    let xs ← (env j).concat (env k)
    .ok (.nothing, Function.update (Function.update (Function.update env j xs.2.1) k xs.2.2) i xs.1)
  | .toBin i, env => .ok (.bytes (env i).toBin.1, Function.update env i (env i).toBin.2)
  | .fromBin i src, env => do
    let x ← BitsT.fromBin src
    .ok (.nothing, Function.update env i x)
  | .write i, env => do
    let bytes ← ser (fun n => Fin.ofNat 256 (fresh n).toNat) (env i).write
    .ok (.blob bytes, Function.update env i (env i).bzeroUnused)
  | .read i r, env => do
    let out ← BitsT.read fresh (env i) r
    .ok (.reader out.2, Function.update env i out.1)

/-- `convert` in the writing modes, on a list. -/
def writeList (l : List Bool) : Outcome (List Octet) := do
  cbAssert (decide (l.length ≤ maxConvertLen))
  .ok (encBits l)

/-- The same operations on lists. The elements that `alloc` yields are not determined. -/
def listStep (content : ℕ → Bool) : BitsOp → ListEnv → Outcome (BitsResult × ListEnv)
  | .construct i count, env => .ok (.nothing, Function.update env i (List.replicate count false))
  | .copy i j, env => .ok (.nothing, Function.update env i (env j))
  | .move i j, env =>
    .ok (.nothing, if i = j then env else Function.update (Function.update env i (env j)) j [])
  | .free i, env => .ok (.nothing, Function.update env i [])
  | .resize i count, env => do
    cbAssert (decide (0 ≤ count))
    .ok (.nothing, Function.update env i (BitsT.resizeList (env i) count.toNat))
  | .alloc i count, env => .ok (.nothing, Function.update env i ((List.range count).map content))
  | .bzero i, env => .ok (.nothing, Function.update env i (List.replicate (env i).length false))
  | .get i index, env => do
    let value ← BitsT.getList (env i) index
    .ok (.bit value, env)
  | .set i index value, env => do
    let l ← BitsT.setList (env i) index value
    .ok (.nothing, Function.update env i l)
  | .append i value, env => .ok (.nothing, Function.update env i (env i ++ [value]))
  | .xorAssign i j, env => do
    let l ← BitsT.xorList (env i) (env j)
    .ok (.nothing, Function.update env i l)
  | .xor i j k, env => do
    let l ← BitsT.xorList (env j) (env k)
    .ok (.nothing, Function.update env i l)
  | .appendAssign i j, env => .ok (.nothing, Function.update env i (env i ++ env j))
  | .concat i j k, env => .ok (.nothing, Function.update env i (env j ++ env k))
  | .toBin i, env => .ok (.bytes (BitsT.packList (env i)), env)
  | .fromBin i src, env => .ok (.nothing, Function.update env i (BitsT.unpackList src))
  | .write i, env => do
    let bytes ← writeList (env i)
    .ok (.blob bytes, env)
  | .read i r, env => do
    let out ← BitsT.readList (env i) r
    .ok (.reader out.2, Function.update env i out.1)

/-- The lengths that an operation makes stay below `INT_MAX - 64`. -/
def BitsOp.Fits : BitsOp → ListEnv → Prop
  | .construct _ count, _ => count < intMax - 64
  | .resize _ count, _ => count < (intMax - 64 : ℕ)
  | .alloc _ count, _ => count < intMax - 64
  | .append i _, env => (env i).length + 1 < intMax - 64
  | .appendAssign i j, env => (env i).length + (env j).length < intMax - 64
  | .concat _ j k, env => (env j).length + (env k).length < intMax - 64
  | .fromBin _ src, _ => 8 * src.length < intMax - 64
  | _, _ => True

@[simp] theorem lists_update (env : BitsEnv) (i : ℕ) (x : BitsT) :
    BitsEnv.lists (Function.update env i x) = Function.update env.lists i x.list := by
  funext j
  by_cases h : j = i
  · subst h
    simp [BitsEnv.lists]
  · simp [BitsEnv.lists, h]

/-- A `const` operand stands for the same list when its unused bits are cleared. -/
theorem lists_update_same {env : BitsEnv} {i : ℕ} {x : BitsT} (h : x.list = (env i).list) :
    BitsEnv.lists (Function.update env i x) = env.lists := by
  rw [lists_update, h]
  exact Function.update_eq_self i env.lists

theorem map_bind {α β γ δ : Type} {x : Outcome α} {y : Outcome β} {f : α → β}
    (h : x.map f = y) {g : α → Outcome γ} {g' : β → Outcome δ} {k : γ → δ}
    (hg : ∀ a, (g a).map k = g' (f a)) : (x >>= g).map k = (y >>= g') := by
  subst h
  cases x with
  | error e => rfl
  | ok a => exact hg a

theorem ser_writeBits (garbage : ℕ → Octet) (l : List Bool) :
    ser garbage (writeBits l) = writeList l := by
  by_cases h : l.length ≤ maxConvertLen
  · have hconv : maxConvertLen = 67108864 := rfl
    have hint : intMax = 2147483647 := rfl
    have hlen : (encBits l).length ≤ intMax := by
      rw [encBits, List.length_append, length_packBits, bitsToBytes]
      have hword : (encLen l.length).length ≤ 4 := by
        unfold encLen
        split_ifs <;> simp
      omega
    rw [ser_eq (writes_writeBits h), if_pos hlen, writeList, decide_eq_true h]
    rfl
  · have hthrow : ∀ w, writeBits l w = throwing .assertionFailed := by
      intro w
      rw [writeBits, WriteM.bind_apply, writeLen, WriteM.bind_apply, decide_eq_false h]
      rfl
    rw [ser, hthrow, writeList, decide_eq_false h]
    rfl

theorem resize_eq (x : BitsT) (count : ℤ) : (x.resize count).map BitsT.list =
    (cbAssert (decide (0 ≤ count)) >>= fun _ => .ok (BitsT.resizeList x.list count.toNat)) := by
  rw [BitsT.resize]
  cases decide (0 ≤ count) with
  | false => rfl
  | true => exact congrArg Except.ok (BitsT.list_resizeTo x count.toNat)

variable {env : BitsEnv}

/-- An operation that puts a new object in the place of an old one. -/
theorem map_put {x : Outcome BitsT} {y : Outcome (List Bool)} (h : x.map BitsT.list = y) (i : ℕ) :
    ((x >>= fun a => .ok (.nothing, Function.update env i a)) : Outcome (BitsResult × BitsEnv)).map
        (Prod.map id BitsEnv.lists) =
      (y >>= fun l => .ok (.nothing, Function.update env.lists i l)) :=
  map_bind h fun a => congrArg (fun e => Except.ok (BitsResult.nothing, e)) (lists_update env i a)

/-- One operation does to the lists what it says, whatever unused bits and new memory hold. -/
theorem bitsStep_refines (fresh : ℕ → Limb) (op : BitsOp) (env : BitsEnv)
    (hfits : op.Fits env.lists) :
    ∃ content, (bitsStep fresh op env).map (Prod.map id BitsEnv.lists) =
      listStep content op env.lists := by
  have hint : intMax = 2147483647 := rfl
  cases op with
  | construct i count =>
    refine ⟨fun _ => false, congrArg (fun e => Except.ok (BitsResult.nothing, e)) ?_⟩
    rw [lists_update, BitsT.list_ofCount]
  | copy i j =>
    refine ⟨fun _ => false, congrArg (fun e => Except.ok (BitsResult.nothing, e)) ?_⟩
    split
    · rename_i h
      subst h
      exact (Function.update_eq_self i env.lists).symm
    · rw [lists_update, BitsT.list_copyFrom]
      rfl
  | move i j =>
    refine ⟨fun _ => false, congrArg (fun e => Except.ok (BitsResult.nothing, e)) ?_⟩
    by_cases h : i = j
    · rw [if_pos h, if_pos h]
    · rw [if_neg h, if_neg h, lists_update, lists_update]
      rfl
  | free i =>
    exact ⟨fun _ => false, congrArg (fun e => Except.ok (BitsResult.nothing, e))
      (lists_update env i BitsT.free)⟩
  | resize i count =>
    refine ⟨fun _ => false, (map_put (resize_eq (env i) count) i).trans ?_⟩
    rw [listStep]
    cases decide (0 ≤ count) <;> rfl
  | alloc i count =>
    refine ⟨fun p => limbBit ((env i).alloc fresh count).data p,
      congrArg (fun e => Except.ok (BitsResult.nothing, e)) ?_⟩
    rw [lists_update]
    rfl
  | bzero i =>
    refine ⟨fun _ => false, congrArg (fun e => Except.ok (BitsResult.nothing, e)) ?_⟩
    rw [lists_update, BitsT.list_bzero, BitsEnv.lists, BitsT.length_list]
  | get i index =>
    refine ⟨fun _ => false, map_bind (f := id) ?_ fun value => rfl⟩
    rw [BitsT.get_eq]
    exact congrFun Except.map_id _
  | set i index value => exact ⟨fun _ => false, map_put (BitsT.set_eq (env i) index value) i⟩
  | append i value =>
    have hlen : (env i).list.length + 1 < intMax - 64 := hfits
    rw [BitsT.length_list] at hlen
    obtain ⟨y, hy, hlist⟩ := BitsT.append_eq (by omega : (env i).bits < intMax) value
    refine ⟨fun _ => false, map_put (y := .ok ((env i).list ++ [value])) ?_ i⟩
    rw [hy, ← hlist]
    rfl
  | xorAssign i j => exact ⟨fun _ => false, map_put (BitsT.xorAssign_eq (env i) (env j)) i⟩
  | xor i j k => exact ⟨fun _ => false, map_put (BitsT.xor_eq fresh (env j) (env k)) i⟩
  | appendAssign i j =>
    have hlen : (env i).list.length + (env j).list.length < intMax - 64 := hfits
    rw [BitsT.length_list, BitsT.length_list] at hlen
    refine ⟨fun _ => false, ?_⟩
    rw [bitsStep]
    by_cases h : i = j
    · subst h
      obtain ⟨y, hy, hlist⟩ := BitsT.appendSelf_eq (by omega : (env i).bits + (env i).bits ≤ intMax)
      rw [if_pos rfl]
      refine map_put (y := .ok ((env i).list ++ (env i).list)) ?_ i
      rw [hy, ← hlist]
      rfl
    · obtain ⟨y, hy, hlist⟩ := BitsT.appendAssign_eq
        (by omega : (env i).bits + (env j).bits ≤ intMax)
      rw [if_neg h, hy, ok_bind]
      refine congrArg (fun e => Except.ok (BitsResult.nothing, e)) ?_
      rw [lists_update, lists_update_same (BitsT.list_bzeroUnused _), hlist]
      rfl
  | concat i j k =>
    have hlen : (env j).list.length + (env k).list.length < intMax - 64 := hfits
    rw [BitsT.length_list, BitsT.length_list] at hlen
    obtain ⟨y, hy, hlist⟩ := BitsT.concat_eq (by omega : (env j).bits + (env k).bits ≤ intMax)
    refine ⟨fun _ => false, ?_⟩
    rw [bitsStep, hy, ok_bind]
    refine congrArg (fun e => Except.ok (BitsResult.nothing, e)) ?_
    rw [lists_update, hlist, lists_update, lists_update_same (BitsT.list_bzeroUnused _),
      BitsT.list_bzeroUnused]
    exact congrArg (fun e => Function.update e i _) (Function.update_eq_self k env.lists)
  | toBin i =>
    refine ⟨fun _ => false, ?_⟩
    rw [bitsStep, BitsT.toBin_fst]
    exact congrArg (fun e => Except.ok (BitsResult.bytes _, e))
      (lists_update_same (BitsT.list_toBin _))
  | fromBin i src =>
    obtain ⟨y, hy, hlist⟩ := BitsT.fromBin_eq src
    refine ⟨fun _ => false, map_put (y := .ok (BitsT.unpackList src)) ?_ i⟩
    rw [hy, ← hlist]
    rfl
  | write i =>
    refine ⟨fun _ => false, map_bind (f := id) ?_ fun bytes => ?_⟩
    · rw [BitsT.write_eq, ser_writeBits]
      exact congrFun Except.map_id _
    · exact congrArg (fun e => Except.ok (BitsResult.blob bytes, e))
        (lists_update_same (BitsT.list_bzeroUnused _))
  | read i r =>
    refine ⟨fun _ => false, map_bind (BitsT.read_eq fresh (env i) r) fun out => ?_⟩
    exact congrArg (fun e => Except.ok (BitsResult.reader out.2, e)) (lists_update env i out.1)

/-- A sequence of operations. Each of them finds other contents in new memory. -/
def bitsRun (fresh : ℕ → ℕ → Limb) : List BitsOp → BitsEnv → Outcome (List BitsResult × BitsEnv)
  | [], env => .ok ([], env)
  | op :: ops, env => do
    let out ← bitsStep (fresh 0) op env
    let rest ← bitsRun (fun n => fresh (n + 1)) ops out.2
    .ok (out.1 :: rest.1, rest.2)

/-- The outcomes of a sequence of operations on lists. Nothing is said once a length is too
large. -/
inductive ListRun : List BitsOp → ListEnv → Outcome (List BitsResult × ListEnv) → Prop where
  | nil (env : ListEnv) : ListRun [] env (.ok ([], env))
  | tooLong {op : BitsOp} {ops : List BitsOp} {env : ListEnv}
    (out : Outcome (List BitsResult × ListEnv)) :
    ¬op.Fits env → ListRun (op :: ops) env out
  | stop {op : BitsOp} {ops : List BitsOp} {env : ListEnv} {content : ℕ → Bool} {e : Failure} :
    listStep content op env = .error e → ListRun (op :: ops) env (.error e)
  | step {op : BitsOp} {ops : List BitsOp} {env env' : ListEnv}
      {content : ℕ → Bool} {result : BitsResult}
      {out : Outcome (List BitsResult × ListEnv)} :
    listStep content op env = .ok (result, env') → ListRun ops env' out →
      ListRun (op :: ops) env (out >>= fun rest => .ok (result :: rest.1, rest.2))

/-- The induction is on the operations, each time from the objects that the step before left. -/
theorem bitsRun_refines (fresh : ℕ → ℕ → Limb) (ops : List BitsOp) (env : BitsEnv) :
    ListRun ops env.lists ((bitsRun fresh ops env).map (Prod.map id BitsEnv.lists)) := by
  induction ops generalizing fresh env with
  | nil => exact .nil env.lists
  | cons op ops ih =>
    by_cases hfits : op.Fits env.lists
    · obtain ⟨content, hstep⟩ := bitsStep_refines (fresh 0) op env hfits
      rw [bitsRun]
      cases hout : bitsStep (fresh 0) op env with
      | error e =>
        rw [hout] at hstep
        exact .stop hstep.symm
      | ok out =>
        rw [hout] at hstep
        have hrest := ListRun.step hstep.symm (ih (fun n => fresh (n + 1)) out.2)
        rw [ok_bind]
        cases hrun : bitsRun (fun n => fresh (n + 1)) ops out.2 with
        | error e =>
          rw [hrun] at hrest
          exact hrest
        | ok rest =>
          rw [hrun] at hrest
          exact hrest
    · exact .tooLong _ hfits

namespace BitsT

theorem length_unpackList (s : List Byte) : (unpackList s).length = 8 * s.length := by
  rw [unpackList, List.length_map, List.length_range]

theorem packList_unpackList (s : List Byte) : packList (unpackList s) = s := by
  have hlen : (packList (unpackList s)).length = s.length := by
    rw [length_packList, length_unpackList, bitsToBytes]
    omega
  refine eq_of_bit hlen fun i hi => ?_
  rw [hlen] at hi
  rw [bit_packList, unpackList, getD_map_range _ _ hi]

theorem unpackList_packList {l : List Bool} (h : l.length % 8 = 0) :
    unpackList (packList l) = l := by
  have hlen : 8 * (packList l).length = l.length := by
    rw [length_packList, bitsToBytes]
    omega
  refine List.ext_getElem ((length_unpackList _).trans hlen) fun i hi hi' => ?_
  rw [← List.getD_eq_getElem _ false, ← List.getD_eq_getElem _ false, unpackList,
    getD_map_range _ _ (by omega), bit_packList]

/-- With enough bytes the old list does not matter. -/
theorem readDataList_eq (old : List Bool) {count : ℕ} {r : Reader}
    (h : r.offset ≤ r.src.length ∧ bitsToBytes count ≤ r.src.length - r.offset) :
    readDataList old count r = readBitsData count r := by
  rw [readDataList, readBitsData, ReadM.bind_apply, ReadM.bind_apply, ReadM.ensure_apply, if_pos h]
  rfl

theorem decodes_readDataList (old l : List Bool) :
    ReadM.Decodes (readDataList old l.length) (packBits l) l := by
  intro src offset rest hlen hle hdrop
  have hcount := congrArg List.length hdrop
  simp only [List.length_drop, List.length_append, length_packBits] at hcount
  rw [readDataList_eq old (by simp only; omega)]
  exact decodes_readBitsData l src offset rest hlen hle hdrop

theorem decodes_readList (old : List Bool) {l : List Bool} (h : l.length ≤ maxConvertLen) :
    ReadM.Decodes (readList old) (encBits l) l :=
  (decodes_readLen h).bind (decodes_readDataList old l)

/-- The bytes that one object writes give another one the same list, wherever they lie in the
input. -/
theorem read_write (fresh : ℕ → Limb) {x : BitsT} (y : BitsT) (h : x.bits ≤ maxConvertLen) :
    (∀ garbage, ser garbage x.write = .ok (encBits x.list)) ∧
    ∀ src offset rest, src.length ≤ intMax → offset ≤ src.length →
    src.drop offset = encBits x.list ++ rest →
      ∃ z, read fresh y ⟨src, offset, none⟩ =
        .ok (z, ⟨src, offset + (encBits x.list).length, none⟩) ∧ z.list = x.list := by
  have hlist : x.list.length ≤ maxConvertLen := by rwa [length_list]
  constructor
  · intro garbage
    rw [write_eq, ser_writeBits, writeList, decide_eq_true hlist, cbAssert_true, ok_bind]
  · intro src offset rest hlen hle hdrop
    have hread := read_eq fresh y ⟨src, offset, none⟩
    rw [decodes_readList y.list hlist src offset rest hlen hle hdrop] at hread
    cases hout : read fresh y ⟨src, offset, none⟩ with
    | error e =>
      rw [hout] at hread
      cases hread
    | ok out =>
      rw [hout] at hread
      obtain ⟨hz, hr⟩ := Prod.mk.inj (Except.ok.inj hread)
      exact ⟨out.1, congrArg (fun r => Except.ok (out.1, r)) hr, hz⟩

end BitsT

/-- Strings of bits in limbs are lists of bits. -/
theorem bits_refine :
    (∀ (fresh : ℕ → ℕ → Limb) (ops : List BitsOp) (env : BitsEnv),
      ListRun ops env.lists ((bitsRun fresh ops env).map (Prod.map id BitsEnv.lists))) ∧
    (∀ x y : BitsT, x.list = y.list → x.toBin.1 = y.toBin.1) ∧
    (∀ x : BitsT, x.bits % 8 = 0 → ∃ y, BitsT.fromBin x.toBin.1 = .ok y ∧ y.list = x.list) ∧
    (∀ s : List Byte, ∃ y, BitsT.fromBin s = .ok y ∧ y.toBin.1 = s) ∧
    ∀ (fresh : ℕ → Limb) (x y : BitsT), x.bits ≤ maxConvertLen →
      (∀ garbage, ser garbage x.write = .ok (encBits x.list)) ∧
      ∀ src offset rest, src.length ≤ intMax → offset ≤ src.length →
      src.drop offset = encBits x.list ++ rest →
        ∃ z, BitsT.read fresh y ⟨src, offset, none⟩ =
          .ok (z, ⟨src, offset + (encBits x.list).length, none⟩) ∧
          z.list = x.list := by
  refine ⟨bitsRun_refines, fun x y h => ?_, fun x h => ?_, fun s => ?_, fun fresh x y h => ?_⟩
  · rw [BitsT.toBin_fst, BitsT.toBin_fst, h]
  · obtain ⟨y, hy, hlist⟩ := BitsT.fromBin_eq x.toBin.1
    refine ⟨y, hy, ?_⟩
    rw [hlist, BitsT.toBin_fst, BitsT.unpackList_packList (by rw [BitsT.length_list, h])]
  · obtain ⟨y, hy, hlist⟩ := BitsT.fromBin_eq s
    refine ⟨y, hy, ?_⟩
    rw [BitsT.toBin_fst, hlist, BitsT.packList_unpackList]
  · exact BitsT.read_write fresh y h

/-- Five bits in a limb of ones. -/
def sampleBits : BitsT := BitsT.alloc (fun _ => BitVec.allOnes 64) BitsT.free 5

theorem bits_refine_sample :
    sampleBits.toBin.1 = sampleBits.bzeroUnused.toBin.1 ∧
    (∃ y, BitsT.fromBin (BitsT.ofCount 16).toBin.1 = .ok y ∧ y.list = (BitsT.ofCount 16).list) ∧
    (∀ garbage, ser garbage sampleBits.write = .ok (encBits sampleBits.list)) ∧
    ∃ z, BitsT.read (fun _ => 0) (BitsT.ofCount 70) ⟨encBits sampleBits.list ++ [7], 0, none⟩ =
        .ok (z, ⟨encBits sampleBits.list ++ [7], 0 + (encBits sampleBits.list).length, none⟩) ∧
        z.list = sampleBits.list := by
  obtain ⟨-, hview, hround, -, hconvert⟩ := bits_refine
  obtain ⟨hwrite, hread⟩ := hconvert (fun _ => 0) sampleBits (BitsT.ofCount 70) (by decide)
  exact ⟨hview _ _ (by decide), hround _ rfl, hwrite, hread _ 0 [7] (by decide) (Nat.zero_le _) rfl⟩

end CbMpc
