import CbMpc.OtExtension
import CbMpc.Converter

/-!
# The transposition of bit matrices

`matrix_transposition` on buffers of any size, with its index products in `int`, and
`ot_matrix_transpose`, which applies it to square blocks. Cell `(r, c)` of a matrix of `n` columns
is bit `r * n + c` of its buffer.
-/
namespace CbMpc

open BitString

namespace Transpose

/-- The product of two indices, which is an `int`. -/
def intMul (a b : ℕ) : Outcome ℕ := if a * b ≤ intMax then .ok (a * b) else throwing .overflow

/-- `INP_BYTE`. -/
def inpByte (inp : List Byte) (ncols x y : ℕ) : Outcome Byte := do
  let product ← intMul x ncols
  match inp[product / 8 + y / 8]? with
  | some byte => .ok byte
  | none => throwing .outOfBounds

/-- `le_set_2` at `OUT_BYTE`. -/
def setOutBytes (out : List Byte) (nrows x y : ℕ) (value : BitVec 16) : Outcome (List Byte) := do
  let product ← intMul y nrows
  if product / 8 + x / 8 + 2 ≤ out.length then
    .ok (overwrite out (product / 8 + x / 8) (leSet2 value))
  else throwing .outOfBounds

/-- One byte from each of sixteen rows. -/
def loadBlock (inp : List Byte) (ncols rr cc : ℕ) : Outcome V128 := do
  let b ← (List.range 16).mapM fun i => inpByte inp ncols (rr + i) cc
  .ok (V128.load fun i => b.getD i 0)

/-- `for (int i = 8; --i >= 0; tmp = lshift64x2(tmp))`, with the turns below `i` to come. -/
def storeBlock (nrows rr cc : ℕ) : ℕ → V128 → List Byte → Outcome (List Byte)
  | 0, _, out => .ok out
  | i + 1, tmp, out => do
    let out ← setOutBytes out nrows rr (cc + i) (high16x8 tmp)
    storeBlock nrows rr cc i (lshift64x2 tmp) out

def matrixTransposition (inp out : List Byte) (nrows ncols : ℕ) : Outcome (List Byte) := do
  cbAssert (decide (nrows % 8 = 0 ∧ ncols % 8 = 0))
  (List.range ((nrows + 15) / 16)).foldlM (fun out s =>
    (List.range ((ncols + 7) / 8)).foldlM (fun out t => do
      let tmp ← loadBlock inp ncols (16 * s) (8 * t)
      storeBlock nrows (16 * s) (8 * t) 8 tmp out) out) out

def matrixTranspose (inp out : List Byte) (nrows ncols : ℕ) : Outcome (List Byte) :=
  matrixTransposition inp out nrows ncols

theorem intMul_ok_iff {a b c : ℕ} : intMul a b = .ok c ↔ a * b ≤ intMax ∧ c = a * b := by
  unfold intMul
  split
  · rename_i h
    exact ⟨fun he => ⟨h, (Except.ok.inj he).symm⟩, fun he => by rw [he.2]⟩
  · rename_i h
    exact ⟨fun he => (by cases he), fun he => absurd he.1 h⟩

theorem intMul_of_le {a b : ℕ} (h : a * b ≤ intMax) : intMul a b = .ok (a * b) :=
  intMul_ok_iff.mpr ⟨h, rfl⟩

theorem bit_leSet2 (v : BitVec 16) {i : ℕ} (h : i < 16) : bit (leSet2 v) i = v.getLsbD i := by
  by_cases hlo : i < 8
  · have hdiv : i / 8 = 0 := by omega
    have hmod : i % 8 = i := by omega
    simp [bit, leSet2, hdiv, hmod, hlo]
  · have hdiv : i / 8 = 1 := by omega
    have hmod : 8 + i % 8 = i := by omega
    simp [bit, leSet2, hdiv, hmod, Nat.mod_lt]

/-- Two numbers with two digits each are in the order of their first digits. -/
theorem cell_lt {n c r d : ℕ} (hr : r < n) (h : c < d) : c * n + r < d * n := by
  calc c * n + r < c * n + n := by omega
    _ = (c + 1) * n := by ring
    _ ≤ d * n := Nat.mul_le_mul_right n h

section Sizes

variable {inp out out' : List Byte} {u w : ℕ}

theorem length_cells (u w : ℕ) : 16 * u * (8 * w) / 8 = 2 * (u * (8 * w)) := by
  rw [show 16 * u * (8 * w) = 8 * (2 * (u * (8 * w))) by ring]
  exact Nat.mul_div_cancel_left _ (by decide)

/-- A byte of row `x`, and the eight cells in it. -/
theorem inpByte_eq (hinp : inp.length = 2 * (u * (8 * w))) {x t : ℕ} (hx : x < 16 * u) (ht : t < w)
    (hfit : x * (8 * w) ≤ intMax) :
    ∃ byte, inpByte inp (8 * w) x (8 * t) = .ok byte ∧ ∀ n < 8,
      byte.getLsbD n = bit inp (x * (8 * w) + (8 * t + n)) := by
  have hrow : x * (8 * w) = 8 * (x * w) := by ring
  have hlt : x * (8 * w) + 8 * t < 16 * u * (8 * w) := cell_lt (by omega) hx
  have hlen : 8 * (x * w + t) < 8 * inp.length := by
    rw [hinp]
    calc 8 * (x * w + t) = x * (8 * w) + 8 * t := by ring
      _ < 16 * u * (8 * w) := hlt
      _ = 8 * (2 * (u * (8 * w))) := by ring
  have hindex : x * (8 * w) / 8 + 8 * t / 8 = x * w + t := by omega
  have hsome : inp[x * w + t]? = some inp[x * w + t] := List.getElem?_eq_getElem (by omega)
  refine ⟨inp[x * w + t], ?_, fun n hn => ?_⟩
  · rw [inpByte, intMul_of_le hfit, ok_bind, hindex, hsome]
  · have hdiv : (x * (8 * w) + (8 * t + n)) / 8 = x * w + t := by omega
    have hmod : (x * (8 * w) + (8 * t + n)) % 8 = n := by omega
    rw [bit_of_lt (by omega)]
    simp only [hdiv, hmod]

/-- The bytes of a block hold its cells, eight to a row. -/
theorem loadBlock_eq (hinp : inp.length = 2 * (u * (8 * w))) {s t : ℕ} (hs : s < u) (ht : t < w)
    (hfit : (16 * u - 1) * (8 * w) ≤ intMax) :
    ∃ b : ℕ → Byte, loadBlock inp (8 * w) (16 * s) (8 * t) = .ok (V128.load b) ∧
      ∀ i < 16, ∀ n < 8, (b i).getLsbD n = bit inp ((16 * s + i) * (8 * w) + (8 * t + n)) := by
  have hbyte : ∀ i ∈ List.range 16, ∃ byte,
      inpByte inp (8 * w) (16 * s + i) (8 * t) = .ok byte := by
    intro i hi
    have hi := List.mem_range.mp hi
    have hprod : (16 * s + i) * (8 * w) ≤ (16 * u - 1) * (8 * w) :=
      Nat.mul_le_mul_right _ (by omega)
    obtain ⟨byte, hok, -⟩ := inpByte_eq hinp (by omega : 16 * s + i < 16 * u) ht (hprod.trans hfit)
    exact ⟨byte, hok⟩
  obtain ⟨b, hb⟩ := exists_mapM_ok_iff.mpr hbyte
  refine ⟨fun i => b.getD i 0, ?_, fun i hi n hn => ?_⟩
  · rw [loadBlock, hb, ok_bind]
  · have hprod : (16 * s + i) * (8 * w) ≤ (16 * u - 1) * (8 * w) :=
      Nat.mul_le_mul_right _ (by omega)
    obtain ⟨byte, hok, hbits⟩ :=
      inpByte_eq hinp (by omega : 16 * s + i < 16 * u) ht (hprod.trans hfit)
    have hget := (mapM_range_ok hb 0).2 i hi
    rw [hok] at hget
    rw [← hbits n hn, Except.ok.inj hget]

/-- Sixteen cells of line `y` are set, and no others. -/
theorem setOutBytes_eq (hout : out.length = 2 * (u * (8 * w))) {s y : ℕ}
    (hs : s < u) (hy : y < 8 * w) (hfit : (8 * w - 1) * (16 * u) ≤ intMax) (value : BitVec 16) :
    ∃ out', setOutBytes out (16 * u) (16 * s) y value = .ok out' ∧ out'.length = out.length ∧
      ∀ c < 8 * w, ∀ r < 16 * u, bit out' (c * (16 * u) + r) =
        if c = y ∧ 16 * s ≤ r ∧ r < 16 * s + 16 then value.getLsbD (r - 16 * s) else
          bit out (c * (16 * u) + r) := by
  have hline : y * (16 * u) = 8 * (2 * (y * u)) := by ring
  have hindex : y * (16 * u) / 8 + 16 * s / 8 = 2 * (y * u) + 2 * s := by omega
  have hprod : y * (16 * u) ≤ (8 * w - 1) * (16 * u) := Nat.mul_le_mul_right _ (by omega)
  have hroom : 2 * (y * u) + 2 * s + 2 ≤ out.length := by
    have hyu : (y + 1) * u ≤ 8 * w * u := Nat.mul_le_mul_right u hy
    have hexp : (y + 1) * u = y * u + u := by ring
    have hcomm : 8 * w * u = u * (8 * w) := by ring
    omega
  have hlen : (leSet2 value).length = 2 := rfl
  refine ⟨overwrite out (2 * (y * u) + 2 * s) (leSet2 value), ?_, length_overwrite (by omega),
    fun c hc r hr => ?_⟩
  · rw [setOutBytes, intMul_of_le (hprod.trans hfit), ok_bind, hindex, if_pos hroom]
  · rw [bit_overwrite (by omega), hlen]
    by_cases hcell : c = y ∧ 16 * s ≤ r ∧ r < 16 * s + 16
    · obtain ⟨rfl, hlow, hhigh⟩ := hcell
      have hoff : c * (16 * u) + r - 8 * (2 * (c * u) + 2 * s) = r - 16 * s := by omega
      rw [if_pos (by omega), if_pos ⟨rfl, hlow, hhigh⟩, hoff, bit_leSet2 value (by omega)]
    · rw [if_neg hcell, if_neg]
      rintro ⟨hlow, hhigh⟩
      rcases lt_trichotomy c y with hlt | rfl | hgt
      · have := cell_lt hr hlt
        omega
      · omega
      · have := cell_lt (by omega : 16 * s + 15 < 16 * u) hgt
        omega

/-- The cells in `done` are those of the transposed matrix, and the others are as before. -/
structure Filled (inp : List Byte) (u w : ℕ) (done : ℕ → ℕ → Prop)
    (before out : List Byte) : Prop where
  length_eq : out.length = before.length
  cell : ∀ r < 16 * u, ∀ c < 8 * w, done r c →
    bit out (c * (16 * u) + r) = bit inp (r * (8 * w) + c)
  other : ∀ r < 16 * u, ∀ c < 8 * w, ¬done r c →
    bit out (c * (16 * u) + r) = bit before (c * (16 * u) + r)

theorem Filled.refl (inp out : List Byte) (u w : ℕ) : Filled inp u w (fun _ _ => False) out out :=
  ⟨rfl, fun _ _ _ _ h => h.elim, fun _ _ _ _ _ => rfl⟩

theorem Filled.trans {done done' : ℕ → ℕ → Prop} {before mid : List Byte}
    (h : Filled inp u w done before mid) (h' : Filled inp u w done' mid out) :
    Filled inp u w (fun r c => done r c ∨ done' r c) before out where
  length_eq := h'.length_eq.trans h.length_eq
  cell r hr c hc hdone := by
    by_cases hlast : done' r c
    · exact h'.cell r hr c hc hlast
    · rw [h'.other r hr c hc hlast]
      exact h.cell r hr c hc (hdone.resolve_right hlast)
  other r hr c hc hdone := by
    rw [h'.other r hr c hc fun hlast => hdone (.inr hlast)]
    exact h.other r hr c hc fun hfirst => hdone (.inl hfirst)

theorem Filled.congr {done done' : ℕ → ℕ → Prop} {before : List Byte}
    (h : Filled inp u w done before out) (hiff : ∀ r c, done r c ↔ done' r c) :
    Filled inp u w done' before out where
  length_eq := h.length_eq
  cell r hr c hc hdone := h.cell r hr c hc ((hiff r c).mpr hdone)
  other r hr c hc hdone := h.other r hr c hc fun hd => hdone ((hiff r c).mp hd)

/-- A loop whose turns fill one part of the matrix each. -/
theorem filled_foldlM {f : List Byte → ℕ → Outcome (List Byte)}
    {part : ℕ → ℕ → ℕ → Prop} {size : ℕ} (n : ℕ)
    (hf : ∀ t < n, ∀ out : List Byte, out.length = size → ∃ out', f out t = .ok out' ∧
      Filled inp u w (part t) out out') {out : List Byte} (hout : out.length = size) :
    ∃ out', (List.range n).foldlM f out = .ok out' ∧
    Filled inp u w (fun r c => ∃ t < n, part t r c) out out' := by
  induction n with
  | zero => exact ⟨out, rfl, (Filled.refl inp out u w).congr fun r c => by simp⟩
  | succ n ih =>
    obtain ⟨mid, hmid, hfilled⟩ := ih fun t ht => hf t (by omega)
    obtain ⟨out', hok, hlast⟩ := hf n (by omega) mid (hfilled.length_eq.trans hout)
    refine ⟨out', ?_, (hfilled.trans hlast).congr fun r c => ?_⟩
    · rw [List.range_succ, List.foldlM_append, hmid, ok_bind, List.foldlM_cons, hok, ok_bind]
      rfl
    · constructor
      · rintro (⟨t, ht, hp⟩ | hp)
        · exact ⟨t, by omega, hp⟩
        · exact ⟨n, by omega, hp⟩
      · rintro ⟨t, ht, hp⟩
        rcases Nat.lt_succ_iff_lt_or_eq.mp ht with hlt | rfl
        · exact .inl ⟨t, hlt, hp⟩
        · exact .inr hp

/-- Line `n` of a block is stored while the words are shifted by `7 - n`. -/
theorem storeBlock_eq (hout : out.length = 2 * (u * (8 * w))) {s t : ℕ} (hs : s < u) (ht : t < w)
    (hfit : (8 * w - 1) * (16 * u) ≤ intMax) {b : ℕ → Byte}
    (hb : ∀ i < 16, ∀ n < 8, (b i).getLsbD n = bit inp ((16 * s + i) * (8 * w) + (8 * t + n)))
    {n : ℕ} (hn : n ≤ 8) :
    ∃ out', storeBlock (16 * u) (16 * s) (8 * t) n
      (lshift64x2^[8 - n] (V128.load b)) out = .ok out' ∧
      Filled inp u w (fun r c => (16 * s ≤ r ∧ r < 16 * s + 16) ∧ 8 * t ≤ c ∧
        c < 8 * t + n) out out' := by
  induction n generalizing out with
  | zero =>
    refine ⟨out, rfl, (Filled.refl inp out u w).congr fun r c => ⟨False.elim, ?_⟩⟩
    rintro ⟨-, hlow, hhigh⟩
    omega
  | succ n ih =>
    obtain ⟨mid, hmid, hlen, hcells⟩ := setOutBytes_eq hout hs (by omega : 8 * t + n < 8 * w) hfit
      (high16x8 (lshift64x2^[8 - (n + 1)] (V128.load b)))
    have hshift : 8 - (n + 1) = 7 - n := by omega
    have hnext : lshift64x2 (lshift64x2^[7 - n] (V128.load b)) =
        lshift64x2^[8 - n] (V128.load b) := by
      rw [← Function.iterate_succ_apply' lshift64x2, show (7 - n).succ = 8 - n by omega]
    have hline : Filled inp u w (fun r c => c = 8 * t + n ∧ 16 * s ≤ r ∧
        r < 16 * s + 16) out mid := by
      refine ⟨hlen, fun r hr c hc hdone => ?_, fun r hr c hc hdone => ?_⟩
      · obtain ⟨rfl, hlow, hhigh⟩ : c = 8 * t + n ∧ 16 * s ≤ r ∧ r < 16 * s + 16 := hdone
        have hrow : 16 * s + (r - 16 * s) = r := by omega
        rw [hcells _ hc r hr, if_pos ⟨rfl, hlow, hhigh⟩, hshift,
          high16x8_lshift b (by omega) (by omega), hb _ (by omega) n (by omega), hrow]
      · rw [hcells c hc r hr, if_neg hdone]
    obtain ⟨out', hok, hrest⟩ := ih (hlen.trans hout) (by omega)
    refine ⟨out', ?_, (hline.trans hrest).congr fun r c => by omega⟩
    rw [storeBlock, hmid, ok_bind, hshift, hnext]
    exact hok

/-- The whole matrix, block by block. -/
theorem matrixTransposition_eq (hinp : inp.length = 2 * (u * (8 * w)))
    (hout : out.length = 2 * (u * (8 * w))) (hread : (16 * u - 1) * (8 * w) ≤ intMax)
    (hwrite : (8 * w - 1) * (16 * u) ≤ intMax) :
    ∃ out', matrixTransposition inp out (16 * u) (8 * w) = .ok out' ∧
    Filled inp u w (fun _ _ => True) out out' := by
  have hrows : (16 * u + 15) / 16 = u := by omega
  have hcols : (8 * w + 7) / 8 = w := by omega
  have haligned : 16 * u % 8 = 0 ∧ 8 * w % 8 = 0 := by omega
  have hloop := @filled_foldlM inp u w
    (fun out s => (List.range w).foldlM (fun out t => do
      let tmp ← loadBlock inp (8 * w) (16 * s) (8 * t)
      storeBlock (16 * u) (16 * s) (8 * t) 8 tmp out) out)
    (fun s r c => ∃ t < w, (16 * s ≤ r ∧ r < 16 * s + 16) ∧ 8 * t ≤ c ∧
    c < 8 * t + 8) (2 * (u * (8 * w))) u
    (fun s hs out hout => filled_foldlM w (fun t ht out hout => by
      obtain ⟨b, hload, hb⟩ := loadBlock_eq hinp hs ht hread
      obtain ⟨out', hstore, hfilled⟩ := storeBlock_eq hout hs ht hwrite hb le_rfl
      exact ⟨out', by rw [hload, ok_bind]; exact hstore, hfilled⟩) hout) out hout
  obtain ⟨out', hok, hfilled⟩ := hloop
  refine ⟨out', ?_, hfilled.length_eq, fun r hr c hc _ => ?_, fun _ _ _ _ h => absurd trivial h⟩
  · rw [matrixTransposition, decide_eq_true haligned, cbAssert_true, ok_bind, hrows, hcols]
    exact hok
  · exact hfilled.cell r hr c hc ⟨r / 16, by omega, c / 8, by omega, by omega⟩

/-- Without an overflow every index product fits. -/
theorem products_of_ok (h : matrixTransposition inp out (16 * (u + 1)) (8 * (w + 1)) = .ok out') :
    (16 * (u + 1) - 1) * (8 * (w + 1)) ≤ intMax ∧ (8 * (w + 1) - 1) * (16 * (u + 1)) ≤ intMax := by
  have hrows : (16 * (u + 1) + 15) / 16 = u + 1 := by omega
  have hcols : (8 * (w + 1) + 7) / 8 = w + 1 := by omega
  obtain ⟨-, h⟩ := cbAssert_bind_ok_iff.mp h
  rw [hrows, hcols] at h
  -- the last block reads the last row and writes the last line
  obtain ⟨_, _, hrow⟩ := foldlM_ok_mem h u (by simp)
  obtain ⟨_, _, hblock⟩ := foldlM_ok_mem hrow w (by simp)
  obtain ⟨tmp, hload, hstore⟩ := bind_ok_iff.mp hblock
  constructor
  · obtain ⟨b, hb, -⟩ := bind_ok_iff.mp hload
    have hlast := (mapM_range_ok hb 0).2 15 (by decide)
    obtain ⟨product, hproduct, -⟩ := bind_ok_iff.mp hlast
    rw [show 16 * (u + 1) - 1 = 16 * u + 15 by omega]
    exact (intMul_ok_iff.mp hproduct).1
  · obtain ⟨mid, hset, -⟩ := bind_ok_iff.mp hstore
    obtain ⟨product, hproduct, -⟩ := bind_ok_iff.mp hset
    rw [show 8 * (w + 1) - 1 = 8 * w + 7 by omega]
    exact (intMul_ok_iff.mp hproduct).1

end Sizes

/-- The buffers are not left, no index overflows, and cell `(c, r)` of the output is cell `(r, c)`
of the input. -/
def Exact (inp out : List Byte) (nrows ncols : ℕ) : Prop :=
  ∃ out', matrixTransposition inp out nrows ncols = .ok out' ∧ out'.length = out.length ∧
    ∀ r < nrows, ∀ c < ncols, bit out' (c * nrows + r) = bit inp (r * ncols + c)

theorem exact_iff {inp out : List Byte} {nrows ncols : ℕ}
    (hrows : nrows % 16 = 0) (hcols : ncols % 8 = 0) (hinp : inp.length = nrows * ncols / 8)
    (hout : out.length = nrows * ncols / 8) :
    Exact inp out nrows ncols ↔ (nrows - 1) * ncols ≤ intMax ∧ (ncols - 1) * nrows ≤ intMax := by
  obtain ⟨u, rfl⟩ : ∃ u, nrows = 16 * u := ⟨nrows / 16, by omega⟩
  obtain ⟨w, rfl⟩ : ∃ w, ncols = 8 * w := ⟨ncols / 8, by omega⟩
  rw [length_cells] at hinp hout
  constructor
  · rintro ⟨out', hok, -, -⟩
    cases u with
    | zero => simp
    | succ u =>
      cases w with
      | zero => simp
      | succ w => exact products_of_ok hok
  · rintro ⟨hread, hwrite⟩
    obtain ⟨out', hok, hfilled⟩ := matrixTransposition_eq hinp hout hread hwrite
    exact ⟨out', hok, hfilled.length_eq, fun r hr c hc => hfilled.cell r hr c hc trivial⟩

end Transpose

open Transpose

/-- `h_matrix_256rows_t`, whose rows lie one behind the other in a `buf_t`. -/
structure HMatrix256 where
  buf : List Byte
  size_le : buf.length ≤ intMax

namespace HMatrix256

def rowSizeInBytes (h : HMatrix256) : ℕ := h.buf.length / 256

def cols (h : HMatrix256) : ℕ := 8 * h.rowSizeInBytes

/-- The bytes of `get_row`. -/
def row (h : HMatrix256) (index : ℕ) : List Byte :=
  (h.buf.drop (h.rowSizeInBytes * index)).take h.rowSizeInBytes

end HMatrix256

/-- Line `c` of a `v_matrix_256cols_t`, whose lines lie one behind the other. -/
def vLine (v : List Byte) (c : ℕ) : List Byte := (v.drop (32 * c)).take 32

/-- `v_matrix_256cols_t::alloc`, which keeps the lines that there are. -/
def vAlloc (v : List Byte) (rows : ℕ) : List Byte :=
  v.take (32 * rows) ++ List.replicate (32 * rows - v.length) 0

/-- The two sides of `memmove`. -/
def readBytes (s : List Byte) (k n : ℕ) : Outcome (List Byte) :=
  if k + n ≤ s.length then .ok ((s.drop k).take n) else throwing .outOfBounds

def writeBytes (s : List Byte) (k : ℕ) (t : List Byte) : Outcome (List Byte) :=
  if k + t.length ≤ s.length then .ok (overwrite s k t) else throwing .outOfBounds

namespace OtMatrix

/-- `h_temp`, block `i` of the columns, over what was in the memory. -/
def loadTemp (hSrc : HMatrix256) (i : ℕ) (garbage : ℕ → Byte) : Outcome (List Byte) :=
  (List.range 256).foldlM (fun temp j => do
    let start ← intMul hSrc.rowSizeInBytes j
    let bytes ← readBytes hSrc.buf (start + 32 * i) 32
    writeBytes temp (32 * j) bytes) ((List.range (256 * 32)).map garbage)

def otMatrixTranspose (garbage : ℕ → ℕ → Byte) (hSrc : HMatrix256)
    (vDst : List Byte) : Outcome (List Byte) :=
  (List.range (hSrc.cols / 256)).foldlM (fun vDst i => do
    let temp ← loadTemp hSrc i (garbage i)
    let block ← readBytes vDst (32 * (256 * i)) (256 * 32)
    let block ← matrixTranspose temp block 256 256
    writeBytes vDst (32 * (256 * i)) block) (vAlloc vDst hSrc.cols)

@[simp] theorem length_vAlloc (v : List Byte) (rows : ℕ) : (vAlloc v rows).length = 32 * rows := by
  simp only [vAlloc, List.length_append, List.length_take, List.length_replicate]
  omega

theorem bit_row (h : HMatrix256) {j c : ℕ} (hc : c < h.cols) :
    bit (h.row j) c = bit h.buf (8 * (h.rowSizeInBytes * j) + c) := bit_slice _ _ hc

theorem bit_vLine (v : List Byte) (c : ℕ) {r : ℕ} (hr : r < 256) :
    bit (vLine v c) r = bit v (256 * c + r) := by
  rw [vLine, bit_slice _ _ (by omega), show 8 * (32 * c) = 256 * c by ring]

/-- Row `j` of a block is the part of row `j` of the matrix below the block. -/
theorem loadTemp_eq {h : HMatrix256} {i : ℕ} (hi : i < h.cols / 256) (garbage : ℕ → Byte) :
    ∃ temp, loadTemp h i garbage = .ok temp ∧ temp.length = 256 * 32 ∧
      ∀ j < 256, ∀ c < 256, bit temp (j * 256 + c) = bit (h.row j) (256 * i + c) := by
  have hcols : h.cols = 8 * h.rowSizeInBytes := rfl
  have hsize : h.rowSizeInBytes * 256 ≤ h.buf.length := Nat.div_mul_le_self _ _
  have hint := h.size_le
  have hloop := foldlM_range_ok (f := fun temp j => do
      let start ← intMul h.rowSizeInBytes j
      let bytes ← readBytes h.buf (start + 32 * i) 32
      writeBytes temp (32 * j) bytes) (b := (List.range (256 * 32)).map garbage)
    (I := fun t temp => temp.length = 256 * 32 ∧
      ∀ j < t, ∀ c < 256, bit temp (j * 256 + c) = bit (h.row j) (256 * i + c)) 256
    (fun t ht temp htemp => by
      obtain ⟨hlen, hrows⟩ := htemp
      have hnext : h.rowSizeInBytes * (t + 1) ≤ h.rowSizeInBytes * 256 := Nat.mul_le_mul_left _ ht
      rw [Nat.mul_add, Nat.mul_one] at hnext
      have hbytes : ((h.buf.drop (h.rowSizeInBytes * t + 32 * i)).take 32).length = 32 := by
        rw [List.length_take, List.length_drop]
        omega
      have hroom : 32 * t + ((h.buf.drop (h.rowSizeInBytes * t + 32 * i)).take 32).length ≤
        temp.length := by omega
      refine ⟨overwrite temp (32 * t) ((h.buf.drop (h.rowSizeInBytes * t + 32 * i)).take 32), ?_,
        (length_overwrite hroom).trans hlen, fun j hj c hc => ?_⟩
      · rw [intMul_of_le (by omega), ok_bind, readBytes, if_pos (by omega), ok_bind, writeBytes,
          if_pos hroom]
      · rw [bit_overwrite hroom, hbytes]
        by_cases hlast : j = t
        · subst hlast
          have hoff : j * 256 + c - 8 * (32 * j) = c := by omega
          rw [if_pos (by omega), hoff, bit_slice _ _ (by omega), bit_row h (by omega)]
          congr 1
          omega
        · rw [if_neg (by omega)]
          exact hrows j (by omega) c hc) ⟨by simp, fun j hj => absurd hj (Nat.not_lt_zero j)⟩
  obtain ⟨temp, hok, hlen, hrows⟩ := hloop
  exact ⟨temp, hok, hlen, hrows⟩

/-- After `i` blocks their columns are lines of the destination. -/
theorem otMatrixTranspose_eq (garbage : ℕ → ℕ → Byte) (h : HMatrix256) (vDst : List Byte) :
    ∃ v, otMatrixTranspose garbage h vDst = .ok v ∧ v.length = 32 * h.cols ∧
      ∀ c < 256 * (h.cols / 256), ∀ r < 256, bit v (256 * c + r) = bit (h.row r) c := by
  refine foldlM_range_ok (I := fun i v => v.length = 32 * h.cols ∧
    ∀ c < 256 * i, ∀ r < 256, bit v (256 * c + r) = bit (h.row r) c)
      (h.cols / 256) (fun i hi v hv => ?_)
    ⟨length_vAlloc _ _, fun c hc => absurd hc (Nat.not_lt_zero c)⟩
  obtain ⟨hlen, hlines⟩ := hv
  obtain ⟨temp, htemp, htlen, hrows⟩ := loadTemp_eq hi (garbage i)
  have hblock : ((v.drop (32 * (256 * i))).take (256 * 32)).length = 256 * 32 := by
    rw [List.length_take, List.length_drop]
    omega
  have hexact : Exact temp ((v.drop (32 * (256 * i))).take (256 * 32)) 256 256 :=
    (exact_iff rfl rfl htlen hblock).mpr (by decide)
  obtain ⟨block, hok, hblen, hcells⟩ := hexact
  rw [hblock] at hblen
  refine ⟨overwrite v (32 * (256 * i)) block, ?_, (length_overwrite (by omega)).trans hlen,
    fun c hc r hr => ?_⟩
  · rw [htemp, ok_bind, readBytes, if_pos (by omega), ok_bind, matrixTranspose, hok,
      ok_bind, writeBytes, if_pos (by omega)]
  · rw [bit_overwrite (by omega), hblen]
    by_cases hnew : 256 * i ≤ c
    · have hoff : 256 * c + r - 8 * (32 * (256 * i)) = (c - 256 * i) * 256 + r := by omega
      have hcol : 256 * i + (c - 256 * i) = c := by omega
      rw [if_pos (by omega), hoff, hcells r hr (c - 256 * i) (by omega),
        hrows r hr _ (by omega), hcol]
    · rw [if_neg (by omega)]
      exact hlines c (by omega) r hr

/-- The columns behind the last whole block are padding of the OT extension. -/
theorem lt_wholeBlocks {m i : ℕ} (hi : i < m) : i < 256 * (otCols m / 256) := by
  unfold otCols otPad otKappa
  split <;> omega

theorem cols_of_alloc {m : ℕ} {h : HMatrix256}
    (halloc : h.buf.length = bitsToBytes (otCols m) * 256) :
    h.cols = otCols m := by
  have hmul : otCols m % 8 = 0 := by
    unfold otCols otPad otKappa
    split <;> omega
  rw [HMatrix256.cols, HMatrix256.rowSizeInBytes, halloc, Nat.mul_div_cancel _ (by decide),
    bitsToBytes]
  omega

/-- In the whole blocks the lines are those that the OT extension is modelled with. -/
theorem vLine_eq {garbage : ℕ → ℕ → Byte} {h : HMatrix256} {vDst v : List Byte}
    (hv : otMatrixTranspose garbage h vDst = .ok v) {c : ℕ} (hc : c < 256 * (h.cols / 256)) :
    vLine v c = (CbMpc.otMatrixTranspose h.cols ((List.range 256).map h.row)).getD c [] := by
  obtain ⟨w, hw, hlen, hcells⟩ := otMatrixTranspose_eq garbage h vDst
  obtain rfl : v = w := Except.ok.inj (hv.symm.trans hw)
  have hline : (vLine v c).length = 32 := by
    rw [vLine, List.length_take, List.length_drop]
    omega
  apply eq_of_bit
  · rw [hline, length_otMatrixTranspose (by omega)]
  · intro r hr
    have hr : r < 256 := by omega
    rw [bit_vLine v c hr, hcells c hc r hr, bit_otMatrixTranspose hc hr, getD_map_range _ _ hr]

end OtMatrix

/-- A matrix is transposed when its index products are `int`s, and only then. The blocks of an OT
matrix are, and among their columns is every column that belongs to one of the `m` transfers. Each
of their lines is the one that the OT extension works with. -/
theorem bit_transposition :
    (∀ (nrows ncols : ℕ) (inp out : List Byte), nrows % 16 = 0 → ncols % 8 = 0 →
      inp.length = nrows * ncols / 8 → out.length = nrows * ncols / 8 →
      (Exact inp out nrows ncols ↔ (nrows - 1) * ncols ≤ intMax ∧ (ncols - 1) * nrows ≤ intMax)) ∧
    ∀ (garbage : ℕ → ℕ → Byte) (h : HMatrix256) (vDst : List Byte),
      ∃ v, OtMatrix.otMatrixTranspose garbage h vDst = .ok v ∧ v.length = 32 * h.cols ∧
        (∀ c < 256 * (h.cols / 256), ∀ r < 256, bit (vLine v c) r = bit (h.row r) c) ∧
        (∀ c < 256 * (h.cols / 256),
          vLine v c = (CbMpc.otMatrixTranspose h.cols ((List.range 256).map h.row)).getD c []) ∧
        ∀ m, h.buf.length = bitsToBytes (otCols m) * 256 → ∀ i < m, i < 256 * (h.cols / 256) ∧
          ∀ r < 256, bit (vLine v i) r = bit (h.row r) i := by
  refine ⟨fun nrows ncols inp out hrows hcols hinp hout => exact_iff hrows hcols hinp hout,
    fun garbage h vDst => ?_⟩
  obtain ⟨v, hok, hlen, hcells⟩ := OtMatrix.otMatrixTranspose_eq garbage h vDst
  have hlines : ∀ c < 256 * (h.cols / 256), ∀ r < 256, bit (vLine v c) r = bit (h.row r) c := by
    intro c hc r hr
    rw [OtMatrix.bit_vLine v c hr, hcells c hc r hr]
  have hcopy : ∀ c < 256 * (h.cols / 256),
      vLine v c = (CbMpc.otMatrixTranspose h.cols ((List.range 256).map h.row)).getD c [] :=
    fun c hc => OtMatrix.vLine_eq hok hc
  refine ⟨v, hok, hlen, hlines, hcopy, fun m halloc i hi => ?_⟩
  have hin : i < 256 * (h.cols / 256) := by
    rw [OtMatrix.cols_of_alloc halloc]
    exact OtMatrix.lt_wholeBlocks hi
  exact ⟨hin, hlines i hin⟩

/-- A block of sixteen rows, and the matrix of one transfer. -/
theorem bit_transposition_sample :
    Exact (List.replicate 16 0x5a#8) (List.replicate 16 0#8) 16 8 ∧
    ∃ v, OtMatrix.otMatrixTranspose (fun _ _ => 0)
      ⟨List.replicate 8192 0x5a#8, by rw [List.length_replicate]; decide⟩ [] = .ok v ∧
      ∀ r < 256, bit (vLine v 0) r =
        bit (HMatrix256.row ⟨List.replicate 8192 0x5a#8, by rw [List.length_replicate]; decide⟩ r)
        0 := by
  refine ⟨(bit_transposition.1 16 8 _ _ rfl rfl List.length_replicate List.length_replicate).mpr
    (by decide), ?_⟩
  obtain ⟨v, hok, -, -, -, hcolumns⟩ := bit_transposition.2 (fun _ _ => 0)
    ⟨List.replicate 8192 0x5a#8, by rw [List.length_replicate]; decide⟩ []
  exact ⟨v, hok, (hcolumns 1 List.length_replicate 0 (by decide)).2⟩

/-- The last of sixteen rows can start behind `INT_MAX`. -/
theorem bit_transposition_overflow :
    (List.replicate 286331168 0#8).length = 16 * 143165584 / 8 ∧
    ¬Exact (List.replicate 286331168 0#8) (List.replicate 286331168 0#8) 16 143165584 := by
  refine ⟨List.length_replicate, fun h => ?_⟩
  have hfit := (exact_iff rfl rfl List.length_replicate List.length_replicate).mp h
  exact absurd hfit.1 (by decide)

end CbMpc
