import CbMpc.Sharing

/-!
# Multiplication by oblivious transfer

In `ecdsampc::sign` every pair of parties turns four products of their secrets into
sums. The receiver encodes its secret in the signs given by its choice bits, with the
last coordinate correcting the sum, and both sides expand one seed in the same order. A
sum over all ordered pairs only depends on what each unordered pair contributes.
-/
namespace PairSums

variable {n : ℕ} {M : Type} [AddCommGroup M]

/-- Contributions that cancel within each pair sum to zero. -/
theorem sum_eq_zero_of_antisymm {f : Fin n → Fin n → M} (hdiag : ∀ i, f i i = 0)
    (hanti : ∀ i j, f i j = -f j i) :
    ∑ i, ∑ j, f i j = 0 := by
  have hsplit : ∑ i, ∑ j, f i j = ∑ i, ∑ j, (if j < i then f i j else 0) + ∑ i, ∑ j,
      (if i < j then f i j else 0) := by
    simp only [← Finset.sum_add_distrib]
    refine Finset.sum_congr rfl fun i _ => Finset.sum_congr rfl fun j _ => ?_
    rcases lt_trichotomy j i with h | h | h
    · simp [h, h.not_gt]
    · simp [h, hdiag]
    · simp [h, h.not_gt]
  have hswap : ∑ i, ∑ j, (if i < j then f i j else 0) = -∑ i, ∑ j,
      (if j < i then f i j else 0) := by
    rw [Finset.sum_comm]
    simp only [← Finset.sum_neg_distrib]
    refine Finset.sum_congr rfl fun j _ => Finset.sum_congr rfl fun i _ => ?_
    split
    · exact hanti i j
    · simp
  rw [hsplit, hswap, add_neg_cancel]

/-- Two ways to split what each pair contributes between its members. -/
theorem sum_eq_of_pairs {f g : Fin n → Fin n → M} (hdiag : ∀ i, f i i = g i i)
    (hpair : ∀ i j, i ≠ j → f i j + f j i = g i j + g j i) : ∑ i, ∑ j, f i j = ∑ i, ∑ j, g i j := by
  have hzero : ∑ i, ∑ j, (f i j - g i j) = 0 := by
    refine sum_eq_zero_of_antisymm (fun i => by rw [hdiag, sub_self]) fun i j => ?_
    by_cases hij : i = j
    · simp [hij, hdiag]
    · have h := hpair i j hij
      rw [neg_sub, sub_eq_sub_iff_add_eq_add, h]
      abel
  simp only [Finset.sum_sub_distrib] at hzero
  exact sub_eq_zero.mp hzero

end PairSums

namespace CbMpc

/-- The roles of a pair, as the integers of `ot_role_map`. -/
def otNoRole : ℤ := -1
def otSender : ℤ := 0
def otReceiver : ℤ := 1

/-- `ot_role_map[r][c]`. -/
def roleAt (roles : List (List ℤ)) (r c : ℕ) : ℤ := (roles.getD r []).getD c otNoRole

/-- The test of one entry of the map. -/
def validateRole (roles : List (List ℤ)) (r c : ℕ) : Outcome Unit :=
  let role := roleAt roles r c
  if r = c then require (decide (role = otNoRole)) .badArg
  else do
    require (decide (role = otSender ∨ role = otReceiver)) .badArg
    let opp := roleAt roles c r
    require (decide (¬((role = otSender ∧ opp ≠ otReceiver) ∨
      (role = otReceiver ∧ opp ≠ otSender)))) .badArg

/-- The validation of `ot_role_map` for `n` parties. -/
def validateRoleMap (n : ℕ) (roles : List (List ℤ)) : Outcome Unit := do
  require (decide (roles.length = n)) .badArg
  forEach (fun r => require (decide ((roles.getD r []).length = n)) .badArg) (List.range n)
  forEach (fun r => forEach (fun c => validateRole roles r c) (List.range n)) (List.range n)

theorem validateRoleMap_ok {n : ℕ} {roles : List (List ℤ)}
    (h : validateRoleMap n roles = .ok ()) {r c : ℕ} (hr : r < n) (hc : c < n) (hne : r ≠ c) :
    (roleAt roles r c = otSender ∧ roleAt roles c r = otReceiver) ∨
      (roleAt roles r c = otReceiver ∧ roleAt roles c r = otSender) := by
  obtain ⟨-, h⟩ := require_bind_ok_iff.mp h
  obtain ⟨u, -, h⟩ := bind_ok_iff.mp h
  have hentry := forEach_ok_iff.mp (forEach_ok_iff.mp h r (by simpa using hr)) c (by simpa using hc)
  simp only [validateRole, hne, if_false] at hentry
  obtain ⟨hrole, hopp⟩ := require_bind_ok_iff.mp hentry
  rw [require_ok_iff, decide_eq_true_eq] at hopp
  rw [decide_eq_true_eq] at hrole
  rcases hrole with hrole | hrole
  · refine .inl ⟨hrole, ?_⟩
    by_contra hne'
    exact hopp (.inl ⟨hrole, hne'⟩)
  · refine .inr ⟨hrole, ?_⟩
    by_contra hne'
    exact hopp (.inr ⟨hrole, hne'⟩)

theorem validateRoleMap_diag {n : ℕ} {roles : List (List ℤ)}
    (h : validateRoleMap n roles = .ok ()) {r : ℕ} (hr : r < n) :
    roleAt roles r r = otNoRole := by
  obtain ⟨-, h⟩ := require_bind_ok_iff.mp h
  obtain ⟨u, -, h⟩ := bind_ok_iff.mp h
  have hentry := forEach_ok_iff.mp (forEach_ok_iff.mp h r (by simpa using hr)) r (by simpa using hr)
  simpa [validateRole] using hentry

section Loops

variable (q : ℕ)

/-- `drbg.gen_bn(q)`, and `count` of them. -/
def genBn {q : ℕ} (drbg : Rand q) : ℤ × Rand q := (residue drbg.head, drbg.tail)

def genBns {q : ℕ} (count : ℕ) (drbg : Rand q) : List ℤ × Rand q :=
  ((drbg.take count).map residue, drbg.drop count)

/-- The signed sum of the receiver's first coordinates. -/
def signedSum (terms : List (Bool × ℤ)) : Outcome ℤ :=
  terms.foldlM (fun temp p => if p.1 then modAdd false q temp p.2 else modSub false q temp p.2) 0

/-- The receiver's sum of products. -/
def addProducts (terms : List (ℤ × ℤ)) : Outcome ℤ :=
  terms.foldlM (fun sum p => do
    let term ← modMul false q p.1 p.2
    modAdd false q sum term) 0

/-- The sender's sum of products, which it subtracts. -/
def subProducts (terms : List (ℤ × ℤ)) : Outcome ℤ :=
  terms.foldlM (fun sum p => do
    let term ← modMul false q p.1 p.2
    modSub false q sum term) 0

/-- The receiver's last coordinate, which makes the signed sum of all its coordinates
the secret `a`. -/
def lastCoordinate (last : Bool) (a temp : ℤ) : Outcome ℤ :=
  if last then modSub false q a temp else modSub false q temp a

/-- The receiver's turn for one product: its last coordinate and its share. `R l` and
`X l` are its choice bit and the output of transfer `l`. -/
def receiverTurn {q : ℕ} (theta : ℕ) (a : ℤ) (R : ℕ → Bool) (X : ℕ → ℤ) (drbg : Rand q) :
    Outcome ((ℤ × ℤ) × Rand q) := do
  let (v, drbg) := genBns (theta - 1) drbg
  let temp ← signedSum q (((List.range (theta - 1)).map R).zip v)
  let vTheta ← lastCoordinate q (R (theta - 1)) a temp
  let (sigma, drbg) := genBn drbg
  let sum ← addProducts q ((v ++ [vTheta]).zip ((List.range theta).map X))
  let s ← modAdd false q sigma sum
  .ok ((vTheta, s), drbg)

/-- The sender's turn for one product. -/
def senderTurn {q : ℕ} (theta : ℕ) (vTheta : ℤ) (delta : ℕ → ℤ) (drbg : Rand q) :
    Outcome (ℤ × Rand q) := do
  let (v, drbg) := genBns (theta - 1) drbg
  let (sigma, drbg) := genBn drbg
  let sum ← subProducts q ((v ++ [vTheta]).zip ((List.range theta).map delta))
  let s ← modSub false q sum sigma
  .ok (s, drbg)

/-- The receiver's loop over the four products. -/
def receiverLoop {q : ℕ} (theta : ℕ) (a : Fin 4 → ℤ) (R : ℕ → Fin 4 → Bool)
    (X : ℕ → Fin 4 → ℤ) (drbg : Rand q) (ts : List (Fin 4)) : Outcome (List (ℤ × ℤ) × Rand q) :=
  ts.foldlM (fun acc t => do
    let (out, drbg) ← receiverTurn theta (a t) (fun l => R l t) (fun l => X l t) acc.2
    .ok (acc.1 ++ [out], drbg)) ([], drbg)

/-- The sender's loop over the four products. -/
def senderLoop {q : ℕ} (theta : ℕ) (vTheta : Fin 4 → ℤ) (delta : ℕ → Fin 4 → ℤ)
    (drbg : Rand q) (ts : List (Fin 4)) :
    Outcome (List ℤ × Rand q) :=
  ts.foldlM (fun acc t => do
    let (out, drbg) ← senderTurn theta (vTheta t) (fun l => delta l t) acc.2
    .ok (acc.1 ++ [out], drbg)) ([], drbg)

end Loops

section Spec

variable {q : ℕ} [hq : Fact q.Prime]

/-- A bit as a sign. -/
def signed (b : Bool) (z : ZMod q) : ZMod q := if b then z else -z

theorem signedSum_eq (terms : List (Bool × ZMod q)) :
    signedSum q (terms.map (fun p => (p.1, residue p.2))) =
      .ok (residue (terms.map (fun p => signed p.1 p.2)).sum) := by
  have hloop : ∀ (l : List (Bool × ZMod q)) (temp : ZMod q),
      (l.map (fun p => (p.1, residue p.2))).foldlM (fun temp p =>
        if p.1 then modAdd false q temp p.2 else modSub false q temp p.2) (residue temp) =
      Except.ok (ε := Failure) (residue (temp + (l.map (fun p => signed p.1 p.2)).sum)) := by
    intro l
    induction l with
    | nil =>
      intro temp
      rw [List.map_nil, List.map_nil, List.sum_nil, add_zero]
      rfl
    | cons p l ih =>
      intro temp
      rw [List.map_cons, List.map_cons, List.foldlM_cons, List.sum_cons, ← add_assoc, ← ih]
      cases hp : p.1 <;> simp [signed, sub_eq_add_neg]
  have h := hloop terms 0
  rwa [residue_zero, zero_add] at h

theorem addProducts_eq (terms : List (ZMod q × ZMod q)) :
    addProducts q (terms.map (fun p => (residue p.1, residue p.2))) =
      .ok (residue (terms.map (fun p => p.1 * p.2)).sum) := by
  have hloop : ∀ (l : List (ZMod q × ZMod q)) (sum : ZMod q),
      (l.map (fun p => (residue p.1, residue p.2))).foldlM (fun sum p => do
        let term ← modMul false q p.1 p.2
        modAdd false q sum term) (residue sum) =
      Except.ok (ε := Failure) (residue (sum + (l.map (fun p => p.1 * p.2)).sum)) := by
    intro l
    induction l with
    | nil =>
      intro sum
      rw [List.map_nil, List.map_nil, List.sum_nil, add_zero]
      rfl
    | cons p l ih =>
      intro sum
      rw [List.map_cons, List.map_cons, List.foldlM_cons, List.sum_cons, ← add_assoc, ← ih]
      simp
  have h := hloop terms 0
  rwa [residue_zero, zero_add] at h

theorem subProducts_eq (terms : List (ZMod q × ZMod q)) :
    subProducts q (terms.map (fun p => (residue p.1, residue p.2))) =
      .ok (residue (-(terms.map (fun p => p.1 * p.2)).sum)) := by
  have hloop : ∀ (l : List (ZMod q × ZMod q)) (sum : ZMod q),
      (l.map (fun p => (residue p.1, residue p.2))).foldlM (fun sum p => do
        let term ← modMul false q p.1 p.2
        modSub false q sum term) (residue sum) =
      Except.ok (ε := Failure) (residue (sum - (l.map (fun p => p.1 * p.2)).sum)) := by
    intro l
    induction l with
    | nil =>
      intro sum
      rw [List.map_nil, List.map_nil, List.sum_nil, sub_zero]
      rfl
    | cons p l ih =>
      intro sum
      rw [List.map_cons, List.map_cons, List.foldlM_cons, List.sum_cons, ← sub_sub, ← ih]
      simp
  have h := hloop terms 0
  rwa [residue_zero, zero_sub] at h

theorem lastCoordinate_eq (last : Bool) (a temp : ZMod q) :
    lastCoordinate q last (residue a) (residue temp) = .ok (residue (signed last (a - temp))) := by
  cases last <;> simp [lastCoordinate, signed]

/-- The coordinates of one product: drawn from the seed, and the last one computed. -/
def firstSum (theta : ℕ) (R : ℕ → Bool) (drbg : Rand q) : ZMod q :=
  ((List.range (theta - 1)).map (fun l => signed (R l) (drbg.get l))).sum

def coordinate (theta : ℕ) (a : ZMod q) (R : ℕ → Bool) (drbg : Rand q) (l : ℕ) : ZMod q :=
  if l < theta - 1 then drbg.get l else signed (R (theta - 1)) (a - firstSum theta R drbg)

theorem sum_range_eq (theta : ℕ) (hpos : 0 < theta) (f : ℕ → ZMod q) :
    ((List.range theta).map f).sum = ((List.range (theta - 1)).map f).sum + f (theta - 1) := by
  obtain ⟨k, rfl⟩ : ∃ k, theta = k + 1 := ⟨theta - 1, by omega⟩
  rw [List.range_succ, List.map_append, List.sum_append]
  simp

/-- The signed sum of all coordinates is the receiver's secret. -/
theorem sum_signed_coordinate {theta : ℕ} (hpos : 0 < theta) (a : ZMod q)
    (R : ℕ → Bool) (drbg : Rand q) :
    ((List.range theta).map (fun l => signed (R l) (coordinate theta a R drbg l))).sum = a := by
  have hfirst : (List.range (theta - 1)).map (fun l => signed (R l) (coordinate theta a R drbg l)) =
      (List.range (theta - 1)).map (fun l => signed (R l) (drbg.get l)) :=
    List.map_congr_left fun l hl => by rw [coordinate, if_pos (List.mem_range.mp hl)]
  have hlast : signed (R (theta - 1)) (coordinate theta a R drbg (theta - 1)) =
      a - firstSum theta R drbg := by
    rw [coordinate, if_neg (by omega)]
    cases R (theta - 1) <;> simp [signed]
  rw [sum_range_eq theta hpos, hfirst, hlast, firstSum]
  ring

/-- Sender and receiver share the product of their secrets. -/
theorem products_cancel {theta : ℕ} (hpos : 0 < theta) (a b sigma : ZMod q)
    (R : ℕ → Bool) (drbg : Rand q) {X X0 : ℕ → ZMod q}
    (hX : ∀ l < theta, X l = X0 l + if R l then b + b else 0) :
    (sigma + ((List.range theta).map (fun l => coordinate theta a R drbg l * X l)).sum) +
      (-((List.range theta).map (fun l => coordinate theta a R drbg l * (X0 l + b))).sum - sigma) =
        a * b := by
  have hterm : (List.range theta).map (fun l => coordinate theta a R drbg l * X l) =
      (List.range theta).map (fun l => coordinate theta a R drbg l * (X0 l + b) +
        signed (R l) (coordinate theta a R drbg l) * b) := by
    refine List.map_congr_left fun l hl => ?_
    rw [hX l (List.mem_range.mp hl)]
    cases R l <;> simp [signed] <;> ring
  rw [hterm, List.sum_map_add, List.sum_map_mul_right, sum_signed_coordinate hpos]
  ring

omit hq in
theorem take_eq_map (drbg : Rand q) (count : ℕ) :
    drbg.take count = (List.range count).map drbg.get := by
  induction count with
  | zero => rfl
  | succ count ih =>
    rw [Stream'.take_succ', ih, List.range_succ, List.map_append, List.map_singleton]

/-- Drawn coordinates followed by the last one. -/
theorem coordinates_eq {theta : ℕ} (hpos : 0 < theta) (a : ZMod q) (R : ℕ → Bool) (drbg : Rand q) :
    (drbg.take (theta - 1)).map residue ++
      [residue (signed (R (theta - 1)) (a - firstSum theta R drbg))] =
      (List.range theta).map (fun l => residue (coordinate theta a R drbg l)) := by
  obtain ⟨k, rfl⟩ : ∃ k, theta = k + 1 := ⟨theta - 1, by omega⟩
  rw [List.range_succ, List.map_append, List.map_singleton, take_eq_map, List.map_map]
  congr 1
  · refine List.map_congr_left fun l hl => ?_
    rw [Function.comp_apply, coordinate, if_pos (by simpa using hl)]
  · rw [coordinate, if_neg (by omega)]

/-- The receiver's last coordinate and share. -/
theorem receiverTurn_eq {theta : ℕ} (hpos : 0 < theta) (a : ZMod q) (R : ℕ → Bool)
    (X : ℕ → ZMod q) (drbg : Rand q) {Xs : ℕ → ℤ} (hX : ∀ l < theta, Xs l = residue (X l)) :
    receiverTurn theta (residue a) R Xs drbg =
      .ok ((residue (coordinate theta a R drbg (theta - 1)), residue (drbg.get (theta - 1) +
        ((List.range theta).map (fun l => coordinate theta a R drbg l * X l)).sum)),
          drbg.drop theta) := by
  have hsigned :
      signedSum q (((List.range (theta - 1)).map R).zip ((drbg.take (theta - 1)).map residue)) =
      .ok (residue (firstSum theta R drbg)) := by
    have h := signedSum_eq ((List.range (theta - 1)).map (fun l => (R l, drbg.get l)))
    rw [List.map_map, List.map_map] at h
    rw [take_eq_map, List.map_map, List.zip_map']
    exact h
  have hXs : (List.range theta).map Xs = (List.range theta).map (fun l => residue (X l)) :=
    List.map_congr_left fun l hl => hX l (List.mem_range.mp hl)
  have hproducts : addProducts q (((drbg.take (theta - 1)).map residue ++
      [residue (signed (R (theta - 1)) (a - firstSum theta R drbg))]).zip
        ((List.range theta).map Xs)) =
      .ok (residue ((List.range theta).map (fun l => coordinate theta a R drbg l * X l)).sum) := by
    have h := addProducts_eq ((List.range theta).map (fun l => (coordinate theta a R drbg l, X l)))
    rw [List.map_map, List.map_map] at h
    rw [hXs, coordinates_eq hpos, List.zip_map']
    exact h
  have hlast : coordinate theta a R drbg (theta - 1) =
      signed (R (theta - 1)) (a - firstSum theta R drbg) := by
    rw [coordinate, if_neg (by omega)]
  have hdrop : (drbg.drop (theta - 1)).tail = drbg.drop theta := by
    rw [Stream'.tail_drop', Nat.sub_add_cancel hpos]
  have hhead : (drbg.drop (theta - 1)).head = drbg.get (theta - 1) := Stream'.head_drop _ _
  simp only [receiverTurn, genBns, genBn, hsigned, lastCoordinate_eq, ok_bind, hproducts,
    modAdd_residue, hlast, hdrop, hhead]

/-- The sender's share, when it has the receiver's last coordinate. -/
theorem senderTurn_eq {theta : ℕ} (hpos : 0 < theta) (a : ZMod q) (R : ℕ → Bool)
    (delta : ℕ → ZMod q) (drbg : Rand q) {deltas : ℕ → ℤ}
    (hdelta : ∀ l < theta, deltas l = residue (delta l)) :
    senderTurn theta (residue (coordinate theta a R drbg (theta - 1))) deltas drbg =
      .ok (residue (-((List.range theta).map (fun l => coordinate theta a R drbg l * delta l)).sum -
        drbg.get (theta - 1)), drbg.drop theta) := by
  have hlast : coordinate theta a R drbg (theta - 1) =
      signed (R (theta - 1)) (a - firstSum theta R drbg) := by
    rw [coordinate, if_neg (by omega)]
  have hdeltas : (List.range theta).map deltas =
      (List.range theta).map (fun l => residue (delta l)) :=
    List.map_congr_left fun l hl => hdelta l (List.mem_range.mp hl)
  have hproducts : subProducts q (((drbg.take (theta - 1)).map residue ++
      [residue (coordinate theta a R drbg (theta - 1))]).zip ((List.range theta).map deltas)) =
      .ok (residue
        (-((List.range theta).map (fun l => coordinate theta a R drbg l * delta l)).sum)) := by
    have h :=
      subProducts_eq ((List.range theta).map (fun l => (coordinate theta a R drbg l, delta l)))
    rw [List.map_map, List.map_map] at h
    rw [hdeltas, hlast, coordinates_eq hpos, List.zip_map']
    exact h
  have hdrop : (drbg.drop (theta - 1)).tail = drbg.drop theta := by
    rw [Stream'.tail_drop', Nat.sub_add_cancel hpos]
  have hhead : (drbg.drop (theta - 1)).head = drbg.get (theta - 1) := Stream'.head_drop _ _
  simp only [senderTurn, genBns, genBn, hproducts, ok_bind, modSub_residue, hdrop, hhead]

/-- The state of the seed before the turn for product `t`. -/
def turnDrbg (theta : ℕ) (drbg : Rand q) (t : Fin 4) : Rand q := (Stream'.drop theta)^[t] drbg

/-- The shares of the receiver and of the sender in the turn for product `t`. -/
def receiverShare (theta : ℕ) (a : Fin 4 → ZMod q) (R : ℕ → Fin 4 → Bool)
    (X : ℕ → Fin 4 → ZMod q) (drbg : Rand q) (t : Fin 4) : ZMod q :=
  (turnDrbg theta drbg t).get (theta - 1) + ((List.range theta).map (fun l =>
    coordinate theta (a t) (fun l => R l t) (turnDrbg theta drbg t) l * X l t)).sum

def senderShare (theta : ℕ) (a : Fin 4 → ZMod q) (R : ℕ → Fin 4 → Bool)
    (delta : ℕ → Fin 4 → ZMod q) (drbg : Rand q) (t : Fin 4) : ZMod q :=
  -((List.range theta).map (fun l =>
    coordinate theta (a t) (fun l => R l t) (turnDrbg theta drbg t) l * delta l t)).sum -
    (turnDrbg theta drbg t).get (theta - 1)

def lastCoordinates (theta : ℕ) (a : Fin 4 → ZMod q) (R : ℕ → Fin 4 → Bool)
    (drbg : Rand q) (t : Fin 4) : ZMod q :=
  coordinate theta (a t) (fun l => R l t) (turnDrbg theta drbg t) (theta - 1)

theorem receiverLoop_eq {theta : ℕ} (hpos : 0 < theta) (a : Fin 4 → ZMod q) (R : ℕ → Fin 4 → Bool)
    (X : ℕ → Fin 4 → ZMod q) (drbg : Rand q) {Xs : ℕ → Fin 4 → ℤ}
    (hX : ∀ l < theta, ∀ t, Xs l t = residue (X l t)) :
    receiverLoop theta (fun t => residue (a t)) R Xs drbg [0, 1, 2, 3] =
      .ok ((List.finRange 4).map (fun t => (residue (lastCoordinates theta a R drbg t),
        residue (receiverShare theta a R X drbg t))), (Stream'.drop theta)^[4] drbg) := by
  have hturn : ∀ t (drbg : Rand q),
      receiverTurn theta (residue (a t)) (fun l => R l t) (fun l => Xs l t) drbg = _ :=
    fun t drbg => receiverTurn_eq hpos (a t) (fun l => R l t) (fun l => X l t) drbg fun l hl =>
      hX l hl t
  simp only [receiverLoop, List.foldlM_cons, List.foldlM_nil, hturn, ok_bind]
  rfl

theorem senderLoop_eq {theta : ℕ} (hpos : 0 < theta) (a : Fin 4 → ZMod q) (R : ℕ → Fin 4 → Bool)
    (delta : ℕ → Fin 4 → ZMod q) (drbg : Rand q) {vTheta : Fin 4 → ℤ} {deltas : ℕ → Fin 4 → ℤ}
    (hdelta : ∀ l < theta, ∀ t, deltas l t = residue (delta l t))
    (hv : ∀ t, vTheta t = residue (lastCoordinates theta a R drbg t)) :
    senderLoop theta vTheta deltas drbg [0, 1, 2, 3] =
      .ok ((List.finRange 4).map (fun t => residue (senderShare theta a R delta drbg t)),
        (Stream'.drop theta)^[4] drbg) := by
  have hturn : ∀ t, senderTurn theta (vTheta t) (fun l => deltas l t) (turnDrbg theta drbg t) =
      .ok (residue (senderShare theta a R delta drbg t), (turnDrbg theta drbg t).drop theta) := by
    intro t
    rw [hv t]
    exact senderTurn_eq hpos (a t) (fun l => R l t) (fun l => delta l t) _ fun l hl => hdelta l hl t
  have h0 : senderTurn theta (vTheta 0) (fun l => deltas l 0) drbg = _ := hturn 0
  simp only [senderLoop, List.foldlM_cons, List.foldlM_nil, h0, ok_bind]
  rw [show (turnDrbg theta drbg 0).drop theta = turnDrbg theta drbg 1 from rfl, hturn 1]
  simp only [ok_bind]
  rw [show (turnDrbg theta drbg 1).drop theta = turnDrbg theta drbg 2 from rfl, hturn 2]
  simp only [ok_bind]
  rw [show (turnDrbg theta drbg 2).drop theta = turnDrbg theta drbg 3 from rfl, hturn 3]
  rfl

/-- The shares of a pair add up to the product of the factors. -/
theorem receiverShare_add_senderShare {theta : ℕ} (hpos : 0 < theta)
    (a b : Fin 4 → ZMod q) (R : ℕ → Fin 4 → Bool) (drbg : Rand q) {X X0 : ℕ → Fin 4 → ZMod q}
    (hX : ∀ l < theta, ∀ t, X l t = X0 l t + if R l t then b t + b t else 0) (t : Fin 4) :
    receiverShare theta a R X drbg t +
      senderShare theta a R (fun l t => X0 l t + b t) drbg t = a t * b t :=
  products_cancel hpos (a t) (b t) _ (fun l => R l t) _ fun l hl => hX l hl t

end Spec

/-- What the parties bring to the multiplications: their secrets, and for every pair
the receiver's choice bits, the outputs of the transfers and the receiver's seed. -/
structure Products (q n : ℕ) where
  theta : ℕ
  theta_pos : 0 < theta
  roles : List (List ℤ)
  k : Fin n → ZMod q
  rho : Fin n → ZMod q
  x : Fin n → ZMod q
  /-- `R i j l t` and `X i j l t` are at the receiver `i` against the sender `j`. -/
  R : Fin n → Fin n → ℕ → Fin 4 → Bool
  X : Fin n → Fin n → ℕ → Fin 4 → ℤ
  /-- `X0 i j l t` is at the sender `i` against the receiver `j`. -/
  X0 : Fin n → Fin n → ℕ → Fin 4 → ℤ
  /-- `seed._ij`, drawn by the receiver `i` for the sender `j` and expanded. -/
  seed : Fin n → Fin n → Rand q

section Party

variable {q n : ℕ} (M : Products q n)

/-- The factors `a[t]` of a sender and of a receiver. -/
def Products.senderFactor (i : Fin n) : Fin 4 → ZMod q := ![M.rho i, M.k i, M.rho i, M.x i]

def Products.receiverFactor (i : Fin n) : Fin 4 → ZMod q := ![M.k i, M.rho i, M.x i, M.rho i]

/-- `delta[l][j][t]` at the sender `i`. -/
def Products.deltas (i j : Fin n) : Outcome (List (List ℤ)) :=
  (List.range M.theta).mapM (fun l =>
    (List.finRange 4).mapM (fun t => modAdd false q (M.X0 i j l t) (residue (M.senderFactor i t))))

/-- What the receiver `i` computes against the sender `j`: `v_theta` and its shares. -/
def Products.receiverPart (i j : Fin n) : Outcome (List (ℤ × ℤ)) := do
  let out ← receiverLoop M.theta (fun t => residue (M.receiverFactor i t)) (M.R i j) (M.X i j)
    (M.seed i j) [0, 1, 2, 3]
  .ok out.1

/-- What the sender `i` computes from the message of the receiver `j`. -/
def Products.senderPart (i j : Fin n) (vTheta : List ℤ) : Outcome (List ℤ) := do
  let deltas ← M.deltas i j
  forEach (fun t : Fin 4 => require (isInRange q (vTheta.getD t 0)) .crypto) [0, 1, 2, 3]
  let out ← senderLoop M.theta (fun t => vTheta.getD t 0) (fun l t =>
    (deltas.getD l []).getD t 0) (M.seed j i)
    [0, 1, 2, 3]
  .ok out.1

/-- `s[role][j]` at party `i`. -/
def Products.pairShares (i j : Fin n) : Outcome (List ℤ) :=
  if roleAt M.roles i j = otReceiver then do
    let out ← M.receiverPart i j
    .ok (out.map Prod.snd)
  else do
    let msg ← M.receiverPart j i
    M.senderPart i j (msg.map Prod.fst)

/-- The sum over the other parties of two of the four shares. -/
def crossSum (q : ℕ) (i : Fin n) (shares : Fin n → List ℤ) (t t' : Fin 4) : Outcome ℤ :=
  (List.finRange n).foldlM (fun sum j =>
    if i = j then .ok sum else do
      let term ← modAdd false q ((shares j).getD t 0) ((shares j).getD t' 0)
      modAdd false q sum term) 0

/-- `rho_k_i` and `rho_x_i`. -/
def Products.rhoShares (i : Fin n) : Outcome (ℤ × ℤ) := do
  let shares ← (List.finRange n).mapM (fun j => if i = j then .ok [] else M.pairShares i j)
  let kk ← modMul false q (residue (M.rho i)) (residue (M.k i))
  let crossK ← crossSum q i (fun j => shares.getD j []) 0 1
  let rhoK ← modAdd false q kk crossK
  let xx ← modMul false q (residue (M.rho i)) (residue (M.x i))
  let crossX ← crossSum q i (fun j => shares.getD j []) 2 3
  let rhoX ← modAdd false q xx crossX
  .ok (rhoK, rhoX)

end Party

/-- The role map is accepted, and the transfers have reduced outputs that are
correlated: `X = X0 + R * Delta` with `Delta[t] = a[t] + a[t]` of the sender. -/
structure Products.Correlated {q n : ℕ} (M : Products q n) : Prop where
  roles : validateRoleMap n M.roles = .ok ()
  reduced0 : ∀ i j : Fin n, roleAt M.roles i j = otSender → ∀ l < M.theta, ∀ t,
    isInRange q (M.X0 i j l t) = true
  reduced : ∀ i j : Fin n, roleAt M.roles i j = otReceiver → ∀ l < M.theta, ∀ t,
    isInRange q (M.X i j l t) = true
  relation : ∀ i j : Fin n, roleAt M.roles i j = otSender → ∀ l < M.theta, ∀ t,
    (M.X j i l t : ZMod q) =
    (M.X0 i j l t : ZMod q) + if M.R j i l t then M.senderFactor i t + M.senderFactor i t else 0

section Correct

variable {q n : ℕ} [hq : Fact q.Prime] {M : Products q n}

/-- The share of party `i` in product `t` with party `j`. -/
def Products.share (M : Products q n) (i j : Fin n) (t : Fin 4) : ZMod q :=
  if roleAt M.roles i j = otReceiver then
    receiverShare M.theta (M.receiverFactor i) (M.R i j) (fun l t =>
      (M.X i j l t : ZMod q)) (M.seed i j) t
  else
    senderShare M.theta (M.receiverFactor j) (M.R j i) (fun l t =>
      (M.X0 i j l t : ZMod q) + M.senderFactor i t)
      (M.seed j i) t

omit hq in
theorem roleAt_cases (hM : M.Correlated) {i j : Fin n} (hij : i ≠ j) :
    (roleAt M.roles i j = otSender ∧ roleAt M.roles j i = otReceiver) ∨
      (roleAt M.roles i j = otReceiver ∧ roleAt M.roles j i = otSender) :=
  validateRoleMap_ok hM.roles i.isLt j.isLt fun h => hij (Fin.ext h)

theorem receiverPart_eq (hM : M.Correlated) {i j : Fin n}
    (hrole : roleAt M.roles i j = otReceiver) :
    M.receiverPart i j = .ok ((List.finRange 4).map (fun t =>
      (residue (lastCoordinates M.theta (M.receiverFactor i) (M.R i j) (M.seed i j) t),
          residue (M.share i j t)))) := by
  have hX : ∀ l < M.theta, ∀ t, M.X i j l t = residue (M.X i j l t : ZMod q) := fun l hl t =>
    eq_residue_of_isInRange (hM.reduced i j hrole l hl t)
  rw [Products.receiverPart, receiverLoop_eq M.theta_pos _ _ _ _ hX, ok_bind]
  simp only [Products.share, if_pos hrole]

theorem deltas_eq (hM : M.Correlated) {i j : Fin n} (hrole : roleAt M.roles i j = otSender) :
    M.deltas i j = .ok ((List.range M.theta).map (fun l => (List.finRange 4).map (fun t =>
      residue ((M.X0 i j l t : ZMod q) + M.senderFactor i t)))) := by
  refine mapM_ok fun l hl => mapM_ok fun t _ => ?_
  rw [modAdd, modOp_of_isInRange _ _
    (hM.reduced0 i j hrole l (List.mem_range.mp hl) t) (isInRange_residue _)]
  simp

theorem senderPart_eq (hM : M.Correlated) {i j : Fin n} (hrole : roleAt M.roles i j = otSender) :
    M.senderPart i j ((List.finRange 4).map (fun t =>
      residue (lastCoordinates M.theta (M.receiverFactor j) (M.R j i) (M.seed j i) t))) =
      .ok ((List.finRange 4).map (fun t => residue (M.share i j t))) := by
  have hv : ∀ t : Fin 4, ((List.finRange 4).map (fun t =>
      residue (lastCoordinates M.theta (M.receiverFactor j) (M.R j i) (M.seed j i) t))).getD t 0 =
      residue (lastCoordinates M.theta (M.receiverFactor j) (M.R j i) (M.seed j i) t) := by
    intro t
    simp [List.getD]
  have hdelta : ∀ l < M.theta, ∀ t : Fin 4,
      (((List.range M.theta).map (fun l => (List.finRange 4).map (fun t =>
      residue ((M.X0 i j l t : ZMod q) + M.senderFactor i t)))).getD l []).getD t 0 =
      residue ((M.X0 i j l t : ZMod q) + M.senderFactor i t) := by
    intro l hl t
    simp [List.getD, hl]
  have hrange : forEach (fun t : Fin 4 => require (isInRange q (((List.finRange 4).map (fun t =>
      residue (lastCoordinates M.theta (M.receiverFactor j) (M.R j i) (M.seed j i) t))).getD t 0))
        .crypto)
      [0, 1, 2, 3] = .ok () := by
    refine forEach_ok_iff.mpr fun t _ => ?_
    rw [hv t, isInRange_residue, require_true]
  have hne : ¬roleAt M.roles i j = otReceiver := by
    rw [hrole]
    decide
  rw [Products.senderPart, deltas_eq hM hrole, ok_bind, hrange, ok_bind,
    senderLoop_eq M.theta_pos (M.receiverFactor j) (M.R j i) _ _ hdelta hv, ok_bind]
  simp only [Products.share, if_neg hne]

theorem pairShares_eq (hM : M.Correlated) {i j : Fin n} (hij : i ≠ j) :
    M.pairShares i j = .ok ((List.finRange 4).map (fun t => residue (M.share i j t))) := by
  rcases roleAt_cases hM hij with ⟨hs, hr⟩ | ⟨hr, -⟩
  · have hne : ¬roleAt M.roles i j = otReceiver := by
      rw [hs]
      decide
    rw [Products.pairShares, if_neg hne, receiverPart_eq hM hr, ok_bind, List.map_map]
    exact senderPart_eq hM hs
  · rw [Products.pairShares, if_pos hr, receiverPart_eq hM hr, ok_bind, List.map_map]
    rfl

/-- What two parties hold of a product is the product of the sender's and the
receiver's factor. -/
theorem share_add_share (hM : M.Correlated) {i j : Fin n} (hs : roleAt M.roles i j = otSender)
    (hr : roleAt M.roles j i = otReceiver) (t : Fin 4) :
    M.share i j t + M.share j i t = M.receiverFactor j t * M.senderFactor i t := by
  have hne : ¬roleAt M.roles i j = otReceiver := by
    rw [hs]
    decide
  rw [Products.share, Products.share, if_neg hne, if_pos hr, add_comm]
  exact receiverShare_add_senderShare M.theta_pos _ _ _ _ (fun l hl t =>
    hM.relation i j hs l hl t) t

theorem crossSum_eq (i : Fin n) (t t' : Fin 4) (f : Fin n → Fin 4 → ZMod q)
    {shares : Fin n → List ℤ}
    (hshares : ∀ j, j ≠ i → ∀ t : Fin 4, (shares j).getD t 0 = residue (f j t)) :
    crossSum q i shares t t' = .ok (residue (∑ j, if i = j then 0 else f j t + f j t')) := by
  have hloop : ∀ (l : List (Fin n)) (sum : ZMod q), l.foldlM (fun sum j =>
      if i = j then .ok sum else do
        let term ← modAdd false q ((shares j).getD t 0) ((shares j).getD t' 0)
        modAdd false q sum term) (residue sum) =
      Except.ok (ε := Failure) (residue
          (sum + (l.map (fun j => if i = j then 0 else f j t + f j t')).sum)) := by
    intro l
    induction l with
    | nil =>
      intro sum
      rw [List.map_nil, List.sum_nil, add_zero]
      rfl
    | cons j l ih =>
      intro sum
      rw [List.foldlM_cons, List.map_cons, List.sum_cons, ← add_assoc, ← ih]
      by_cases hij : i = j
      · simp [hij]
      · have hji : j ≠ i := fun h => hij h.symm
        simp only [if_neg hij, hshares j hji, modAdd_residue, ok_bind]
  have h := hloop (List.finRange n) 0
  rw [residue_zero, zero_add, ← Fin.sum_univ_def] at h
  exact h

/-- `rho_k_i` and `rho_x_i` as field elements. -/
def Products.rhoK (M : Products q n) (i : Fin n) : ZMod q :=
  M.rho i * M.k i + ∑ j, if i = j then 0 else M.share i j 0 + M.share i j 1

def Products.rhoX (M : Products q n) (i : Fin n) : ZMod q :=
  M.rho i * M.x i + ∑ j, if i = j then 0 else M.share i j 2 + M.share i j 3

theorem rhoShares_eq (hM : M.Correlated) (i : Fin n) :
    M.rhoShares i = .ok (residue (M.rhoK i), residue (M.rhoX i)) := by
  have hshares : (List.finRange n).mapM (fun j => if i = j then .ok [] else M.pairShares i j) =
      .ok ((List.finRange n).map (fun j => if i = j then [] else
        (List.finRange 4).map (fun t => residue (M.share i j t)))) := by
    refine mapM_ok fun j _ => ?_
    split
    · rfl
    · rename_i hij
      exact pairShares_eq hM hij
  have hentry : ∀ j, j ≠ i → ∀ t : Fin 4, (((List.finRange n).map (fun j => if i = j then [] else
      (List.finRange 4).map (fun t => residue (M.share i j t)))).getD j []).getD t 0 =
          residue (M.share i j t) := by
    intro j hji t
    have hij : i ≠ j := fun h => hji h.symm
    simp [List.getD, hij]
  simp only [Products.rhoShares, hshares, ok_bind, modMul_residue,
    crossSum_eq i _ _ (M.share i) hentry, modAdd_residue]
  rfl

/-- Cross terms counted once for each pair make up the product of the sums. -/
theorem sum_cross {a b : Fin n → ZMod q} {f : Fin n → Fin n → ZMod q}
    (hpair : ∀ i j, i ≠ j → f i j + f j i = a i * b j + a j * b i) :
    ∑ i, (a i * b i + ∑ j, if i = j then 0 else f i j) = (∑ i, a i) * ∑ j, b j := by
  have hrow : ∀ i, a i * b i + ∑ j, (if i = j then 0 else f i j) = ∑ j,
      if i = j then a i * b i else f i j := by
    intro i
    have hsplit : ∀ j, (if i = j then a i * b i else f i j) =
        (if i = j then a i * b i else 0) + if i = j then 0 else f i j := by
      intro j
      split <;> simp
    simp only [hsplit, Finset.sum_add_distrib, Finset.sum_ite_eq, Finset.mem_univ, if_true]
  simp only [hrow, Finset.sum_mul_sum]
  refine PairSums.sum_eq_of_pairs (fun i => by simp) fun i j hij => ?_
  have hji : j ≠ i := fun h => hij h.symm
  simp only [hij, hji, if_false]
  exact hpair i j hij

/-- What the parties hold sums to the products of the sums. -/
theorem sum_rhoK (hM : M.Correlated) : ∑ i, M.rhoK i = (∑ i, M.rho i) * ∑ i, M.k i := by
  refine sum_cross fun i j hij => ?_
  rcases roleAt_cases hM hij with ⟨hs, hr⟩ | ⟨hr, hs⟩
  · have h0 := share_add_share hM hs hr 0
    have h1 := share_add_share hM hs hr 1
    simp only [Products.receiverFactor, Products.senderFactor, Matrix.cons_val_zero,
      Matrix.cons_val_one] at h0 h1
    linear_combination h0 + h1
  · have h0 := share_add_share hM hs hr 0
    have h1 := share_add_share hM hs hr 1
    simp only [Products.receiverFactor, Products.senderFactor, Matrix.cons_val_zero,
      Matrix.cons_val_one] at h0 h1
    linear_combination h0 + h1

theorem sum_rhoX (hM : M.Correlated) : ∑ i, M.rhoX i = (∑ i, M.rho i) * ∑ i, M.x i := by
  refine sum_cross fun i j hij => ?_
  rcases roleAt_cases hM hij with ⟨hs, hr⟩ | ⟨hr, hs⟩
  · have h2 := share_add_share hM hs hr 2
    have h3 := share_add_share hM hs hr 3
    simp only [Products.receiverFactor, Products.senderFactor] at h2 h3
    simp at h2 h3
    linear_combination h2 + h3
  · have h2 := share_add_share hM hs hr 2
    have h3 := share_add_share hM hs hr 3
    simp only [Products.receiverFactor, Products.senderFactor] at h2 h3
    simp at h2 h3
    linear_combination h2 + h3

end Correct

end CbMpc
