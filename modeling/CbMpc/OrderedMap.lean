import Mathlib

/-!
# Finite maps with ordered keys

A map is its list of entries in strictly increasing key order, which is how an
ordered container iterates. Two maps with the same lookups are the same map,
and a map is determined by its key list together with its value list.
-/
structure OrderedMap (K V : Type) [LinearOrder K] where
  entries : List (K × V)
  sorted : entries.Pairwise (fun a b => a.1 < b.1)

namespace OrderedMap

variable {K V W : Type} [LinearOrder K]

instance [DecidableEq V] : DecidableEq (OrderedMap K V) := fun m m' =>
  decidable_of_iff (m.entries = m'.entries) (by cases m; cases m'; simp)

def empty : OrderedMap K V := ⟨[], List.Pairwise.nil⟩

def findEntries (k : K) : List (K × V) → Option V
  | [] => none
  | (k', v) :: rest => if k = k' then some v else findEntries k rest

def find (m : OrderedMap K V) (k : K) : Option V := findEntries k m.entries

def insertEntries (k : K) (v : V) : List (K × V) → List (K × V)
  | [] => [(k, v)]
  | (k', v') :: rest =>
    if k < k' then (k, v) :: (k', v') :: rest
    else if k = k' then (k, v) :: rest
    else (k', v') :: insertEntries k v rest

theorem mem_insertEntries {k : K} {v : V} {l : List (K × V)} {x : K × V}
    (h : x ∈ insertEntries k v l) : x = (k, v) ∨ x ∈ l := by
  induction l with
  | nil => simpa [insertEntries] using h
  | cons y rest ih =>
    simp only [insertEntries] at h
    split at h
    · simpa using h
    · split at h
      · rcases List.mem_cons.mp h with h | h
        · exact .inl h
        · exact .inr (List.mem_cons_of_mem _ h)
      · rcases List.mem_cons.mp h with h | h
        · exact .inr (by simp [h])
        · exact (ih h).imp id (List.mem_cons_of_mem _)

theorem sorted_insertEntries (k : K) (v : V) (l : List (K × V))
    (h : l.Pairwise (fun a b => a.1 < b.1)) :
    (insertEntries k v l).Pairwise (fun a b => a.1 < b.1) := by
  induction l with
  | nil => simp [insertEntries]
  | cons y rest ih =>
    obtain ⟨hy, hrest⟩ := List.pairwise_cons.mp h
    simp only [insertEntries]
    split
    · rename_i hlt
      refine List.pairwise_cons.mpr ⟨fun x hx => ?_, h⟩
      rcases List.mem_cons.mp hx with rfl | hx
      · exact hlt
      · exact hlt.trans (hy x hx)
    · rename_i hnlt
      split
      · rename_i heq
        exact List.pairwise_cons.mpr ⟨fun x hx => by simpa [heq] using hy x hx, hrest⟩
      · rename_i hne
        refine List.pairwise_cons.mpr ⟨fun x hx => ?_, ih hrest⟩
        rcases mem_insertEntries hx with rfl | hx
        · exact lt_of_le_of_ne (not_lt.mp hnlt) (Ne.symm hne)
        · exact hy x hx

/-- `m[k] = v`. -/
def insert (m : OrderedMap K V) (k : K) (v : V) : OrderedMap K V :=
  ⟨insertEntries k v m.entries, sorted_insertEntries k v m.entries m.sorted⟩

/-- Keep the entries whose key satisfies `p`. -/
def filterKeys (m : OrderedMap K V) (p : K → Bool) : OrderedMap K V :=
  ⟨m.entries.filter (fun e => p e.1), m.sorted.filter _⟩

def erase (m : OrderedMap K V) (k : K) : OrderedMap K V := m.filterKeys (fun j => j ≠ k)

def keys (m : OrderedMap K V) : List K := m.entries.map Prod.fst

def values (m : OrderedMap K V) : List V := m.entries.map Prod.snd

def size (m : OrderedMap K V) : Nat := m.entries.length

/-- Apply a function to every value, keeping the keys. -/
def mapValues (f : V → W) (m : OrderedMap K V) : OrderedMap K W :=
  ⟨m.entries.map (fun e => (e.1, f e.2)), by
    simpa only [List.pairwise_map] using m.sorted⟩

/-- Set each listed key to its value under `f`. -/
def insertAll (m : OrderedMap K V) (f : K → V) (ks : List K) : OrderedMap K V :=
  ks.foldl (fun m k => m.insert k (f k)) m

def ofKeys (f : K → V) (ks : List K) : OrderedMap K V := empty.insertAll f ks

/-- Set the key of each index to the value of that index. -/
def insertEach {ι : Type} (m : OrderedMap K V) (key : ι → K) (f : ι → V)
    (l : List ι) : OrderedMap K V :=
  l.foldl (fun m i => m.insert (key i) (f i)) m

@[simp] theorem find_empty (k : K) : (empty : OrderedMap K V).find k = none := rfl

theorem findEntries_insertEntries (k j : K) (v : V) (l : List (K × V)) :
    findEntries j (insertEntries k v l) = if j = k then some v else findEntries j l := by
  induction l with
  | nil => simp [insertEntries, findEntries]
  | cons y rest ih =>
    obtain ⟨k', v'⟩ := y
    simp only [insertEntries]
    split
    · simp [findEntries]
    · split
      · rename_i heq
        by_cases hj : j = k <;> simp [findEntries, hj, ← heq]
      · rename_i hne
        by_cases hj : j = k'
        · simp [findEntries, hj, Ne.symm hne]
        · simp [findEntries, hj, ih]

@[simp] theorem find_insert (m : OrderedMap K V) (k j : K) (v : V) :
    (m.insert k v).find j = if j = k then some v else m.find j :=
  findEntries_insertEntries k j v m.entries

@[simp] theorem find_filterKeys (m : OrderedMap K V) (p : K → Bool) (j : K) :
    (m.filterKeys p).find j = if p j then m.find j else none := by
  obtain ⟨l, hl⟩ := m
  simp only [find, filterKeys]
  clear hl
  induction l with
  | nil => simp [findEntries]
  | cons y rest ih =>
    obtain ⟨k, v⟩ := y
    by_cases hk : p k
    · rw [List.filter_cons_of_pos (by simpa using hk)]
      by_cases hj : j = k
      · simp [findEntries, hj, hk]
      · simp [findEntries, hj, ih]
    · rw [List.filter_cons_of_neg (by simpa using hk), ih]
      by_cases hj : j = k
      · simp [hj, hk]
      · simp [findEntries, hj]

@[simp] theorem find_erase (m : OrderedMap K V) (k j : K) :
    (m.erase k).find j = if j = k then none else m.find j := by
  by_cases hj : j = k <;> simp [erase, hj]

theorem findEntries_mem {k : K} {v : V} {l : List (K × V)} (h : findEntries k l = some v) :
    (k, v) ∈ l := by
  induction l with
  | nil => simp [findEntries] at h
  | cons y rest ih =>
    obtain ⟨k', v'⟩ := y
    by_cases hk : k = k'
    · simp [findEntries, hk] at h
      simp [hk, h]
    · simp only [findEntries, hk, ↓reduceIte] at h
      exact List.mem_cons_of_mem _ (ih h)

theorem findEntries_of_mem {k : K} {v : V} {l : List (K × V)}
    (hl : l.Pairwise (fun a b => a.1 < b.1)) (h : (k, v) ∈ l) : findEntries k l = some v := by
  induction l with
  | nil => simp at h
  | cons y rest ih =>
    obtain ⟨hy, hrest⟩ := List.pairwise_cons.mp hl
    rcases List.mem_cons.mp h with rfl | h
    · simp [findEntries]
    · have hne : k ≠ y.1 := (hy _ h).ne'
      simpa [findEntries, hne] using ih hrest h

theorem mem_entries_iff (m : OrderedMap K V) (k : K) (v : V) :
    (k, v) ∈ m.entries ↔ m.find k = some v :=
  ⟨findEntries_of_mem m.sorted, findEntries_mem⟩

theorem mem_keys_iff (m : OrderedMap K V) (k : K) : k ∈ m.keys ↔ (m.find k).isSome := by
  simp only [keys, List.mem_map, Prod.exists, exists_and_right, exists_eq_right, mem_entries_iff,
    Option.isSome_iff_exists]

theorem mem_values_iff (m : OrderedMap K V) (v : V) : v ∈ m.values ↔ ∃ k, m.find k = some v := by
  simp only [values, List.mem_map, Prod.exists, exists_eq_right, mem_entries_iff]

theorem nodup_entries (m : OrderedMap K V) : m.entries.Nodup :=
  m.sorted.imp (fun hab he => absurd (he ▸ hab) (lt_irrefl _))

/-- Entries are determined by lookups, because both lists are sorted. -/
theorem entries_eq_of_find {l l' : List (K × V)} (hl : l.Pairwise (fun a b => a.1 < b.1))
    (hl' : l'.Pairwise (fun a b => a.1 < b.1)) (h : ∀ k, findEntries k l = findEntries k l') :
    l = l' := by
  have hmem : ∀ e, e ∈ l ↔ e ∈ l' := fun e =>
    ⟨fun he => findEntries_mem ((h e.1).symm.trans (findEntries_of_mem hl he)),
      fun he => findEntries_mem ((h e.1).trans (findEntries_of_mem hl' he))⟩
  have hp : l.Perm l' :=
    (List.perm_ext_iff_of_nodup (nodup_entries ⟨l, hl⟩) (nodup_entries ⟨l', hl'⟩)).mpr hmem
  exact hp.eq_of_pairwise (fun a b _ _ hab hba => absurd (hab.trans hba) (lt_irrefl _)) hl hl'

theorem ext_find {m m' : OrderedMap K V} (h : ∀ k, m.find k = m'.find k) : m = m' := by
  obtain ⟨l, hl⟩ := m
  obtain ⟨l', hl'⟩ := m'
  have he : l = l' := entries_eq_of_find hl hl' h
  subst he
  rfl

/-- The iteration order re-associates values with keys, so equal key lists and
equal value lists leave no freedom. -/
theorem eq_of_keys_values {m m' : OrderedMap K V} (hk : m.keys = m'.keys)
    (hv : m.values = m'.values) : m = m' := by
  obtain ⟨l, hl⟩ := m
  obtain ⟨l', hl'⟩ := m'
  have he : l = l' := by
    rw [← List.zip_unzip l, ← List.zip_unzip l', List.unzip_eq_map, List.unzip_eq_map]
    simp only [keys, values] at hk hv
    rw [hk, hv]
  subst he
  rfl

@[simp] theorem values_mapValues (f : V → W) (m : OrderedMap K V) :
    (m.mapValues f).values = m.values.map f := by
  simp [values, mapValues, Function.comp_def]

theorem findEntries_map (f : V → W) (k : K) (l : List (K × V)) :
    findEntries k (l.map (fun e => (e.1, f e.2))) = (findEntries k l).map f := by
  induction l with
  | nil => rfl
  | cons y rest ih =>
    by_cases hk : k = y.1 <;> simp [findEntries, hk, ih]

@[simp] theorem find_mapValues (f : V → W) (m : OrderedMap K V) (k : K) :
    (m.mapValues f).find k = (m.find k).map f :=
  findEntries_map f k m.entries

@[simp] theorem find_insertAll (m : OrderedMap K V) (f : K → V) (ks : List K) (j : K) :
    (m.insertAll f ks).find j = if j ∈ ks then some (f j) else m.find j := by
  rw [insertAll]
  induction ks generalizing m with
  | nil => simp
  | cons k ks ih =>
    rw [List.foldl_cons, ih, find_insert]
    by_cases hj : j ∈ ks
    · simp [hj]
    · by_cases hk : j = k
      · simp [hk]
      · simp [hj, hk]

theorem insertAll_append (m : OrderedMap K V) (f : K → V) (ks ks' : List K) :
    m.insertAll f (ks ++ ks') = (m.insertAll f ks).insertAll f ks' := List.foldl_append

/-- Only the set of keys and the values there matter. -/
theorem insertAll_congr (m : OrderedMap K V) {f g : K → V} {ks ks' : List K}
    (hk : ∀ k, k ∈ ks ↔ k ∈ ks') (hf : ∀ k ∈ ks, f k = g k) :
    m.insertAll f ks = m.insertAll g ks' := by
  refine ext_find fun k => ?_
  rw [find_insertAll, find_insertAll]
  by_cases h : k ∈ ks
  · rw [if_pos h, if_pos ((hk k).mp h), hf k h]
  · rw [if_neg h, if_neg (fun h' => h ((hk k).mpr h'))]

@[simp] theorem find_ofKeys (f : K → V) (ks : List K) (j : K) :
    (ofKeys f ks).find j = if j ∈ ks then some (f j) else none := by
  simp [ofKeys]

theorem find_insertEach_of_notMem {ι : Type} (m : OrderedMap K V) (key : ι → K) (f : ι → V)
    {l : List ι} {k : K} (hk : k ∉ l.map key) :
    (m.insertEach key f l).find k = m.find k := by
  rw [insertEach]
  induction l generalizing m with
  | nil => rfl
  | cons j l ih =>
    rw [List.map_cons, List.mem_cons, not_or] at hk
    rw [List.foldl_cons, ih _ hk.2, find_insert, if_neg hk.1]

theorem find_insertEach {ι : Type} (m : OrderedMap K V) {key : ι → K}
    (hkey : Function.Injective key) (f : ι → V) {l : List ι} {i : ι} (hi : i ∈ l) :
    (m.insertEach key f l).find (key i) = some (f i) := by
  rw [insertEach]
  induction l generalizing m with
  | nil => simp at hi
  | cons j l ih =>
    rw [List.foldl_cons]
    by_cases hl : i ∈ l
    · exact ih _ hl
    · have hij : i = j := (List.mem_cons.mp hi).resolve_right hl
      have hkeys : key i ∉ l.map key := by rwa [List.mem_map_of_injective hkey]
      rw [← insertEach, find_insertEach_of_notMem _ _ _ hkeys, hij, find_insert, if_pos rfl]

/-- Iterating over a map visits each of its keys once. -/
theorem entries_perm {m : OrderedMap K V} {f : K → V} {ks : List K} (hks : ks.Nodup)
    (h : ∀ k v, m.find k = some v ↔ k ∈ ks ∧ f k = v) :
    m.entries.Perm (ks.map (fun k => (k, f k))) := by
  have hnd : (ks.map (fun k => (k, f k))).Nodup := hks.map fun a b hab => congrArg Prod.fst hab
  refine (List.perm_ext_iff_of_nodup m.nodup_entries hnd).mpr fun e => ?_
  obtain ⟨k, v⟩ := e
  rw [mem_entries_iff, h]
  simp

/-- A map that agrees with a function lists the function's values at its keys. -/
theorem values_eq_map_keys {m : OrderedMap K V} {f : K → V}
    (h : ∀ k v, m.find k = some v → v = f k) :
    m.values = m.keys.map f := by
  rw [values, keys, List.map_map]
  exact List.map_congr_left fun e he => h e.1 e.2 ((m.mem_entries_iff _ _).mp he)

theorem sum_values [AddCommMonoid V] {m : OrderedMap K V} {f : K → V} {ks : List K} (hks : ks.Nodup)
    (h : ∀ k v, m.find k = some v ↔ k ∈ ks ∧ f k = v) : m.values.sum = (ks.map f).sum := by
  have hp := (entries_perm hks h).map Prod.snd
  rw [List.map_map] at hp
  exact hp.sum_eq

/-- The sum over a map whose keys are those of a list. -/
theorem sum_values_of_find {ι : Type} [AddCommMonoid V] {m : OrderedMap K V} (key : ι → K)
    (f : ι → V) (l : List ι) (hnd : (l.map key).Nodup)
    (hfind : ∀ i ∈ l, m.find (key i) = some (f i))
    (hkeys : ∀ k, (m.find k).isSome = true → k ∈ l.map key) : m.values.sum = (l.map f).sum := by
  have hsum : m.values.sum = ((l.map key).map (fun k => (m.find k).getD 0)).sum := by
    refine sum_values hnd fun k v => ?_
    constructor
    · intro hk
      exact ⟨hkeys k (by simp [hk]), by simp [hk]⟩
    · rintro ⟨hk, rfl⟩
      obtain ⟨i, hi, rfl⟩ := List.mem_map.mp hk
      simp [hfind i hi]
  rw [hsum, List.map_map]
  refine congrArg List.sum (List.map_congr_left fun i hi => ?_)
  simp [hfind i hi]

theorem size_of_find {ι : Type} {m : OrderedMap K V} (key : ι → K) (l : List ι)
    (hnd : (l.map key).Nodup) (hkeys : ∀ k, (m.find k).isSome = true ↔ k ∈ l.map key) :
    m.size = l.length := by
  have hperm : m.keys.Perm (l.map key) := by
    have hkeysnd : m.keys.Nodup := (List.pairwise_map.mpr m.sorted).imp ne_of_lt
    refine (List.perm_ext_iff_of_nodup hkeysnd hnd).mpr fun k => ?_
    rw [mem_keys_iff, hkeys]
  have hlen := hperm.length_eq
  rwa [keys, List.length_map, List.length_map] at hlen

theorem find_insertEach_isSome {ι : Type} (m : OrderedMap K V) (key : ι → K)
    (f : ι → V) (l : List ι) (k : K) :
    ((m.insertEach key f l).find k).isSome = true ↔ k ∈ l.map key ∨ (m.find k).isSome = true := by
  rw [insertEach]
  induction l generalizing m with
  | nil => simp
  | cons j l ih =>
    rw [List.foldl_cons, ih, find_insert, List.map_cons, List.mem_cons]
    by_cases hk : k = key j <;> simp [hk]

/-- Entries that are all set anew. -/
theorem insertEach_insertEach {ι : Type} (m : OrderedMap K V) {key : ι → K}
    (hkey : Function.Injective key) (f g : ι → V) (l : List ι) :
    (m.insertEach key f l).insertEach key g l = m.insertEach key g l := by
  refine ext_find fun k => ?_
  by_cases hk : k ∈ l.map key
  · obtain ⟨i, hi, rfl⟩ := List.mem_map.mp hk
    rw [find_insertEach _ hkey g hi, find_insertEach _ hkey g hi]
  · rw [find_insertEach_of_notMem _ _ _ hk, find_insertEach_of_notMem _ _ _ hk,
      find_insertEach_of_notMem _ _ _ hk]

theorem insert_of_find {m : OrderedMap K V} {k : K} {v : V}
    (h : m.find k = some v) : m.insert k v = m := by
  refine ext_find fun j => ?_
  rw [find_insert]
  split
  · rename_i hj
    rw [hj, h]
  · rfl

theorem insert_insert (m : OrderedMap K V) (k : K) (v w : V) :
    (m.insert k v).insert k w = m.insert k w := by
  refine ext_find fun j => ?_
  by_cases hj : j = k <;> simp [hj]

end OrderedMap
