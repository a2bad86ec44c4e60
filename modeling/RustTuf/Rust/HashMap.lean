import RustTuf.Rust.BTreeMap

/-! `std::collections::HashSet` and `HashMap` seen through their iteration order: a set
is the list of its elements in the order it enumerates them, a map the list of its
entries. Rust does not specify that order; it follows the hashes of the elements and
changes from run to run. The model appends what is new, which is one such order, so no
statement may depend on it: statements compare sets and maps with `≈`, Rust's `==`, which
ignores the order, and what an encoder writes from a set is stated for every set `≈` to
it. `slice::sort` is the stable `List.mergeSort`; its facts for a linear order close the
module. -/

namespace RustTuf

/-- A `HashSet`: its elements in iteration order, each once. -/
structure HashSet (α : Type) where
  elems : List α
  nodup : elems.Nodup

namespace HashSet

variable {α : Type}

def empty : HashSet α := ⟨[], List.nodup_nil⟩

@[simp] theorem elems_empty : (empty : HashSet α).elems = [] := rfl

/-- `HashSet::len`. -/
def len (s : HashSet α) : Nat := s.elems.length

/-- Rust's `==` on sets: the same elements, in whatever order. -/
instance : HasEquiv (HashSet α) := ⟨fun s₁ s₂ => ∀ x, x ∈ s₁.elems ↔ x ∈ s₂.elems⟩

theorem equiv_def {s₁ s₂ : HashSet α} : s₁ ≈ s₂ ↔ ∀ x, x ∈ s₁.elems ↔ x ∈ s₂.elems := Iff.rfl

theorem perm_of_equiv {s₁ s₂ : HashSet α} (h : s₁ ≈ s₂) : s₁.elems.Perm s₂.elems :=
  (List.perm_ext_iff_of_nodup s₁.nodup s₂.nodup).mpr h

@[refl] theorem equiv_refl (s : HashSet α) : s ≈ s := fun _ => Iff.rfl

theorem equiv_symm {s₁ s₂ : HashSet α} (h : s₁ ≈ s₂) : s₂ ≈ s₁ := fun x => (h x).symm

theorem equiv_trans {s₁ s₂ s₃ : HashSet α} (h₁ : s₁ ≈ s₂) (h₂ : s₂ ≈ s₃) : s₁ ≈ s₃ :=
  fun x => (h₁ x).trans (h₂ x)

theorem len_eq_of_equiv {s₁ s₂ : HashSet α} (h : s₁ ≈ s₂) : s₁.len = s₂.len :=
  (perm_of_equiv h).length_eq

variable [DecidableEq α]

/-- The set with `x`, which it lacks, added at the end of the iteration order. -/
def push (s : HashSet α) (x : α) (h : x ∉ s.elems) : HashSet α :=
  ⟨s.elems ++ [x], List.nodup_append.mpr ⟨s.nodup, List.nodup_singleton x, by simpa using h⟩⟩

/-- `HashSet::insert`: whether `x` was absent, and the set holding it. -/
def insert (s : HashSet α) (x : α) : Bool × HashSet α :=
  if h : x ∈ s.elems then (false, s) else (true, s.push x h)

/-- `HashSet::replace`: the stored element equal to `x`, if there was one, and the set
holding `x`. -/
def replace (s : HashSet α) (x : α) : Option α × HashSet α :=
  if h : x ∈ s.elems then (some x, s) else (none, s.push x h)

/-- `FromIterator`: each element inserted in turn. -/
def collect (l : List α) : HashSet α := l.foldl (fun s x => (s.insert x).2) empty

theorem mem_foldl_insert (l : List α) (s : HashSet α) (x : α) :
    x ∈ (l.foldl (fun s x => (s.insert x).2) s).elems ↔ x ∈ s.elems ∨ x ∈ l := by
  induction l generalizing s with
  | nil => simp
  | cons y l ih =>
    rw [List.foldl_cons, ih]
    by_cases hy : y ∈ s.elems <;> simp [insert, push, hy] <;> aesop

theorem elems_foldl_insert {l : List α} (s : HashSet α) (hl : l.Nodup)
    (hd : ∀ x ∈ l, x ∉ s.elems) : (l.foldl (fun s x => (s.insert x).2) s).elems = s.elems ++ l := by
  induction l generalizing s with
  | nil => simp
  | cons y l ih =>
    rw [List.nodup_cons] at hl
    have hy := hd y (List.mem_cons_self y l)
    rw [List.foldl_cons, insert, dif_neg hy, ih _ hl.2]
    · simp [push]
    · intro x hx hm
      simp only [push, List.mem_append, List.mem_singleton] at hm
      rcases hm with hm | rfl
      · exact hd x (List.mem_cons_of_mem y hx) hm
      · exact hl.1 hx

@[simp] theorem mem_collect {l : List α} {x : α} : x ∈ (collect l).elems ↔ x ∈ l := by
  simp [collect, mem_foldl_insert]

theorem elems_collect {l : List α} (h : l.Nodup) : (collect l).elems = l := by
  simpa using elems_foldl_insert empty h (by simp)

/-- Collecting keeps the length exactly when nothing repeats. -/
theorem len_collect_eq_iff {l : List α} : (collect l).len = l.length ↔ l.Nodup := by
  refine ⟨fun h => ?_, fun h => by rw [len, elems_collect h]⟩
  have hs : (collect l).elems.Subperm l := List.subperm_of_subset (collect l).nodup fun x => mem_collect.mp
  exact ((hs.perm_of_length_le (by rw [← len, h])).nodup_iff).mp (collect l).nodup

end HashSet

/-- A `HashMap`: its entries in iteration order, each key once. -/
structure HashMap (K V : Type) where
  entries : List (K × V)
  nodup : (entries.map Prod.fst).Nodup

namespace HashMap

variable {K V W : Type}

def empty : HashMap K V := ⟨[], List.nodup_nil⟩

@[simp] theorem entries_empty : (empty : HashMap K V).entries = [] := rfl

/-- `HashMap::len`. -/
def len (m : HashMap K V) : Nat := m.entries.length

/-- `HashMap::is_empty`. -/
def isEmpty (m : HashMap K V) : Bool := m.entries.isEmpty

variable [DecidableEq K]

/-- `HashMap::get`. -/
def get? (m : HashMap K V) (k : K) : Option V := m.entries.lookup k

/-- Rust's `==` on maps whose values are compared by `r`. -/
def Rel (r : V → W → Prop) (m₁ : HashMap K V) (m₂ : HashMap K W) : Prop :=
  ∀ k, Option.Rel r (m₁.get? k) (m₂.get? k)

/-- Rust's `==` on maps: the same entries, in whatever order. -/
instance : HasEquiv (HashMap K V) := ⟨fun m₁ m₂ => ∀ k, m₁.get? k = m₂.get? k⟩

theorem equiv_def {m₁ m₂ : HashMap K V} : m₁ ≈ m₂ ↔ ∀ k, m₁.get? k = m₂.get? k := Iff.rfl

theorem mem_iff_get? (m : HashMap K V) {k : K} {v : V} : (k, v) ∈ m.entries ↔ m.get? k = some v :=
  (lookup_eq_some_iff_mem m.nodup).symm

private theorem keys_setValue (l : List (K × V)) (k : K) (v : V) :
    (l.map fun e => if e.1 = k then (k, v) else e).map Prod.fst = l.map Prod.fst := by
  simp only [List.map_map]
  exact List.map_congr_left fun e _ => by by_cases h : e.1 = k <;> simp [h]

/-- `HashMap::insert`: the value displaced from `k`, and the map holding `(k, v)`. A key
already present keeps its place in the iteration order. -/
def insert (m : HashMap K V) (k : K) (v : V) : Option V × HashMap K V :=
  if h : k ∈ m.entries.map Prod.fst then
    (m.get? k, ⟨m.entries.map fun e => if e.1 = k then (k, v) else e,
      (keys_setValue m.entries k v).symm ▸ m.nodup⟩)
  else
    (none, ⟨m.entries ++ [(k, v)], by
      rw [List.map_append, List.nodup_append]
      exact ⟨m.nodup, List.nodup_singleton k, by simpa using h⟩⟩)

/-- `FromIterator<(K, V)>`: the entries inserted in order, a later value winning. -/
def collect (l : List (K × V)) : HashMap K V := l.foldl (fun m e => (m.insert e.1 e.2).2) empty

theorem entries_foldl_insert {l : List (K × V)} (m : HashMap K V) (hl : (l.map Prod.fst).Nodup)
    (hd : ∀ e ∈ l, e.1 ∉ m.entries.map Prod.fst) :
    (l.foldl (fun m e => (m.insert e.1 e.2).2) m).entries = m.entries ++ l := by
  induction l generalizing m with
  | nil => simp
  | cons e l ih =>
    rw [List.map_cons, List.nodup_cons] at hl
    have he := hd e (List.mem_cons_self e l)
    rw [List.foldl_cons, insert, dif_neg he, ih _ hl.2]
    · simp
    · intro x hx hm
      simp only [List.map_append, List.mem_append, List.map_cons, List.map_nil,
        List.mem_singleton] at hm
      rcases hm with hm | hm
      · exact hd x (List.mem_cons_of_mem e hx) hm
      · exact hl.1 (hm ▸ List.mem_map_of_mem Prod.fst hx)

/-- A list whose keys do not repeat is collected as it stands. -/
theorem entries_collect {l : List (K × V)} (h : (l.map Prod.fst).Nodup) : (collect l).entries = l := by
  simpa using entries_foldl_insert empty h (by simp)

theorem get?_collect {l : List (K × V)} (h : (l.map Prod.fst).Nodup) (k : K) :
    (collect l).get? k = l.lookup k := by
  rw [get?, entries_collect h]

theorem equiv_refl (m : HashMap K V) : m ≈ m := fun _ => rfl

theorem perm_of_equiv {m₁ m₂ : HashMap K V} (h : m₁ ≈ m₂) : m₁.entries.Perm m₂.entries :=
  (List.perm_ext_iff_of_nodup (m₁.nodup.of_map _) (m₂.nodup.of_map _)).mpr fun ⟨k, v⟩ => by
    rw [mem_iff_get?, mem_iff_get?, h k]

theorem isEmpty_eq_of_equiv {m₁ m₂ : HashMap K V} (h : m₁ ≈ m₂) : m₁.isEmpty = m₂.isEmpty := by
  rw [isEmpty, isEmpty, Bool.eq_iff_iff, List.isEmpty_iff_length_eq_zero,
    List.isEmpty_iff_length_eq_zero, (perm_of_equiv h).length_eq]

theorem equiv_symm {m₁ m₂ : HashMap K V} (h : m₁ ≈ m₂) : m₂ ≈ m₁ := fun k => (h k).symm

theorem rel_symm {r : V → V → Prop} (hr : ∀ {a b}, r a b → r b a) {m₁ m₂ : HashMap K V}
    (h : Rel r m₁ m₂) : Rel r m₂ m₁ := fun k => by
  have hk := h k
  generalize m₁.get? k = a at hk
  generalize m₂.get? k = b at hk
  cases hk with
  | some hab => exact .some (hr hab)
  | none => exact .none

theorem equiv_trans {m₁ m₂ m₃ : HashMap K V} (h₁ : m₁ ≈ m₂) (h₂ : m₂ ≈ m₃) : m₁ ≈ m₃ :=
  fun k => (h₁ k).trans (h₂ k)

theorem rel_trans {r : V → V → Prop} (hr : ∀ {a b c}, r a b → r b c → r a c)
    {m₁ m₂ m₃ : HashMap K V} (h₁ : Rel r m₁ m₂) (h₂ : Rel r m₂ m₃) : Rel r m₁ m₃ := fun k => by
  have h₁k := h₁ k
  have h₂k := h₂ k
  generalize m₁.get? k = a at h₁k
  generalize m₂.get? k = b at h₁k h₂k
  generalize m₃.get? k = c at h₂k
  cases h₁k with
  | none => exact h₂k
  | some hab =>
    cases h₂k with
    | some hbc => exact .some (hr hab hbc)

end HashMap

/-! ### From one map to the other -/

section Collect

variable {K V : Type} [LinearOrder K]

/-- Collecting a `HashMap` into a `BTreeMap` depends only on its entries, not on their
iteration order. -/
theorem BTreeMap.collect_congr {m₁ m₂ : HashMap K V} (h : m₁ ≈ m₂) :
    BTreeMap.collect m₁.entries = BTreeMap.collect m₂.entries :=
  BTreeMap.ext fun k => by
    rw [BTreeMap.get?_collect m₁.nodup, BTreeMap.get?_collect m₂.nodup]
    exact h k

/-- A `HashMap` collected into a `BTreeMap` and back is the same map. -/
theorem HashMap.collect_entries_collect (m : HashMap K V) :
    HashMap.collect (BTreeMap.collect m.entries).entries ≈ m := fun k => by
  rw [HashMap.get?_collect (BTreeMap.nodup_keys _), ← BTreeMap.get?,
    BTreeMap.get?_collect m.nodup]
  rfl

/-- Entries collected into a `BTreeMap` and then into a `HashMap` give each key its last
value. -/
theorem HashMap.get?_collect_entries_collect (l : List (K × V)) (k : K) :
    (HashMap.collect (BTreeMap.collect l).entries).get? k = l.reverse.lookup k := by
  rw [HashMap.get?_collect (BTreeMap.nodup_keys _), ← BTreeMap.get?, BTreeMap.collect,
    BTreeMap.get?_foldl_insert, BTreeMap.get?_empty, Option.or_none]

/-- `l` lists the entries of `m` in increasing key order, each key once and each value as
`f` writes it: it is what writing the `BTreeMap` collected from any enumeration of `m`
gives. -/
def HashMap.IsSortedList {W : Type} (m : HashMap K V) (f : V → W) (l : List (K × W)) : Prop :=
  (l.map Prod.fst).Sorted (· < ·) ∧ ∀ k w, (k, w) ∈ l ↔ ∃ v, m.get? k = some v ∧ f v = w

theorem HashMap.isSortedList_collect {W : Type} (m : HashMap K V) (f : V → W) :
    m.IsSortedList f ((BTreeMap.collect m.entries).entries.map fun e => (e.1, f e.2)) := by
  refine ⟨by simpa [List.map_map] using (BTreeMap.collect m.entries).sorted, fun k w => ?_⟩
  simp only [List.mem_map, Prod.mk.injEq, HashMap.get?, ← BTreeMap.get?_collect m.nodup,
    ← BTreeMap.mem_iff_get?]
  constructor
  · rintro ⟨⟨k, v⟩, he, rfl, rfl⟩
    exact ⟨v, he, rfl⟩
  · rintro ⟨v, he, rfl⟩
    exact ⟨(k, v), he, rfl, rfl⟩

end Collect

/-! ### Sorting -/

section Sorting

variable {α β : Type} [LinearOrder β]

/-- `slice::sort_by` with the comparison of a key: a stable merge sort. -/
theorem sorted_mergeSort_by (f : α → β) (l : List α) :
    (l.mergeSort fun a b => f a ≤ f b).Sorted (fun a b => f a ≤ f b) := by
  simpa using @List.sorted_mergeSort _ (fun a b => decide (f a ≤ f b))
    (fun a b c h₁ h₂ => by simp only [decide_eq_true_eq] at *; exact le_trans h₁ h₂)
    (fun a b => by simpa using le_total (f a) (f b)) l

theorem sorted_lt_mergeSort_by {f : α → β} {l : List α} (h : (l.map f).Nodup) :
    ((l.mergeSort fun a b => f a ≤ f b).map f).Sorted (· < ·) := by
  refine List.Sorted.lt_of_le (List.pairwise_map.mpr (sorted_mergeSort_by f l)) ?_
  exact ((List.mergeSort_perm l _).map f).nodup_iff.mpr h

/-- With distinct keys, a sort by key does not depend on the order of its input. -/
theorem mergeSort_by_eq_of_perm {f : α → β} {l₁ l₂ : List α} (hp : l₁.Perm l₂)
    (h : (l₁.map f).Nodup) :
    (l₁.mergeSort fun a b => f a ≤ f b) = l₂.mergeSort fun a b => f a ≤ f b := by
  have anti : IsAntisymm α (fun a b => f a < f b) :=
    ⟨fun _ _ h₁ h₂ => absurd (lt_trans h₁ h₂) (lt_irrefl _)⟩
  have h₂ : (l₂.map f).Nodup := (hp.map f).nodup_iff.mp h
  exact List.eq_of_perm_of_sorted
    (((List.mergeSort_perm l₁ _).trans hp).trans (List.mergeSort_perm l₂ _).symm)
    (List.pairwise_map.mp (sorted_lt_mergeSort_by h)) (List.pairwise_map.mp (sorted_lt_mergeSort_by h₂))

/-- A list already sorted by key, keys distinct, is its own sort. -/
theorem mergeSort_by_of_sorted {f : α → β} {l : List α} (h : (l.map f).Sorted (· < ·)) :
    (l.mergeSort fun a b => f a ≤ f b) = l :=
  List.mergeSort_of_sorted (by
    simpa using (List.pairwise_map.mp h).imp fun hab => le_of_lt hab)

theorem mergeSort_eq_of_perm {l₁ l₂ : List β} (hp : l₁.Perm l₂) (h : l₁.Nodup) :
    l₁.mergeSort = l₂.mergeSort := by
  simpa using mergeSort_by_eq_of_perm (f := id) hp (by simpa using h)

theorem sorted_lt_mergeSort {l : List β} (h : l.Nodup) : l.mergeSort.Sorted (· < ·) := by
  simpa using sorted_lt_mergeSort_by (f := id) (by simpa using h)

/-- `l` lists the elements of `s` in increasing order, each once: it is what sorting any
enumeration of `s` writes. -/
def HashSet.IsSortedList (s : HashSet β) (l : List β) : Prop :=
  l.Sorted (· < ·) ∧ ∀ x, x ∈ l ↔ x ∈ s.elems

theorem HashSet.isSortedList_mergeSort (s : HashSet β) : s.IsSortedList s.elems.mergeSort :=
  ⟨sorted_lt_mergeSort s.nodup, fun _ => List.mem_mergeSort⟩

end Sorting

end RustTuf
