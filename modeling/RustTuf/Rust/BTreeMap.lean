import Mathlib.Data.List.Sort

/-! `std::collections::BTreeMap` as its entries in key order. The order is a field
of the structure, so a map has one representation and two maps are equal exactly
when they hold the same entries (`BTreeMap.ext`). `collect` inserts the entries in
turn, a later value replacing an earlier one, as `FromIterator` does. The
association-list facts that the `HashMap` model shares come first. -/

namespace RustTuf

/-! ### Association lists -/

section AssocList

variable {K V W : Type} [DecidableEq K]

@[simp] theorem lookup_cons_ite (k k' : K) (v : V) (l : List (K × V)) :
    ((k', v) :: l).lookup k = if k = k' then some v else l.lookup k := by
  by_cases h : k = k'
  · subst h; simp
  · simp [List.lookup_cons, beq_false_of_ne h, h]

theorem lookup_eq_some_iff_mem {l : List (K × V)} (h : (l.map Prod.fst).Nodup) {k : K}
    {v : V} : l.lookup k = some v ↔ (k, v) ∈ l := by
  induction l with
  | nil => simp
  | cons e l ih =>
    obtain ⟨k', v'⟩ := e
    simp only [List.map_cons, List.nodup_cons] at h
    by_cases hk : k = k'
    · subst hk
      have : (k, v) ∉ l := fun hm => h.1 (List.mem_map.mpr ⟨_, hm, rfl⟩)
      simp [this, eq_comm]
    · simp [hk, ih h.2]

theorem lookup_eq_none_iff_not_mem {l : List (K × V)} {k : K} :
    l.lookup k = none ↔ k ∉ l.map Prod.fst := by
  simp only [List.lookup_eq_none_iff, bne_iff_ne, ne_eq, List.mem_map, not_exists, not_and]
  exact ⟨fun h e he hk => h e he hk.symm, fun h e he hk => h e he hk.symm⟩

theorem lookup_congr_of_perm {l₁ l₂ : List (K × V)} (hp : l₁.Perm l₂)
    (h : (l₁.map Prod.fst).Nodup) (k : K) : l₁.lookup k = l₂.lookup k := by
  have h₂ : (l₂.map Prod.fst).Nodup := (hp.map Prod.fst).nodup_iff.mp h
  cases hv : l₁.lookup k with
  | none =>
    rw [lookup_eq_none_iff_not_mem] at hv
    rw [eq_comm, lookup_eq_none_iff_not_mem]
    exact fun hm => hv ((hp.map Prod.fst).mem_iff.mpr hm)
  | some v =>
    rw [lookup_eq_some_iff_mem h] at hv
    exact ((lookup_eq_some_iff_mem h₂).mpr (hp.mem_iff.mp hv)).symm

@[simp] theorem lookup_map_snd (l : List (K × V)) (f : V → W) (k : K) :
    (l.map fun e => (e.1, f e.2)).lookup k = (l.lookup k).map f := by
  induction l with
  | nil => rfl
  | cons e l ih =>
    obtain ⟨k', v⟩ := e
    by_cases hk : k = k'
    · subst hk; simp
    · simp [hk, ih]

omit [DecidableEq K] in
/-- Lists that agree entry by entry on their keys have the same keys. -/
theorem map_fst_eq_of_forall₂ {r : V → W → Prop} {l₁ : List (K × V)} {l₂ : List (K × W)}
    (h : List.Forall₂ (fun a b => a.1 = b.1 ∧ r a.2 b.2) l₁ l₂) : l₁.map Prod.fst = l₂.map Prod.fst := by
  induction h with
  | nil => rfl
  | cons hab _ ih => simp [hab.1, ih]

theorem lookup_rel_of_forall₂ {r : V → W → Prop} {l₁ : List (K × V)} {l₂ : List (K × W)}
    (h : List.Forall₂ (fun a b => a.1 = b.1 ∧ r a.2 b.2) l₁ l₂) (k : K) :
    Option.Rel r (l₁.lookup k) (l₂.lookup k) := by
  induction h with
  | nil => exact .none
  | @cons a b _ _ hab _ ih =>
    obtain ⟨⟨ka, va⟩, ⟨kb, vb⟩⟩ := (a, b)
    simp only at hab
    rw [lookup_cons_ite, lookup_cons_ite, hab.1]
    split
    · exact .some hab.2
    · exact ih

omit [DecidableEq K] in
theorem option_map_eq_of_rel {r : V → W → Prop} {X : Type} {f : V → X} {g : W → X}
    (hf : ∀ a b, r a b → f a = g b) {a : Option V} {b : Option W} (h : Option.Rel r a b) :
    a.map f = b.map g := by
  cases h with
  | some hab => exact congrArg some (hf _ _ hab)
  | none => rfl

/-- Renaming the keys by an injective map renames the lookups. -/
theorem lookup_map_fst_of_injective {K' : Type} [DecidableEq K'] {f : K → K'}
    (hf : Function.Injective f) (l : List (K × V)) (k : K) :
    (l.map fun e => (f e.1, e.2)).lookup (f k) = l.lookup k := by
  induction l with
  | nil => rfl
  | cons e l ih =>
    obtain ⟨k', v⟩ := e
    simp only [List.map_cons, lookup_cons_ite, hf.eq_iff, ih]

/-- Renaming the keys of two lists by an injective map keeps their lookups related. -/
theorem lookup_map_fst_rel {K' : Type} [DecidableEq K'] {r : V → W → Prop} {f : K → K'}
    (hf : Function.Injective f) {l₁ : List (K × V)} {l₂ : List (K × W)}
    (h : ∀ k, Option.Rel r (l₁.lookup k) (l₂.lookup k)) (k' : K') :
    Option.Rel r ((l₁.map fun e => (f e.1, e.2)).lookup k')
      ((l₂.map fun e => (f e.1, e.2)).lookup k') := by
  by_cases hk : ∃ k, f k = k'
  · obtain ⟨k, rfl⟩ := hk
    rw [lookup_map_fst_of_injective hf, lookup_map_fst_of_injective hf]
    exact h k
  · have hn : ∀ {U : Type} (l : List (K × U)), (l.map fun e => (f e.1, e.2)).lookup k' = none :=
      fun l => lookup_eq_none_iff_not_mem.mpr fun hm => by
        rw [List.map_map, List.mem_map] at hm
        obtain ⟨e, -, he⟩ := hm
        exact hk ⟨e.1, he⟩
    rw [hn, hn]
    exact .none

end AssocList

/-- A `BTreeMap`: its entries in strictly increasing key order. -/
structure BTreeMap (K V : Type) [LinearOrder K] where
  entries : List (K × V)
  sorted : (entries.map Prod.fst).Sorted (· < ·)

namespace BTreeMap

variable {K V : Type} [LinearOrder K]

theorem nodup_keys (m : BTreeMap K V) : (m.entries.map Prod.fst).Nodup := m.sorted.nodup

def empty : BTreeMap K V := ⟨[], List.sorted_nil⟩

/-- `BTreeMap::get`. -/
def get? (m : BTreeMap K V) (k : K) : Option V := m.entries.lookup k

/-- `BTreeMap::len`. -/
def len (m : BTreeMap K V) : Nat := m.entries.length

/-- `BTreeMap::is_empty`. -/
def isEmpty (m : BTreeMap K V) : Bool := m.entries.isEmpty

theorem eq_empty_of_isEmpty {m : BTreeMap K V} (h : m.isEmpty = true) : m = empty := by
  obtain ⟨_ | _, _⟩ := m
  · rfl
  · cases h

/-- Insertion into a key-sorted list; an equal key has its value replaced. -/
def insertSorted (k : K) (v : V) : List (K × V) → List (K × V)
  | [] => [(k, v)]
  | (k', v') :: es =>
    if k < k' then (k, v) :: (k', v') :: es
    else if k = k' then (k, v) :: es
    else (k', v') :: insertSorted k v es

theorem keys_insertSorted (k : K) (v : V) (es : List (K × V)) :
    ∀ x ∈ (insertSorted k v es).map Prod.fst, x = k ∨ x ∈ es.map Prod.fst := by
  induction es with
  | nil => simp [insertSorted]
  | cons e es ih =>
    intro x hx
    simp only [insertSorted] at hx
    split_ifs at hx
    · simpa using hx
    · simp only [List.map_cons, List.mem_cons] at hx ⊢; tauto
    · simp only [List.map_cons, List.mem_cons] at hx ⊢
      rcases hx with hx | hx
      · exact .inr (.inl hx)
      · exact (ih x hx).imp_right .inr

theorem sorted_insertSorted (k : K) (v : V) {es : List (K × V)}
    (h : (es.map Prod.fst).Sorted (· < ·)) : ((insertSorted k v es).map Prod.fst).Sorted (· < ·) := by
  induction es with
  | nil => simp [insertSorted]
  | cons e es ih =>
    simp only [List.map_cons, List.sorted_cons] at h
    simp only [insertSorted]
    split_ifs with hlt heq
    · simp only [List.map_cons, List.sorted_cons]
      exact ⟨fun x hx => by
        rcases List.mem_cons.mp hx with rfl | hx
        · exact hlt
        · exact lt_trans hlt (h.1 x hx), h.1, h.2⟩
    · subst heq; simpa using h
    · simp only [List.map_cons, List.sorted_cons]
      refine ⟨fun x hx => ?_, ih h.2⟩
      rcases keys_insertSorted k v es x hx with rfl | hx
      · exact lt_of_le_of_ne (not_lt.mp hlt) (Ne.symm heq)
      · exact h.1 x hx

theorem lookup_insertSorted (k : K) (v : V) (es : List (K × V)) (k' : K) :
    (insertSorted k v es).lookup k' = if k' = k then some v else es.lookup k' := by
  induction es with
  | nil => simp [insertSorted]
  | cons e es ih =>
    obtain ⟨k₀, v₀⟩ := e
    simp only [insertSorted]
    split_ifs <;> simp only [lookup_cons_ite, ih] <;> split_ifs <;> simp_all

/-- `BTreeMap::insert`: the value displaced from `k`, and the updated map. -/
def insert (m : BTreeMap K V) (k : K) (v : V) : Option V × BTreeMap K V :=
  (m.get? k, ⟨insertSorted k v m.entries, sorted_insertSorted k v m.sorted⟩)

@[simp] theorem insert_fst (m : BTreeMap K V) (k : K) (v : V) : (m.insert k v).1 = m.get? k :=
  rfl

@[simp] theorem get?_insert (m : BTreeMap K V) (k : K) (v : V) (k' : K) :
    (m.insert k v).2.get? k' = if k' = k then some v else m.get? k' :=
  lookup_insertSorted k v m.entries k'

@[simp] theorem get?_empty (k : K) : (empty : BTreeMap K V).get? k = none := rfl

/-- `FromIterator<(K, V)>`: the entries inserted in order, a later value winning. -/
def collect (l : List (K × V)) : BTreeMap K V :=
  l.foldl (fun m e => (m.insert e.1 e.2).2) empty

theorem get?_foldl_insert (l : List (K × V)) (m : BTreeMap K V) (k : K) :
    (l.foldl (fun m e => (m.insert e.1 e.2).2) m).get? k = (l.reverse.lookup k).or (m.get? k) := by
  induction l generalizing m with
  | nil => simp
  | cons e l ih =>
    obtain ⟨k', v⟩ := e
    rw [List.foldl_cons, ih, get?_insert, List.reverse_cons, List.lookup_append]
    by_cases hk : k = k' <;> simp [hk, Option.or_assoc]

theorem get?_collect {l : List (K × V)} (h : (l.map Prod.fst).Nodup) (k : K) :
    (collect l).get? k = l.lookup k := by
  rw [collect, get?_foldl_insert, get?_empty, Option.or_none]
  exact (lookup_congr_of_perm (List.reverse_perm l).symm h k).symm

theorem mem_iff_get? (m : BTreeMap K V) {k : K} {v : V} : (k, v) ∈ m.entries ↔ m.get? k = some v :=
  (lookup_eq_some_iff_mem m.nodup_keys).symm

/-- Two maps with the same lookups are the same map. -/
theorem ext {m₁ m₂ : BTreeMap K V} (h : ∀ k, m₁.get? k = m₂.get? k) : m₁ = m₂ := by
  have hp : m₁.entries.Perm m₂.entries :=
    (List.perm_ext_iff_of_nodup (m₁.nodup_keys.of_map _) (m₂.nodup_keys.of_map _)).mpr
      fun ⟨k, v⟩ => by rw [mem_iff_get?, mem_iff_get?, h]
  have anti : IsAntisymm (K × V) (fun a b => a.1 < b.1) :=
    ⟨fun _ _ h₁ h₂ => absurd (lt_trans h₁ h₂) (lt_irrefl _)⟩
  have he := List.eq_of_perm_of_sorted hp (List.pairwise_map.mp m₁.sorted)
    (List.pairwise_map.mp m₂.sorted)
  cases m₁; cases m₂; cases he; rfl

theorem entries_collect_perm {l : List (K × V)} (h : (l.map Prod.fst).Nodup) :
    (collect l).entries.Perm l :=
  (List.perm_ext_iff_of_nodup ((collect l).nodup_keys.of_map _) (h.of_map _)).mpr fun ⟨k, v⟩ => by
    rw [mem_iff_get?, get?_collect h, lookup_eq_some_iff_mem h]

/-- Entries with distinct keys collect to the same map in any order. -/
theorem collect_perm {l₁ l₂ : List (K × V)} (hp : l₁.Perm l₂) (h : (l₁.map Prod.fst).Nodup) :
    collect l₁ = collect l₂ :=
  ext fun k => by
    rw [get?_collect h, get?_collect ((hp.map _).nodup_iff.mp h), lookup_congr_of_perm hp h]

theorem len_collect {l : List (K × V)} (h : (l.map Prod.fst).Nodup) :
    (collect l).len = l.length :=
  (entries_collect_perm h).length_eq

/-- Entries already in strictly increasing key order are collected as they stand. -/
theorem collect_of_sorted {l : List (K × V)} (h : (l.map Prod.fst).Sorted (· < ·)) :
    collect l = ⟨l, h⟩ :=
  ext fun k => get?_collect h.nodup k

@[simp] theorem collect_entries (m : BTreeMap K V) : collect m.entries = m :=
  collect_of_sorted m.sorted

/-- Collecting commutes with a map of the values. -/
theorem entries_collect_map_snd {W : Type} {l : List (K × V)} (h : (l.map Prod.fst).Nodup)
    (f : V → W) :
    (collect (l.map fun e => (e.1, f e.2))).entries = (collect l).entries.map fun e => (e.1, f e.2) := by
  have hs : (((collect l).entries.map fun e => (e.1, f e.2)).map Prod.fst).Sorted (· < ·) := by
    simpa [List.map_map] using (collect l).sorted
  have hl : ((l.map fun e => (e.1, f e.2)).map Prod.fst).Nodup := by simpa [List.map_map] using h
  have he : collect (l.map fun e => (e.1, f e.2)) = ⟨_, hs⟩ := ext fun k => by
    rw [get?_collect hl, lookup_map_snd, ← get?_collect h]
    exact (lookup_map_snd _ f k).symm
  rw [he]

/-- Two lists whose lookups are related are written alike by a value map that identifies
related values, once collected. -/
theorem entries_collect_map_snd_congr {W X : Type} {r : V → W → Prop} {f : V → X} {g : W → X}
    (hf : ∀ a b, r a b → f a = g b) {l₁ : List (K × V)} {l₂ : List (K × W)}
    (h₁ : (l₁.map Prod.fst).Nodup) (h₂ : (l₂.map Prod.fst).Nodup)
    (h : ∀ k, Option.Rel r (l₁.lookup k) (l₂.lookup k)) :
    (collect l₁).entries.map (fun e => (e.1, f e.2)) =
      (collect l₂).entries.map (fun e => (e.1, g e.2)) := by
  rw [← entries_collect_map_snd h₁, ← entries_collect_map_snd h₂]
  congr 1
  refine ext fun k => ?_
  rw [get?_collect (by simpa [List.map_map] using h₁), get?_collect (by simpa [List.map_map] using h₂),
    lookup_map_snd, lookup_map_snd]
  exact option_map_eq_of_rel hf (h k)

end BTreeMap

end RustTuf
