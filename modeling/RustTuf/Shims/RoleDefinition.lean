import RustTuf.Metadata.Checks
import RustTuf.Serde.Map

/-! `shims::RoleDefinition<M>`, the `{threshold, keyids}` object of each top-level role.
Encoding sorts the key ids. Decoding replaces each key id into a set and stops at the
first one the set already holds, naming it; a list without repeats reaches
`RoleDefinition::new` with exactly its own key ids, so the threshold is checked against
as many distinct key ids as the list has entries. -/

namespace RustTuf.Shims

open Metadata

variable {T : Types}

/-- `shims::RoleDefinition<M>`: the threshold and the key ids as listed. -/
structure RoleDefinition (T : Types) where
  threshold : UInt32
  keyIds : List T.KeyId

/-- `From<&metadata::RoleDefinition<M>>`: the key ids sorted into a stable order. -/
def RoleDefinition.from (role : Metadata.RoleDefinition T) : RoleDefinition T :=
  ⟨role.threshold, role.keyIds.elems.mergeSort⟩

/-- The loop of `TryFrom<RoleDefinition<M>>`: each key id replaced into the set, the
first one already present reported. -/
def insertKeyIds (role : Role) : HashSet T.KeyId → List T.KeyId → Except (Error T) (HashSet T.KeyId)
  | keyIds, [] => .ok keyIds
  | keyIds, keyId :: rest =>
    match keyIds.replace keyId with
    | (some old, _) => .error (.metadataRoleHasDuplicateKeyId role old)
    | (none, keyIds) => insertKeyIds role keyIds rest

/-- `TryFrom<RoleDefinition<M>> for metadata::RoleDefinition<M>`, with `M::ROLE` as `role`. -/
def RoleDefinition.tryFrom (V : Checks T) (role : Role) (definition : RoleDefinition T) :
    Except (Error T) (Metadata.RoleDefinition T) := do
  let keyIds ← insertKeyIds role HashSet.empty definition.keyIds
  V.newRoleDefinition role definition.threshold keyIds

/-- Modelled from the spec: `metadata::RoleDefinition<M>` is written as its shim. -/
def encodeRoleDefinition (role : Metadata.RoleDefinition T) : RoleDefinition T :=
  RoleDefinition.from role

/-- Modelled from the spec: `metadata::RoleDefinition<M>` is read as its shim and
converted for the role `M::ROLE`, a conversion error becoming the deserializer's. -/
def decodeRoleDefinition (V : Checks T) (role : Role) (w : RoleDefinition T) :
    Except (Serde.DeError T) (Metadata.RoleDefinition T) :=
  (RoleDefinition.tryFrom V role w).mapError .conversion

/-! ### The duplicate loop -/

/-- A list whose elements, after those already in the set, do not repeat is inserted
whole. -/
theorem insertKeyIds_of_nodup (role : Role) (s : HashSet T.KeyId) {l : List T.KeyId}
    (h : (s.elems ++ l).Nodup) : ∃ s', insertKeyIds role s l = .ok s' ∧ s'.elems = s.elems ++ l := by
  induction l generalizing s with
  | nil => exact ⟨s, rfl, by simp⟩
  | cons x l ih =>
    have hx : x ∉ s.elems := fun hm => (List.nodup_append.mp h).2.2 hm (List.mem_cons_self x l)
    obtain ⟨s', hs', he⟩ := ih (s.push x hx) (by simpa [HashSet.push] using h)
    exact ⟨s', by simpa [insertKeyIds, HashSet.replace, hx] using hs', by simp [he, HashSet.push]⟩

/-- The first entry equal to one before it, or already in the set, is the one reported. -/
theorem insertKeyIds_of_repeat (role : Role) (s : HashSet T.KeyId) {l : List T.KeyId} {i : Nat}
    (hi : i < l.length) (hm : l[i] ∈ s.elems ++ l.take i) (hn : (s.elems ++ l.take i).Nodup) :
    insertKeyIds role s l = .error (.metadataRoleHasDuplicateKeyId role l[i]) := by
  induction l generalizing s i with
  | nil => simp at hi
  | cons x l ih =>
    cases i with
    | zero =>
      have hx : x ∈ s.elems := by simpa using hm
      simp [insertKeyIds, HashSet.replace, hx]
    | succ j =>
      have hx : x ∉ s.elems := fun h => (List.nodup_append.mp hn).2.2 h (by simp)
      simp only [insertKeyIds, HashSet.replace, dif_neg hx]
      exact ih (s.push x hx) (by simpa using hi) (by simpa [HashSet.push] using hm)
        (by simpa [HashSet.push] using hn)

/-- A list with a repeat has a first one: an entry equal to one before it, with none
before it repeating. -/
theorem exists_first_repeat {α : Type} {l : List α} (h : ¬ l.Nodup) :
    ∃ (i : Nat) (hi : i < l.length), l[i] ∈ l.take i ∧ (l.take i).Nodup := by
  induction l using List.reverseRecOn with
  | nil => simp at h
  | append_singleton l x ih =>
    by_cases hl : l.Nodup
    · refine ⟨l.length, by simp, ?_, by simpa using hl⟩
      have hx : x ∈ l := by
        by_contra hx
        exact h (List.nodup_append.mpr ⟨hl, List.nodup_singleton x, by simpa using hx⟩)
      simpa using hx
    · obtain ⟨i, hi, hm, hn⟩ := ih hl
      refine ⟨i, by simp; omega, ?_, ?_⟩
      · rw [List.getElem_append_left hi, List.take_append_of_le_length hi.le]; exact hm
      · rw [List.take_append_of_le_length hi.le]; exact hn

/-- `TryFrom<RoleDefinition<M>>` fails on the first repeated key id, naming it; a list
without repeats reaches `RoleDefinition::new` with a set of exactly its key ids. -/
theorem roleDefinition_tryFrom (V : Checks T) (role : Role) (definition : RoleDefinition T) :
    (¬ definition.keyIds.Nodup → ∃ (i : Nat) (hi : i < definition.keyIds.length),
      definition.keyIds[i] ∈ definition.keyIds.take i ∧ (definition.keyIds.take i).Nodup ∧
      RoleDefinition.tryFrom V role definition =
        .error (.metadataRoleHasDuplicateKeyId role definition.keyIds[i])) ∧
    (definition.keyIds.Nodup → ∃ S : HashSet T.KeyId,
      RoleDefinition.tryFrom V role definition = V.newRoleDefinition role definition.threshold S ∧
      (∀ k, k ∈ S.elems ↔ k ∈ definition.keyIds) ∧ S.len = definition.keyIds.length) := by
  constructor
  · intro h
    obtain ⟨i, hi, hm, hn⟩ := exists_first_repeat h
    refine ⟨i, hi, hm, hn, ?_⟩
    simp [RoleDefinition.tryFrom, insertKeyIds_of_repeat role HashSet.empty hi hm hn]
  · intro h
    obtain ⟨S, hS, he⟩ := insertKeyIds_of_nodup role HashSet.empty h
    refine ⟨S, by simp [RoleDefinition.tryFrom, hS], fun k => ?_, ?_⟩
    · simp [he]
    · simp [HashSet.len, he]

/-! ### Round trip -/

namespace RoleDefinition

theorem from_congr {r₁ r₂ : Metadata.RoleDefinition T} (h : r₁ ≈ r₂) :
    RoleDefinition.from r₁ = RoleDefinition.from r₂ := by
  simp only [RoleDefinition.from, h.1, mergeSort_eq_of_perm (HashSet.perm_of_equiv h.2) r₁.keyIds.nodup]

/-- The shim lists the key ids of the set in increasing order, each once. -/
theorem sorted_from (r : Metadata.RoleDefinition T) :
    r.keyIds.IsSortedList (RoleDefinition.from r).keyIds :=
  HashSet.isSortedList_mergeSort r.keyIds

/-- A role definition its constructor accepts comes back from its encoding. -/
theorem tryFrom_from (V : Checks T) (role : Role) {r : Metadata.RoleDefinition T}
    (hv : V.roleDefinition role r = none) :
    ∃ r', tryFrom V role (RoleDefinition.from r) = .ok r' ∧ r' ≈ r := by
  obtain ⟨S, hS, he⟩ := insertKeyIds_of_nodup role HashSet.empty (l := r.keyIds.elems.mergeSort)
    ((List.mergeSort_perm _ _).nodup_iff.mpr r.keyIds.nodup)
  have hr : (⟨r.threshold, S⟩ : Metadata.RoleDefinition T) ≈ r :=
    ⟨rfl, fun k => by simp [he]⟩
  refine ⟨⟨r.threshold, S⟩, ?_, hr⟩
  simp [tryFrom, RoleDefinition.from, hS, Checks.newRoleDefinition,
    V.roleDefinition_congr role _ _ hr, hv]

theorem decode_encode (V : Checks T) (role : Role) {r : Metadata.RoleDefinition T}
    (hv : V.roleDefinition role r = none) :
    ∃ r', decodeRoleDefinition V role (encodeRoleDefinition r) = .ok r' ∧ r' ≈ r := by
  obtain ⟨r', h, hr⟩ := tryFrom_from V role hv
  exact ⟨r', by rw [decodeRoleDefinition, encodeRoleDefinition, h]; rfl, hr⟩

/-- A decoded role definition comes from a list of key ids without repeats, which it
holds as they were listed, and passed `RoleDefinition::new` for its role. -/
theorem decode_eq_ok {V : Checks T} {role : Role} {w : RoleDefinition T}
    {r : Metadata.RoleDefinition T} (h : decodeRoleDefinition V role w = .ok r) :
    w.keyIds.Nodup ∧ r.threshold = w.threshold ∧ r.keyIds.elems = w.keyIds ∧
      V.roleDefinition role r = none := by
  rw [decodeRoleDefinition, except_mapError_eq_ok, tryFrom, except_bind_eq_ok] at h
  obtain ⟨S, hS, hr⟩ := h
  have hn : w.keyIds.Nodup := by
    by_contra hn
    obtain ⟨i, hi, hm, hn'⟩ := exists_first_repeat hn
    rw [insertKeyIds_of_repeat role HashSet.empty hi hm hn'] at hS
    cases hS
  obtain ⟨S', hS', he⟩ := insertKeyIds_of_nodup role HashSet.empty hn
  rw [hS'] at hS
  cases hS
  rw [Checks.newRoleDefinition, construct_eq_ok_iff] at hr
  obtain ⟨hv, rfl⟩ := hr
  exact ⟨hn, rfl, he, hv⟩

end RoleDefinition

end RustTuf.Shims
