import RustTuf.Shims.PublicKey
import RustTuf.Shims.RoleDefinition

/-! `shims::Delegation` and `shims::Delegations`, the delegated roles of a targets
document. Encoding sorts each role's key ids and paths, and then the roles by name.
Decoding a role collects each list into a set and compares lengths, which rejects
exactly the lists the role-definition loop rejects; the roles are decoded in the order
they are listed, which is their search order. The key pool is written and read as the
root's is, each key as its `shims::PublicKey`. -/

namespace RustTuf.Shims

open Metadata Serde

variable {T : Types}

/-- `shims::Delegation`. -/
structure Delegation (T : Types) where
  name : MetadataPath
  terminating : Bool
  threshold : UInt32
  keyIds : List T.KeyId
  paths : List T.TargetPath

/-- `shims::Delegations`. -/
structure Delegations (T : Types) where
  keys : BTreeMap T.KeyId T.PublicKey
  roles : List (Delegation T)

/-- `From<&metadata::Delegation>`: the paths and the key ids each sorted. -/
def Delegation.from (delegation : Metadata.Delegation T) : Delegation T :=
  ⟨delegation.name, delegation.terminating, delegation.threshold,
    delegation.keyIds.elems.mergeSort, delegation.paths.elems.mergeSort⟩

/-- `TryFrom<Delegation> for metadata::Delegation`: each list collected into a set, a
set shorter than its list being an error. -/
def Delegation.tryFrom (V : Checks T) (delegation : Delegation T) :
    Except (Error T) (Metadata.Delegation T) := do
  let keyIds := HashSet.collect delegation.keyIds
  if keyIds.len ≠ delegation.keyIds.length then
    throw (.encoding (RStr.lit "Non-unique delegation key IDs."))
  let paths := HashSet.collect delegation.paths
  if paths.len ≠ delegation.paths.length then
    throw (.encoding (RStr.lit "Non-unique delegation paths."))
  V.newDelegation delegation.name delegation.terminating delegation.threshold keyIds paths

/-- `From<&metadata::Delegations>`: each role rendered, the roles sorted by name. -/
def Delegations.from (delegations : Metadata.Delegations T) : Delegations T :=
  ⟨BTreeMap.collect delegations.keys.entries,
    (delegations.roles.map Delegation.from).mergeSort fun lhs rhs => lhs.name ≤ rhs.name⟩

/-- `TryFrom<Delegations> for metadata::Delegations`: the roles decoded in their order,
the first error returned. -/
def Delegations.tryFrom (V : Checks T) (delegations : Delegations T) :
    Except (Error T) (Metadata.Delegations T) := do
  let roles ← delegations.roles.mapM (Delegation.tryFrom V)
  V.newDelegations (HashMap.collect delegations.keys.entries) roles

/-- The JSON object of a `Delegations`: the key pool's entries in document order, each
key as its shim, and the roles, each of which is written as its shim. -/
structure Wire.Delegations (T : Types) where
  keys : List (T.KeyId × PublicKey T)
  roles : List (Delegation T)

/-- The derived `Serialize` of `Delegations`: a `BTreeMap` is written in key order, each
key as its shim. -/
def Delegations.serialize (delegations : Delegations T) : Wire.Delegations T :=
  ⟨delegations.keys.entries.map fun e => (e.1, encodePublicKey e.2), delegations.roles⟩

/-- The derived `Deserialize` of `Delegations`, the key pool read with
`deserialize_reject_duplicates`, each key read from its shim. -/
def Delegations.deserialize (w : Wire.Delegations T) : Except (DeError T) (Delegations T) := do
  let keys ← deserializeRejectDuplicates (MapAccess.ofEntries decodePublicKey w.keys)
  pure ⟨keys, w.roles⟩

/-- Modelled from the spec: `metadata::Delegations` is written as its shim. -/
def encodeDelegations (delegations : Metadata.Delegations T) : Wire.Delegations T :=
  (Delegations.from delegations).serialize

/-- Modelled from the spec: `metadata::Delegations` is read as its shim and converted, a
conversion error becoming the deserializer's. -/
def decodeDelegations (V : Checks T) (w : Wire.Delegations T) :
    Except (DeError T) (Metadata.Delegations T) := do
  let delegations ← Delegations.deserialize w
  (Delegations.tryFrom V delegations).mapError .conversion

theorem Delegation.tryFrom_of_nodup (V : Checks T) {delegation : Delegation T}
    (hk : delegation.keyIds.Nodup) (hp : delegation.paths.Nodup) :
    Delegation.tryFrom V delegation = V.newDelegation delegation.name delegation.terminating
      delegation.threshold (HashSet.collect delegation.keyIds) (HashSet.collect delegation.paths) := by
  simp [Delegation.tryFrom, HashSet.len_collect_eq_iff.mpr hk, HashSet.len_collect_eq_iff.mpr hp]

/-- `TryFrom<Delegation>` rejects repeated key ids, then repeated paths, and otherwise
reaches `Delegation::new` with sets of exactly the listed key ids and paths. Its length
test rejects exactly the key-id lists that the loop of `TryFrom<RoleDefinition<M>>`
rejects. -/
theorem delegation_tryFrom (V : Checks T) (delegation : Delegation T) :
    (¬ delegation.keyIds.Nodup → Delegation.tryFrom V delegation =
      .error (.encoding (RStr.lit "Non-unique delegation key IDs."))) ∧
    (delegation.keyIds.Nodup → ¬ delegation.paths.Nodup → Delegation.tryFrom V delegation =
      .error (.encoding (RStr.lit "Non-unique delegation paths."))) ∧
    (delegation.keyIds.Nodup → delegation.paths.Nodup → ∃ K P,
      Delegation.tryFrom V delegation =
        V.newDelegation delegation.name delegation.terminating delegation.threshold K P ∧
      (∀ k, k ∈ K.elems ↔ k ∈ delegation.keyIds) ∧ K.len = delegation.keyIds.length ∧
      (∀ p, p ∈ P.elems ↔ p ∈ delegation.paths) ∧ P.len = delegation.paths.length) ∧
    (∀ (role : Role) (l : List T.KeyId),
      (HashSet.collect l).len ≠ l.length ↔ ∃ e, insertKeyIds role HashSet.empty l = .error e) := by
  refine ⟨fun hk => ?_, fun hk hp => ?_, fun hk hp => ?_, fun role l => ?_⟩
  · simp [Delegation.tryFrom, HashSet.len_collect_eq_iff.not.mpr hk]
  · simp [Delegation.tryFrom, HashSet.len_collect_eq_iff.mpr hk, HashSet.len_collect_eq_iff.not.mpr hp]
  · refine ⟨_, _, ?_, fun k => HashSet.mem_collect, HashSet.len_collect_eq_iff.mpr hk,
      fun p => HashSet.mem_collect, HashSet.len_collect_eq_iff.mpr hp⟩
    exact Delegation.tryFrom_of_nodup V hk hp
  · rw [Ne, HashSet.len_collect_eq_iff]
    constructor
    · intro h
      obtain ⟨i, hi, hm, hn⟩ := exists_first_repeat h
      exact ⟨_, insertKeyIds_of_repeat role HashSet.empty hi hm hn⟩
    · rintro ⟨e, he⟩ h
      obtain ⟨s, hs, -⟩ := insertKeyIds_of_nodup role HashSet.empty h
      rw [hs] at he
      cases he

/-! ### Round trip -/

namespace Delegation

theorem from_congr {d₁ d₂ : Metadata.Delegation T} (h : d₁ ≈ d₂) :
    Delegation.from d₁ = Delegation.from d₂ := by
  obtain ⟨hn, ht, hth, hk, hp⟩ := h
  simp only [Delegation.from, hn, ht, hth,
    mergeSort_eq_of_perm (HashSet.perm_of_equiv hk) d₁.keyIds.nodup,
    mergeSort_eq_of_perm (HashSet.perm_of_equiv hp) d₁.paths.nodup]

theorem map_from_congr {l₁ l₂ : List (Metadata.Delegation T)} (h : List.Forall₂ (· ≈ ·) l₁ l₂) :
    l₁.map Delegation.from = l₂.map Delegation.from := by
  induction h with
  | nil => rfl
  | cons h _ ih => rw [List.map_cons, List.map_cons, from_congr h, ih]

/-- The shim lists the key ids and the paths of the sets in increasing order, each once. -/
theorem sorted_from (d : Metadata.Delegation T) :
    d.keyIds.IsSortedList (Delegation.from d).keyIds ∧ d.paths.IsSortedList (Delegation.from d).paths :=
  ⟨HashSet.isSortedList_mergeSort d.keyIds, HashSet.isSortedList_mergeSort d.paths⟩

/-- A delegation its constructor accepts comes back from its encoding. -/
theorem tryFrom_from (V : Checks T) {d : Metadata.Delegation T} (hv : V.delegation d = none) :
    ∃ d', tryFrom V (Delegation.from d) = .ok d' ∧ d' ≈ d := by
  have hd : (⟨d.name, d.terminating, d.threshold, HashSet.collect d.keyIds.elems.mergeSort,
      HashSet.collect d.paths.elems.mergeSort⟩ : Metadata.Delegation T) ≈ d :=
    ⟨rfl, rfl, rfl, fun k => by simp, fun p => by simp⟩
  refine ⟨_, ?_, hd⟩
  rw [tryFrom_of_nodup V ((List.mergeSort_perm _ _).nodup_iff.mpr d.keyIds.nodup)
    ((List.mergeSort_perm _ _).nodup_iff.mpr d.paths.nodup)]
  exact construct_of_none ((V.delegation_congr _ _ hd).trans hv)

/-- The roles decode one by one, in the order they are written. -/
theorem mapM_tryFrom_map_from (V : Checks T) (roles : List (Metadata.Delegation T))
    (hv : ∀ r ∈ roles, V.delegation r = none) :
    ∃ roles', (roles.map Delegation.from).mapM (tryFrom V) = .ok roles' ∧
      List.Forall₂ (· ≈ ·) roles' roles := by
  induction roles with
  | nil => exact ⟨[], rfl, .nil⟩
  | cons r roles ih =>
    obtain ⟨r', hr, hrr⟩ := tryFrom_from V (hv r (List.mem_cons_self r roles))
    obtain ⟨rs', hrs, hrs'⟩ := ih fun r' h => hv r' (List.mem_cons_of_mem r h)
    exact ⟨r' :: rs', by rw [List.map_cons, List.mapM_cons, hr, hrs]; rfl, .cons hrr hrs'⟩

end Delegation

namespace Delegations

@[simp] theorem keys_from (d : Metadata.Delegations T) :
    (Delegations.from d).keys = BTreeMap.collect d.keys.entries := rfl

/-- Rendering each role and sorting the renderings by name is sorting the roles by name. -/
theorem roles_from (d : Metadata.Delegations T) :
    (Delegations.from d).roles =
      (d.roles.mergeSort fun a b => a.name ≤ b.name).map Delegation.from :=
  (List.map_mergeSort (l := d.roles) (f := Delegation.from) fun _ _ _ _ => rfl).symm

theorem from_congr {d₁ d₂ : Metadata.Delegations T} (h : d₁.EquivUpToOrder d₂)
    (hn : (d₁.roles.map (·.name)).Nodup) : Delegations.from d₁ = Delegations.from d₂ := by
  obtain ⟨hk, roles, hp, hr⟩ := h
  have hroles : (d₁.roles.map Delegation.from).mergeSort (fun a b => a.name ≤ b.name) =
      (d₂.roles.map Delegation.from).mergeSort (fun a b => a.name ≤ b.name) := by
    rw [← Delegation.map_from_congr hr]
    exact mergeSort_by_eq_of_perm (hp.map _).symm (by simpa [List.map_map] using hn)
  simp only [Delegations.from, BTreeMap.collect_congr hk, hroles]

/-- Delegations equal up to the order of their roles are empty alike. -/
theorem isEmpty_congr {d₁ d₂ : Metadata.Delegations T} (h : d₁.EquivUpToOrder d₂) :
    d₁.isEmpty = d₂.isEmpty := by
  obtain ⟨hk, roles, hp, hr⟩ := h
  have hl : d₁.roles.length = d₂.roles.length := hp.length_eq.symm.trans hr.length_eq
  rw [Metadata.Delegations.isEmpty, Metadata.Delegations.isEmpty, HashMap.isEmpty_eq_of_equiv hk]
  congr 1
  rw [Bool.eq_iff_iff, List.isEmpty_iff_length_eq_zero, List.isEmpty_iff_length_eq_zero, hl]

/-- The encoding lists the key pool in increasing key-id order, each key as its shim; the
roles' shims sorted by name, strictly when the names are distinct; and each role's key ids
and paths in increasing order, each once. -/
theorem sorted_from (d : Metadata.Delegations T) :
    d.keys.IsSortedList encodePublicKey (Delegations.from d).serialize.keys ∧
      ((Delegations.from d).roles.map (·.name)).Sorted (· ≤ ·) ∧
      ((d.roles.map (·.name)).Nodup → ((Delegations.from d).roles.map (·.name)).Sorted (· < ·)) ∧
      (Delegations.from d).roles.Perm (d.roles.map Delegation.from) ∧
      ∀ r ∈ (Delegations.from d).roles, ∃ r₀ ∈ d.roles, r = Delegation.from r₀ ∧
        r₀.keyIds.IsSortedList r.keyIds ∧ r₀.paths.IsSortedList r.paths := by
  refine ⟨HashMap.isSortedList_collect d.keys encodePublicKey,
    List.pairwise_map.mpr (sorted_mergeSort_by _ _),
    fun hn => sorted_lt_mergeSort_by (by simpa [List.map_map] using hn),
    List.mergeSort_perm _ _, fun r hr => ?_⟩
  obtain ⟨r₀, h₀, rfl⟩ := List.mem_map.mp (List.mem_mergeSort.mp hr)
  exact ⟨r₀, h₀, rfl, Delegation.sorted_from r₀⟩

/-- Delegations that pass `Delegations::new`, with roles that pass `Delegation::new`, come
back from their encoding with the same key pool and the roles sorted by name. -/
theorem decodeDelegations_encodeDelegations (V : Checks T) {d : Metadata.Delegations T}
    (hv : V.delegations d = none) (hr : ∀ r ∈ d.roles, V.delegation r = none) :
    ∃ d', decodeDelegations V (encodeDelegations d) = .ok d' ∧ d'.keys ≈ d.keys ∧
      List.Forall₂ (· ≈ ·) d'.roles (d.roles.mergeSort fun a b => a.name ≤ b.name) := by
  obtain ⟨roles', hm, hf⟩ := Delegation.mapM_tryFrom_map_from V
    (d.roles.mergeSort fun a b => a.name ≤ b.name) fun r h => hr r (List.mem_mergeSort.mp h)
  have hk := HashMap.collect_entries_collect d.keys
  have hd : d.EquivUpToOrder ⟨HashMap.collect (BTreeMap.collect d.keys.entries).entries, roles'⟩ :=
    ⟨HashMap.equiv_symm hk, d.roles.mergeSort fun a b => a.name ≤ b.name, List.mergeSort_perm _ _,
      Delegation.forall₂_equiv_symm hf⟩
  refine ⟨⟨HashMap.collect (BTreeMap.collect d.keys.entries).entries, roles'⟩, ?_, hk, hf⟩
  simp only [decodeDelegations, encodeDelegations, Delegations.serialize, Delegations.deserialize,
    ofEntries_encodePublicKey, deserializeRejectDuplicates_entries, except_ok_bind, except_pure, tryFrom, keys_from, roles_from, hm]
  rw [Checks.newDelegations, construct_of_none ((V.delegations_congr _ _ hd).symm.trans hv)]
  rfl

end Delegations

/-! ### What decoding returns -/

/-- What `TryFrom<Delegation>` accepted: key ids and paths each listed once, and a role
with the listed name, flag, threshold, key ids and paths, which `Delegation::new`
accepted. -/
theorem Delegation.tryFrom_eq_ok {V : Checks T} {r : Delegation T} {r' : Metadata.Delegation T}
    (h : Delegation.tryFrom V r = .ok r') :
    r.keyIds.Nodup ∧ r.paths.Nodup ∧ r'.name = r.name ∧ r'.terminating = r.terminating ∧
      r'.threshold = r.threshold ∧ r'.keyIds.elems = r.keyIds ∧ r'.paths.elems = r.paths ∧
      V.delegation r' = none := by
  by_cases hk : r.keyIds.Nodup
  · by_cases hp : r.paths.Nodup
    · rw [Delegation.tryFrom_of_nodup V hk hp, Checks.newDelegation, construct_eq_ok_iff] at h
      obtain ⟨hv, rfl⟩ := h
      exact ⟨hk, hp, rfl, rfl, rfl, HashSet.elems_collect hk, HashSet.elems_collect hp, hv⟩
    · simp [Delegation.tryFrom, HashSet.len_collect_eq_iff.mpr hk,
        HashSet.len_collect_eq_iff.not.mpr hp] at h
  · simp [Delegation.tryFrom, HashSet.len_collect_eq_iff.not.mpr hk] at h

/-- What a successful decoding of delegations went through: the key pool read with
`deserialize_reject_duplicates` and kept as it reads, the roles converted in the order
they are listed, and `Delegations::new`. -/
theorem decodeDelegations_eq_ok {V : Checks T} {w : Wire.Delegations T}
    {d : Metadata.Delegations T} (h : decodeDelegations V w = .ok d) :
    ∃ B, deserializeRejectDuplicates (MapAccess.ofEntries decodePublicKey w.keys) = .ok B ∧
      d.keys = HashMap.collect B.entries ∧ w.roles.mapM (Delegation.tryFrom V) = .ok d.roles ∧
      V.delegations d = none := by
  simp only [decodeDelegations, Delegations.deserialize, except_bind_eq_ok, except_pure,
    except_mapError_eq_ok] at h
  obtain ⟨ds, ⟨B, hB, hds⟩, ht⟩ := h
  cases hds
  simp only [Delegations.tryFrom, except_bind_eq_ok, Checks.newDelegations,
    construct_eq_ok_iff] at ht
  obtain ⟨roles, hr, hv, rfl⟩ := ht
  exact ⟨B, hB, rfl, hr, hv⟩

/-- Decoded delegations keep the document's key pool, which lists no id twice and whose
keys all read, each key as it reads; and its roles in the order they are listed, which is
their search order: each role with its listed name, flag and threshold and exactly its
listed key ids and paths, none listed twice, accepted by `Delegation::new`. -/
theorem decodeDelegations_roles {V : Checks T} {w : Wire.Delegations T}
    {d : Metadata.Delegations T} (h : decodeDelegations V w = .ok d) :
    (w.keys.map Prod.fst).Nodup ∧ (∀ e ∈ w.keys, ∃ k, decodePublicKey e.2 = .ok k) ∧
      (∀ id k, d.keys.get? id = some k ↔ ∃ wk, (id, wk) ∈ w.keys ∧ decodePublicKey wk = .ok k) ∧
      List.Forall₂ (fun r r' => r.keyIds.Nodup ∧ r.paths.Nodup ∧ r'.name = r.name ∧
        r'.terminating = r.terminating ∧ r'.threshold = r.threshold ∧
        r'.keyIds.elems = r.keyIds ∧ r'.paths.elems = r.paths ∧ V.delegation r' = none)
        w.roles d.roles := by
  obtain ⟨B, hB, hk, hr, -⟩ := decodeDelegations_eq_ok h
  obtain ⟨hn, -, hmem, hall⟩ := deserializeRejectDuplicates_ofEntries_eq_ok hB
  refine ⟨hn, hall, fun id k => ?_, (mapM_eq_ok_iff.mp hr).imp fun _ _ => Delegation.tryFrom_eq_ok⟩
  rw [hk, ← HashMap.mem_iff_get?, HashMap.entries_collect B.nodup_keys, hmem]

/-- Delegations listing the role `b` before the role `a`. -/
def rolesDocument : Wire.Delegations Types.nat :=
  ⟨[(4, encodePublicKey 4)],
    [⟨⟨RStr.lit "b"⟩, false, 1, [4], [3, 1]⟩, ⟨⟨RStr.lit "a"⟩, true, 1, [4], [2]⟩]⟩

/-- What they decode to, the roles in the same order. -/
def rolesDelegations : Metadata.Delegations Types.nat :=
  ⟨⟨[(4, 4)], by decide⟩, [⟨⟨RStr.lit "b"⟩, false, 1, ⟨[4], by decide⟩, ⟨[3, 1], by decide⟩⟩,
    ⟨⟨RStr.lit "a"⟩, true, 1, ⟨[4], by decide⟩, ⟨[2], by decide⟩⟩]⟩

theorem decodeDelegations_roles_rolesDocument :
    decodeDelegations (Checks.rustTuf Types.nat) rolesDocument = .ok rolesDelegations ∧
      (rolesDocument.keys.map Prod.fst).Nodup ∧
      (∀ e ∈ rolesDocument.keys, ∃ k, decodePublicKey e.2 = .ok k) ∧
      (∀ id k, rolesDelegations.keys.get? id = some k ↔
        ∃ wk, (id, wk) ∈ rolesDocument.keys ∧ decodePublicKey wk = .ok k) ∧
      List.Forall₂ (fun r r' => r.keyIds.Nodup ∧ r.paths.Nodup ∧ r'.name = r.name ∧
        r'.terminating = r.terminating ∧ r'.threshold = r.threshold ∧
        r'.keyIds.elems = r.keyIds ∧ r'.paths.elems = r.paths ∧
        (Checks.rustTuf Types.nat).delegation r' = none) rolesDocument.roles
        rolesDelegations.roles := by
  have h : decodeDelegations (Checks.rustTuf Types.nat) rolesDocument = .ok rolesDelegations := rfl
  exact ⟨h, decodeDelegations_roles h⟩

theorem Delegations.valid_of_decode {V : Checks T} {w : Wire.Delegations T}
    {d : Metadata.Delegations T} (h : decodeDelegations V w = .ok d) : V.ValidDelegations d := by
  obtain ⟨-, -, -, hr, hv⟩ := decodeDelegations_eq_ok h
  refine ⟨fun _ => hv, fun r' hr' => ?_⟩
  obtain ⟨r, -, h'⟩ := exists_of_mem_mapM_eq_ok hr hr'
  exact (Delegation.tryFrom_eq_ok h').2.2.2.2.2.2.2

end RustTuf.Shims
