import RustTuf.Shims.Common
import RustTuf.Shims.Delegation
import RustTuf.Shims.Description

/-! `shims::TargetsMetadata`: the targets, each path with its description, and the
delegations. Encoding collects the targets into a `BTreeMap` and leaves the delegations
out when `Delegations::is_empty`; decoding reads the targets with `serde`'s own map
decoding, converting each description, and the delegations through their shim, or takes
`Delegations::default()` when the field is absent. Encoding sorts the delegated roles by
name and decoding keeps the order it reads, so a round trip returns the roles sorted by
name: the order they had is lost unless it was already that one. And a target path
written twice keeps its last description. -/

namespace RustTuf.Shims

open Metadata Serde Chrono

variable {T : Types}

/-- `shims::TargetsMetadata`. -/
structure TargetsMetadata (T : Types) where
  typ : Role
  specVersion : RStr
  version : UInt32
  expires : RStr
  targets : BTreeMap T.TargetPath (Metadata.TargetDescription T)
  delegations : Metadata.Delegations T

/-- `TargetsMetadata::from`, which always returns `Ok`. -/
def TargetsMetadata.from (metadata : Metadata.TargetsMetadata T) : TargetsMetadata T :=
  ⟨.targets, Shims.specVersion, metadata.version, formatDatetime metadata.expires,
    BTreeMap.collect metadata.targets.entries, metadata.delegations⟩

/-- `TargetsMetadata::try_into`. -/
def TargetsMetadata.tryInto (V : Checks T) (self : TargetsMetadata T) :
    Except (Error T) (Metadata.TargetsMetadata T) := do
  checkHeader .targets "targets" self.typ self.specVersion
  let expires ← parseDatetime self.expires
  V.newTargetsMetadata self.version expires (HashMap.collect self.targets.entries) self.delegations

/-! ### JSON objects -/

/-- The JSON object of a `TargetsMetadata`: the targets in document order, and the
delegations unless the field is absent. -/
structure Wire.TargetsMetadata (T : Types) where
  typ : Role
  specVersion : RStr
  version : UInt32
  expires : RStr
  targets : List (T.TargetPath × Wire.TargetDescription T)
  delegations : Option (Wire.Delegations T)

/-- The `delegations` field: `skip_serializing_if = "metadata::Delegations::is_empty"`. -/
def serializeDelegationsField (delegations : Metadata.Delegations T) :
    Option (Wire.Delegations T) :=
  if delegations.isEmpty then none else some (encodeDelegations delegations)

/-- The `delegations` field: `default`, `Delegations::default()` when absent. -/
def deserializeDelegationsField (V : Checks T) :
    Option (Wire.Delegations T) → Except (DeError T) (Metadata.Delegations T)
  | none => .ok Metadata.Delegations.default
  | some w => decodeDelegations V w

/-- The derived `Serialize` of `TargetsMetadata`, each description written as its shim. -/
def TargetsMetadata.serialize (metadata : TargetsMetadata T) : Wire.TargetsMetadata T :=
  ⟨metadata.typ, metadata.specVersion, metadata.version, metadata.expires,
    metadata.targets.entries.map fun e => (e.1, encodeTargetDescription e.2),
    serializeDelegationsField metadata.delegations⟩

/-- The derived `Deserialize` of `TargetsMetadata`: `targets` read with `serde`'s own map
decoding, each description converted. -/
def TargetsMetadata.deserialize (V : Checks T) (w : Wire.TargetsMetadata T) :
    Except (DeError T) (TargetsMetadata T) := do
  let targets ← deserializeBTreeMap (MapAccess.ofEntries (decodeTargetDescription V) w.targets)
  let delegations ← deserializeDelegationsField V w.delegations
  pure ⟨w.typ, w.specVersion, w.version, w.expires, targets, delegations⟩

/-- Modelled from the spec: a targets metadata value is written as its shim. -/
def encodeTargets (metadata : Metadata.TargetsMetadata T) : Wire.TargetsMetadata T :=
  (TargetsMetadata.from metadata).serialize

/-- Modelled from the spec: a targets metadata document is read as its shim and
converted by `try_into`. -/
def decodeTargets (V : Checks T) (w : Wire.TargetsMetadata T) :
    Except (DeError T) (Metadata.TargetsMetadata T) := do
  let metadata ← TargetsMetadata.deserialize V w
  (metadata.tryInto V).mapError .conversion

/-! ### Round trip -/

/-- The delegations come back, their roles sorted by name; empty ones are not written and
come back as the default. -/
theorem deserializeDelegationsField_serialize (V : Checks T) {d : Metadata.Delegations T}
    (hv : V.ValidDelegations d) :
    ∃ d', deserializeDelegationsField V (serializeDelegationsField d) = .ok d' ∧
      d' ≈ (⟨d.keys, d.roles.mergeSort fun a b => a.name ≤ b.name⟩ : Metadata.Delegations T) := by
  unfold serializeDelegationsField
  split
  case isTrue h =>
    obtain ⟨hk, hr⟩ := Bool.and_eq_true_iff.mp h
    have hr : d.roles = [] := List.isEmpty_iff.mp hr
    have hk : d.keys.entries = [] := List.isEmpty_iff.mp hk
    exact ⟨_, rfl, fun k => by simp [HashMap.get?, Delegations.default, hk],
      by simp [Delegations.default, hr]⟩
  case isFalse h => exact Delegations.decodeDelegations_encodeDelegations V (hv.1 (by simpa using h)) hv.2

/-- A value equal to another but for its delegated roles, which are the other's sorted by
name, is equal to it up to their order. -/
theorem equivUpToOrder_of_equiv_sorted {m m' : Metadata.TargetsMetadata T}
    (h : m' ≈ { m with delegations := ⟨m.delegations.keys,
      m.delegations.roles.mergeSort fun a b => a.name ≤ b.name⟩ }) : m.EquivUpToOrder m' :=
  ⟨h.1.symm, h.2.1.symm, HashMap.rel_symm TargetDescription.equiv_symm h.2.2.1,
    HashMap.equiv_symm h.2.2.2.1, _, List.mergeSort_perm _ _, Delegation.forall₂_equiv_symm h.2.2.2.2⟩

/-- A valid targets value comes back from its encoding, its expiry cut to the second and
its delegated roles sorted by name. -/
theorem decodeTargets_encodeTargets_truncSubsec (V : Checks T) {m : Metadata.TargetsMetadata T}
    (hv : V.ValidTargets m) (hy : 0 ≤ m.expires.year ∧ m.expires.year ≤ 9999) :
    ∃ m', decodeTargets V (encodeTargets m) = .ok m' ∧
      m' ≈ { m with expires := m.expires.truncSubsec, delegations := ⟨m.delegations.keys,
        m.delegations.roles.mergeSort fun a b => a.name ≤ b.name⟩ } := by
  obtain ⟨htargets, hd, hdel⟩ := hv
  obtain ⟨B', hB', hf⟩ := deserializeBTreeMap_ofEntries (T := T) (f := decodeTargetDescription V)
    (g := encodeTargetDescription) (r := (· ≈ ·)) (BTreeMap.collect m.targets.entries)
    fun e he => TargetDescription.decode_encode V
      (hd e ((BTreeMap.entries_collect_perm m.targets.nodup).mem_iff.mp he))
  obtain ⟨d', hd', hdd⟩ := deserializeDelegationsField_serialize V hdel
  have ht : HashMap.Rel (· ≈ ·) (HashMap.collect B'.entries) m.targets := fun k => by
    rw [HashMap.get?_collect B'.nodup_keys, HashMap.get?, ← BTreeMap.get?_collect m.targets.nodup]
    exact lookup_rel_of_forall₂ hf k
  have hm' : (⟨m.version, m.expires.truncSubsec, HashMap.collect B'.entries, d'⟩ :
      Metadata.TargetsMetadata T) ≈ { m with expires := m.expires.truncSubsec, delegations :=
        ⟨m.delegations.keys, m.delegations.roles.mergeSort fun a b => a.name ≤ b.name⟩ } :=
    ⟨rfl, rfl, ht, hdd⟩
  refine ⟨_, ?_, hm'⟩
  simp only [decodeTargets, encodeTargets, TargetsMetadata.serialize, TargetsMetadata.deserialize,
    TargetsMetadata.from, TargetsMetadata.tryInto]
  simp only [hB', hd', except_ok_bind, except_pure, checkHeader_specVersion,
    parseDatetime_formatDatetime_of_mem hy, Checks.newTargetsMetadata]
  rw [construct_of_none ((V.targets_congr _ _ (equivUpToOrder_of_equiv_sorted hm')).symm.trans
    ((V.targets_truncSubsec m).trans htargets))]
  rfl

/-- Roles that a decoding returns as the sort by name of a list, and that equal that
list, distinct names given, were listed in increasing name order already. -/
theorem sorted_names_of_forall₂_mergeSort {roles roles' : List (Metadata.Delegation T)}
    (hs : List.Forall₂ (· ≈ ·) roles' (roles.mergeSort fun a b => a.name ≤ b.name))
    (he : List.Forall₂ (· ≈ ·) roles' roles) (hn : (roles.map (·.name)).Nodup) :
    (roles.map (·.name)).Sorted (· < ·) := by
  rw [← Delegation.map_name_of_forall₂ he, Delegation.map_name_of_forall₂ hs]
  exact sorted_lt_mergeSort_by hn

/-- Every valid targets value whose expiry has no sub-second part and a four-digit year
comes back from its encoding with its delegated roles sorted by name: equal to it
exactly when they were listed in that order already, their names distinct. -/
theorem decodeTargets_encodeTargets (V : Checks T) {m : Metadata.TargetsMetadata T}
    (hv : V.ValidTargets m) (hn : m.expires.nanosecond = 0)
    (hy : 0 ≤ m.expires.year ∧ m.expires.year ≤ 9999) :
    ∃ m', decodeTargets V (encodeTargets m) = .ok m' ∧
      m' ≈ { m with delegations := ⟨m.delegations.keys,
        m.delegations.roles.mergeSort fun a b => a.name ≤ b.name⟩ } ∧
      ((m.delegations.roles.map (·.name)).Sorted (· < ·) → m' ≈ m) ∧
      ((m.delegations.roles.map (·.name)).Nodup → m' ≈ m →
        (m.delegations.roles.map (·.name)).Sorted (· < ·)) := by
  obtain ⟨m', h, hm⟩ := decodeTargets_encodeTargets_truncSubsec V hv hy
  rw [DateTime.truncSubsec_eq_self hn] at hm
  refine ⟨m', h, hm, fun hs => ?_, fun hnd he => sorted_names_of_forall₂_mergeSort hm.2.2.2.2 he.2.2.2.2 hnd⟩
  rwa [mergeSort_by_of_sorted hs] at hm

/-- Two delegated roles, listed against the order of their names, each over the key `1`
and the path `0`. -/
def unsortedTargets : Metadata.TargetsMetadata Types.nat :=
  ⟨1, ⟨⟨2030, 1, 1, by decide, by decide⟩, ⟨0, 0, by decide, by decide⟩⟩, HashMap.empty,
    ⟨⟨[(1, 1)], by decide⟩, [⟨⟨RStr.lit "b"⟩, false, 1, ⟨[1], by decide⟩, ⟨[0], by decide⟩⟩,
      ⟨⟨RStr.lit "a"⟩, false, 1, ⟨[1], by decide⟩, ⟨[0], by decide⟩⟩]⟩⟩

theorem validTargets_unsortedTargets : (Checks.rustTuf Types.nat).ValidTargets unsortedTargets := by
  refine ⟨rfl, fun _ h => absurd h (List.not_mem_nil _), fun _ => rfl, fun r hr => ?_⟩
  simp only [unsortedTargets, List.mem_cons, List.mem_singleton, List.not_mem_nil, or_false] at hr
  rcases hr with rfl | rfl <;> rfl

theorem decodeTargets_encodeTargets_unsortedTargets :
    (Checks.rustTuf Types.nat).ValidTargets unsortedTargets ∧
      unsortedTargets.expires.nanosecond = 0 ∧
      (0 ≤ unsortedTargets.expires.year ∧ unsortedTargets.expires.year ≤ 9999) ∧
      ∃ m', decodeTargets (Checks.rustTuf Types.nat) (encodeTargets unsortedTargets) = .ok m' ∧
        m' ≈ { unsortedTargets with delegations := ⟨unsortedTargets.delegations.keys,
          unsortedTargets.delegations.roles.mergeSort fun a b => a.name ≤ b.name⟩ } ∧
        ((unsortedTargets.delegations.roles.map (·.name)).Sorted (· < ·) → m' ≈ unsortedTargets) ∧
        ((unsortedTargets.delegations.roles.map (·.name)).Nodup → m' ≈ unsortedTargets →
          (unsortedTargets.delegations.roles.map (·.name)).Sorted (· < ·)) :=
  ⟨validTargets_unsortedTargets, rfl, by decide,
    decodeTargets_encodeTargets (Checks.rustTuf Types.nat) validTargets_unsortedTargets rfl (by decide)⟩

/-- The roles `b, a` of `unsortedTargets`, which the constructors accept, come back as
`a, b`: under any checks that accept the value, the round trip does not give it back. -/
theorem decodeTargets_encodeTargets_reorders :
    (Checks.rustTuf Types.nat).ValidTargets unsortedTargets ∧
      ∀ V : Checks Types.nat, V.ValidTargets unsortedTargets →
        ¬ ∃ m', decodeTargets V (encodeTargets unsortedTargets) = .ok m' ∧ m' ≈ unsortedTargets := by
  refine ⟨validTargets_unsortedTargets, fun V hv ⟨m', h, hm⟩ => ?_⟩
  obtain ⟨m'', h', hm'⟩ := decodeTargets_encodeTargets_truncSubsec V hv (by decide)
  rw [h] at h'
  cases h'
  exact absurd (sorted_names_of_forall₂_mergeSort hm'.2.2.2.2 hm.2.2.2.2 (by decide)) (by decide)

/-! ### A target path written twice -/

/-- The description of length `length` with the one hash `1 ↦ 9`. -/
def repeatedDescription (length : UInt64) : Metadata.TargetDescription Types.nat :=
  ⟨length, ⟨[(1, 9)], by decide⟩, HashMap.empty⟩

/-- A targets document that lists the target path `0` twice, with lengths `1` and `2`,
each description with one hash. -/
def repeatedTargetDocument : Wire.TargetsMetadata Types.nat :=
  ⟨.targets, Shims.specVersion, 1,
    formatDatetime ⟨⟨2030, 1, 1, by decide, by decide⟩, ⟨0, 0, by decide, by decide⟩⟩,
    [(0, ⟨1, [(1, 9)], none⟩), (0, ⟨2, [(1, 9)], none⟩)], none⟩

/-- The targets value holding the path `0` with its second description. -/
def repeatedTargets : Metadata.TargetsMetadata Types.nat :=
  ⟨1, ⟨⟨2030, 1, 1, by decide, by decide⟩, ⟨0, 0, by decide, by decide⟩⟩,
    ⟨[(0, repeatedDescription 2)], by decide⟩, Metadata.Delegations.default⟩

theorem decodeTargetDescription_repeatedDescription (V : Checks Types.nat) {length : UInt64}
    (h : V.targetDescription (repeatedDescription length) = none) :
    decodeTargetDescription V ⟨length, [(1, 9)], none⟩ = .ok (repeatedDescription length) := by
  rw [decodeTargetDescription_eq]
  exact congrArg (Except.mapError _) (construct_of_none h)

/-- Under any checks that accept both descriptions and the result, the document is
accepted, and the path keeps the description written last. -/
theorem decodeTargets_repeatedTargetDocument (V : Checks Types.nat)
    (h₁ : V.targetDescription (repeatedDescription 1) = none)
    (h₂ : V.targetDescription (repeatedDescription 2) = none) (ht : V.targets repeatedTargets = none) :
    decodeTargets V repeatedTargetDocument = .ok repeatedTargets ∧
      repeatedTargets.targets.get? 0 = some (repeatedDescription 2) := by
  refine ⟨?_, rfl⟩
  simp only [decodeTargets, repeatedTargetDocument, TargetsMetadata.deserialize, MapAccess.ofEntries,
    List.map, decodeTargetDescription_repeatedDescription V h₁,
    decodeTargetDescription_repeatedDescription V h₂, deserializeDelegationsField,
    TargetsMetadata.tryInto, checkHeader_specVersion,
    parseDatetime_formatDatetime_of_mem
      (t := ⟨⟨2030, 1, 1, by decide, by decide⟩, ⟨0, 0, by decide, by decide⟩⟩) (by decide)]
  exact congrArg (Except.mapError _) (construct_of_none ht)

theorem decodeTargets_repeatedTargetDocument_rustTuf :
    (Checks.rustTuf Types.nat).targetDescription (repeatedDescription 1) = none ∧
      (Checks.rustTuf Types.nat).targetDescription (repeatedDescription 2) = none ∧
      (Checks.rustTuf Types.nat).targets repeatedTargets = none ∧
      decodeTargets (Checks.rustTuf Types.nat) repeatedTargetDocument = .ok repeatedTargets ∧
      repeatedTargets.targets.get? 0 = some (repeatedDescription 2) :=
  ⟨rfl, rfl, rfl, decodeTargets_repeatedTargetDocument (Checks.rustTuf Types.nat) rfl rfl rfl⟩

/-! ### What decoding returns -/

/-- What a successful decoding of a targets document went through: `targets` read with
`serde`'s own map decoding, the delegations field, the tag and spec version, the expiry,
and `TargetsMetadata::new`. -/
theorem decodeTargets_eq_ok {V : Checks T} {w : Wire.TargetsMetadata T}
    {m : Metadata.TargetsMetadata T} (h : decodeTargets V w = .ok m) :
    ∃ B ds t, deserializeBTreeMap (MapAccess.ofEntries (decodeTargetDescription V) w.targets) =
        .ok B ∧ deserializeDelegationsField V w.delegations = .ok ds ∧
      checkHeader (T := T) .targets "targets" w.typ w.specVersion = .ok () ∧
      parseDatetime (T := T) w.expires = .ok t ∧ V.targets m = none ∧
      m = ⟨w.version, t, HashMap.collect B.entries, ds⟩ := by
  simp only [decodeTargets, TargetsMetadata.deserialize, except_bind_eq_ok, except_pure,
    except_mapError_eq_ok] at h
  obtain ⟨meta, ⟨B, hB, ds, hds, hmeta⟩, ht⟩ := h
  cases hmeta
  simp only [TargetsMetadata.tryInto, except_bind_eq_ok, Checks.newTargetsMetadata,
    construct_eq_ok_iff] at ht
  obtain ⟨⟨⟩, hh, t, hp, hv, rfl⟩ := ht
  exact ⟨B, ds, t, hB, hds, hh, hp, hv, rfl⟩

/-- In a decoded targets document every description decodes, an overwritten one
included, and each target path holds the description of its last entry. -/
theorem decodeTargets_targets {V : Checks T} {w : Wire.TargetsMetadata T}
    {m : Metadata.TargetsMetadata T} (h : decodeTargets V w = .ok m) :
    (∀ e ∈ w.targets, ∃ d, decodeTargetDescription V e.2 = .ok d) ∧
      ∀ p d, m.targets.get? p = some d ↔
        ∃ wd, w.targets.reverse.lookup p = some wd ∧ decodeTargetDescription V wd = .ok d := by
  obtain ⟨B, ds, t, hB, -, -, -, -, rfl⟩ := decodeTargets_eq_ok h
  obtain ⟨hall, hget⟩ := deserializeBTreeMap_ofEntries_eq_ok hB
  refine ⟨hall, fun p d => ?_⟩
  rw [HashMap.get?_collect B.nodup_keys]
  exact hget p d

/-- A targets document listing the path `0` twice, with the lengths `1` and `2`, and two
delegated roles, `b` before `a`. -/
def targetsDocument : Wire.TargetsMetadata Types.nat :=
  ⟨.targets, RStr.lit "1.0", 1, RStr.lit "2030-01-01T00:00:00Z",
    [(0, ⟨1, [(1, 8)], none⟩), (0, ⟨2, [(1, 9)], none⟩)],
    some ⟨[(4, encodePublicKey 4)],
      [⟨⟨RStr.lit "b"⟩, false, 1, [4], [3, 1]⟩, ⟨⟨RStr.lit "a"⟩, true, 1, [4], [2]⟩]⟩⟩

/-- The targets it decodes to: the path keeps its last description, the roles their
order. -/
def targetsValue : Metadata.TargetsMetadata Types.nat :=
  ⟨1, ⟨⟨2030, 1, 1, by decide, by decide⟩, ⟨0, 0, by decide, by decide⟩⟩,
    ⟨[(0, ⟨2, ⟨[(1, 9)], by decide⟩, HashMap.empty⟩)], by decide⟩,
    ⟨⟨[(4, 4)], by decide⟩, [⟨⟨RStr.lit "b"⟩, false, 1, ⟨[4], by decide⟩, ⟨[3, 1], by decide⟩⟩,
      ⟨⟨RStr.lit "a"⟩, true, 1, ⟨[4], by decide⟩, ⟨[2], by decide⟩⟩]⟩⟩

theorem decodeTargets_targets_targetsDocument :
    decodeTargets (Checks.rustTuf Types.nat) targetsDocument = .ok targetsValue ∧
      (∀ e ∈ targetsDocument.targets, ∃ d, decodeTargetDescription (Checks.rustTuf Types.nat) e.2 = .ok d) ∧
      ∀ p d, targetsValue.targets.get? p = some d ↔ ∃ wd,
        targetsDocument.targets.reverse.lookup p = some wd ∧
          decodeTargetDescription (Checks.rustTuf Types.nat) wd = .ok d := by
  have h : decodeTargets (Checks.rustTuf Types.nat) targetsDocument = .ok targetsValue := rfl
  exact ⟨h, decodeTargets_targets h⟩

theorem TargetsMetadata.valid_of_decode {V : Checks T} {w : Wire.TargetsMetadata T}
    {m : Metadata.TargetsMetadata T} (h : decodeTargets V w = .ok m) : V.ValidTargets m := by
  obtain ⟨B, ds, t, hB, hds, -, -, hv, rfl⟩ := decodeTargets_eq_ok h
  refine ⟨hv, fun e he => ?_, ?_⟩
  · rw [HashMap.entries_collect B.nodup_keys] at he
    obtain ⟨wd, -, hd⟩ := ((deserializeBTreeMap_ofEntries_eq_ok hB).2 e.1 e.2).mp
      ((BTreeMap.mem_iff_get? B).mp he)
    exact TargetDescription.valid_of_decode hd
  · cases hw : w.delegations with
    | none =>
      rw [hw] at hds
      cases hds
      exact ⟨nofun, nofun⟩
    | some wd =>
      rw [hw] at hds
      exact Delegations.valid_of_decode hds

/-- A decoded document is tagged `targets`, with an accepted spec version. -/
theorem TargetsMetadata.header_of_decode {V : Checks T} {w : Wire.TargetsMetadata T}
    {m : Metadata.TargetsMetadata T} (h : decodeTargets V w = .ok m) :
    w.typ = .targets ∧ validSpecVersion w.specVersion = true := by
  obtain ⟨-, -, -, -, -, hh, -⟩ := decodeTargets_eq_ok h
  exact checkHeader_eq_ok_iff.mp hh

/-! ### Canonical encoding -/

theorem encodeTargets_congr {m₁ m₂ : Metadata.TargetsMetadata T} (h : m₁.EquivUpToOrder m₂)
    (hn : (m₁.delegations.roles.map (·.name)).Nodup) : encodeTargets m₁ = encodeTargets m₂ := by
  obtain ⟨hv, he, ht, hd⟩ := h
  have htargets := BTreeMap.entries_collect_map_snd_congr (r := (· ≈ ·))
    (f := encodeTargetDescription) (g := encodeTargetDescription)
    (fun _ _ => TargetDescription.encode_congr) m₁.targets.nodup m₂.targets.nodup ht
  simp only [encodeTargets, TargetsMetadata.from, TargetsMetadata.serialize, serializeDelegationsField,
    encodeDelegations, hv, he, htargets, Delegations.isEmpty_congr hd, Delegations.from_congr hd hn]

@[simp] theorem encodeTargets_truncSubsec (m : Metadata.TargetsMetadata T) :
    encodeTargets { m with expires := m.expires.truncSubsec } = encodeTargets m := by
  simp [encodeTargets, TargetsMetadata.from]

/-- The encoding lists the targets in increasing path order, each description as its
shim, and writes the delegations, when it writes them, as `Delegations::from` sorts
them. -/
theorem sorted_encodeTargets (m : Metadata.TargetsMetadata T) :
    m.targets.IsSortedList encodeTargetDescription (encodeTargets m).targets ∧
      ∀ w ∈ (encodeTargets m).delegations, w = (Delegations.from m.delegations).serialize := by
  refine ⟨HashMap.isSortedList_collect m.targets encodeTargetDescription, fun w hw => ?_⟩
  simp only [encodeTargets, TargetsMetadata.serialize, TargetsMetadata.from, serializeDelegationsField] at hw
  split at hw
  · cases hw
  · exact (Option.some.inj hw).symm

end RustTuf.Shims
