import RustTuf.Shims.Root
import RustTuf.Shims.Timestamp
import RustTuf.Shims.Snapshot
import RustTuf.Shims.Targets

/-! The four top-level codecs together. Encoding is canonical: it depends only on the
value, not on the iteration order of its sets and maps nor, when their names differ, on
the order of the delegated roles, and it writes every set of key ids or paths and every
map as the sorted enumeration of its elements, and the roles by name. Encoding followed
by decoding is then a projection: whatever the expiry's sub-second part and the order of
the roles, decoding an encoding succeeds, and encoding the result again, in whatever
order its sets and maps enumerate, gives the same document. -/

namespace RustTuf.Shims

open Metadata Chrono

variable {T : Types}

/-- Equal values, their delegated roles in any order when the names are distinct, are
written alike, and each encoder writes a set of key ids or paths, and a map, as the
sorted enumeration of its elements, and the delegated roles sorted by name. -/
theorem encode_canonical :
    (∀ r₁ r₂ : Metadata.RoleDefinition T, r₁ ≈ r₂ → RoleDefinition.from r₁ = RoleDefinition.from r₂) ∧
    (∀ d₁ d₂ : Metadata.Delegation T, d₁ ≈ d₂ → Delegation.from d₁ = Delegation.from d₂) ∧
    (∀ d₁ d₂ : Metadata.Delegations T, d₁.EquivUpToOrder d₂ → (d₁.roles.map (·.name)).Nodup →
      Delegations.from d₁ = Delegations.from d₂) ∧
    (∀ d₁ d₂ : Metadata.TargetDescription T, d₁ ≈ d₂ →
      TargetDescription.from d₁ = TargetDescription.from d₂) ∧
    (∀ d₁ d₂ : Metadata.MetadataDescription T, d₁ ≈ d₂ →
      MetadataDescription.from d₁ = MetadataDescription.from d₂) ∧
    (∀ m₁ m₂ : Metadata.RootMetadata T, m₁ ≈ m₂ → encodeRoot m₁ = encodeRoot m₂) ∧
    (∀ m₁ m₂ : Metadata.TimestampMetadata T, m₁ ≈ m₂ → encodeTimestamp m₁ = encodeTimestamp m₂) ∧
    (∀ m₁ m₂ : Metadata.SnapshotMetadata T, m₁ ≈ m₂ → encodeSnapshot m₁ = encodeSnapshot m₂) ∧
    (∀ m₁ m₂ : Metadata.TargetsMetadata T, m₁.EquivUpToOrder m₂ →
      (m₁.delegations.roles.map (·.name)).Nodup → encodeTargets m₁ = encodeTargets m₂) ∧
    (∀ m : Metadata.RootMetadata T, m.keys.IsSortedList encodePublicKey (encodeRoot m).keys ∧
      m.root.keyIds.IsSortedList (encodeRoot m).roles.root.keyIds ∧
      m.snapshot.keyIds.IsSortedList (encodeRoot m).roles.snapshot.keyIds ∧
      m.targets.keyIds.IsSortedList (encodeRoot m).roles.targets.keyIds ∧
      m.timestamp.keyIds.IsSortedList (encodeRoot m).roles.timestamp.keyIds) ∧
    (∀ m : Metadata.TargetsMetadata T,
      m.targets.IsSortedList encodeTargetDescription (encodeTargets m).targets ∧
      ∀ w ∈ (encodeTargets m).delegations,
        m.delegations.keys.IsSortedList encodePublicKey w.keys ∧
        (w.roles.map (·.name)).Sorted (· ≤ ·) ∧
        ((m.delegations.roles.map (·.name)).Nodup → (w.roles.map (·.name)).Sorted (· < ·)) ∧
        w.roles.Perm (m.delegations.roles.map Delegation.from) ∧
        ∀ r ∈ w.roles, ∃ r₀ ∈ m.delegations.roles, r = Delegation.from r₀ ∧
          r₀.keyIds.IsSortedList r.keyIds ∧ r₀.paths.IsSortedList r.paths) := by
  refine ⟨fun _ _ => RoleDefinition.from_congr, fun _ _ => Delegation.from_congr,
    fun _ _ => Delegations.from_congr, fun _ _ => TargetDescription.from_congr,
    fun _ _ => MetadataDescription.from_congr, fun _ _ => encodeRoot_congr,
    fun _ _ => encodeTimestamp_congr, fun _ _ => encodeSnapshot_congr,
    fun _ _ => encodeTargets_congr, sorted_encodeRoot, fun m => ?_⟩
  refine ⟨(sorted_encodeTargets m).1, fun w hw => ?_⟩
  rw [(sorted_encodeTargets m).2 w hw]
  exact Delegations.sorted_from m.delegations

/-- Decoding the encoding of a valid value succeeds, for any sub-second part of its expiry
and any order of its delegated roles, and every value equal to the result (every
enumeration of its sets and maps) is encoded as the same document. -/
theorem encode_decode_encode (V : Checks T) :
    (∀ m : Metadata.RootMetadata T, V.ValidRoot m → (0 ≤ m.expires.year ∧ m.expires.year ≤ 9999) →
      (∀ e ∈ m.keys.entries, T.keyId e.2 = e.1) →
      ∃ m', decodeRoot V (encodeRoot m) = .ok m' ∧
        ∀ m'', m'' ≈ m' → encodeRoot m'' = encodeRoot m) ∧
    (∀ m : Metadata.TimestampMetadata T, V.ValidTimestamp m →
      (0 ≤ m.expires.year ∧ m.expires.year ≤ 9999) →
      ∃ m', decodeTimestamp V (encodeTimestamp m) = .ok m' ∧
        ∀ m'', m'' ≈ m' → encodeTimestamp m'' = encodeTimestamp m) ∧
    (∀ m : Metadata.SnapshotMetadata T, V.ValidSnapshot m →
      (0 ≤ m.expires.year ∧ m.expires.year ≤ 9999) →
      ∃ m', decodeSnapshot V (encodeSnapshot m) = .ok m' ∧
        ∀ m'', m'' ≈ m' → encodeSnapshot m'' = encodeSnapshot m) ∧
    (∀ m : Metadata.TargetsMetadata T, V.ValidTargets m →
      (0 ≤ m.expires.year ∧ m.expires.year ≤ 9999) → (m.delegations.roles.map (·.name)).Nodup →
      ∃ m', decodeTargets V (encodeTargets m) = .ok m' ∧
        ∀ m'', m'' ≈ m' → encodeTargets m'' = encodeTargets m) := by
  refine ⟨fun m hv hy hk => ?_, fun m hv hy => ?_, fun m hv hy => ?_, fun m hv hy hn => ?_⟩
  · obtain ⟨m', h, hm⟩ := decodeRoot_encodeRoot_truncSubsec V hv hy hk
    exact ⟨m', h, fun m'' he =>
      (encodeRoot_congr (RootMetadata.equiv_trans he hm)).trans (encodeRoot_truncSubsec m)⟩
  · obtain ⟨m', h, hm⟩ := decodeTimestamp_encodeTimestamp_truncSubsec V hv hy
    exact ⟨m', h, fun m'' he =>
      (encodeTimestamp_congr (TimestampMetadata.equiv_trans he hm)).trans (encodeTimestamp_truncSubsec m)⟩
  · obtain ⟨m', h, hm⟩ := decodeSnapshot_encodeSnapshot_truncSubsec V hv hy
    exact ⟨m', h, fun m'' he =>
      (encodeSnapshot_congr (SnapshotMetadata.equiv_trans he hm)).trans (encodeSnapshot_truncSubsec m)⟩
  · obtain ⟨m', h, hm⟩ := decodeTargets_encodeTargets_truncSubsec V hv hy
    refine ⟨m', h, fun m'' he => ?_⟩
    have hn'' : (m''.delegations.roles.map (·.name)).Nodup := by
      rw [Delegation.map_name_of_forall₂ he.2.2.2.2, Delegation.map_name_of_forall₂ hm.2.2.2.2]
      exact ((List.mergeSort_perm _ _).map _).nodup_iff.mpr hn
    calc encodeTargets m''
        = encodeTargets m' := encodeTargets_congr (TargetsMetadata.equivUpToOrder_of_equiv he) hn''
      _ = encodeTargets { m with expires := m.expires.truncSubsec } :=
          (encodeTargets_congr (equivUpToOrder_of_equiv_sorted
            (m := { m with expires := m.expires.truncSubsec }) hm) hn).symm
      _ = encodeTargets m := encodeTargets_truncSubsec m

end RustTuf.Shims
