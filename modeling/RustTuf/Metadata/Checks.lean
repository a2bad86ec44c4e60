import RustTuf.Metadata.Basic

/-! The constructors `metadata::*::new` that the decoders end in. `metadata.rs` is not
part of this source; each constructor is given by the check it makes before it stores
its arguments unchanged (`construct`), and the checks are collected in `Checks`. They
judge their arguments as values: arguments equal under Rust's `==`, and delegated roles
listed in another order, pass or fail alike; and they judge an expiry to the second,
which is all the wire format carries. A valid in-memory value is one whose constructors
accepted it. Every theorem holds for all checks with these laws; two instances close the
module: `Checks.none`, which accepts everything, and `Checks.rustTuf`, which rejects what
the constructors reject. -/

namespace RustTuf.Metadata

open Metadata

/-- The checks of the constructors the shims call, `none` when the arguments pass. -/
structure Checks (T : Types) where
  roleDefinition : Role → RoleDefinition T → Option (Error T)
  delegation : Delegation T → Option (Error T)
  delegations : Delegations T → Option (Error T)
  targetDescription : TargetDescription T → Option (Error T)
  metadataDescription : Role → MetadataDescription T → Option (Error T)
  root : RootMetadata T → Option (Error T)
  timestamp : TimestampMetadata T → Option (Error T)
  snapshot : SnapshotMetadata T → Option (Error T)
  targets : TargetsMetadata T → Option (Error T)
  metadataPath : RStr → Option (Error T)
  roleDefinition_congr : ∀ ρ (r₁ r₂ : RoleDefinition T), r₁ ≈ r₂ →
    roleDefinition ρ r₁ = roleDefinition ρ r₂
  delegation_congr : ∀ d₁ d₂ : Delegation T, d₁ ≈ d₂ → delegation d₁ = delegation d₂
  delegations_congr : ∀ d₁ d₂ : Delegations T, d₁.EquivUpToOrder d₂ →
    delegations d₁ = delegations d₂
  targetDescription_congr : ∀ d₁ d₂ : TargetDescription T, d₁ ≈ d₂ →
    targetDescription d₁ = targetDescription d₂
  metadataDescription_congr : ∀ ρ (d₁ d₂ : MetadataDescription T), d₁ ≈ d₂ →
    metadataDescription ρ d₁ = metadataDescription ρ d₂
  root_congr : ∀ m₁ m₂ : RootMetadata T, m₁ ≈ m₂ → root m₁ = root m₂
  timestamp_congr : ∀ m₁ m₂ : TimestampMetadata T, m₁ ≈ m₂ → timestamp m₁ = timestamp m₂
  snapshot_congr : ∀ m₁ m₂ : SnapshotMetadata T, m₁ ≈ m₂ → snapshot m₁ = snapshot m₂
  targets_congr : ∀ m₁ m₂ : TargetsMetadata T, m₁.EquivUpToOrder m₂ → targets m₁ = targets m₂
  root_truncSubsec : ∀ m : RootMetadata T, root { m with expires := m.expires.truncSubsec } = root m
  timestamp_truncSubsec : ∀ m : TimestampMetadata T,
    timestamp { m with expires := m.expires.truncSubsec } = timestamp m
  snapshot_truncSubsec : ∀ m : SnapshotMetadata T,
    snapshot { m with expires := m.expires.truncSubsec } = snapshot m
  targets_truncSubsec : ∀ m : TargetsMetadata T,
    targets { m with expires := m.expires.truncSubsec } = targets m

variable {T : Types} {α : Type}

/-- A constructor of `metadata.rs`: its check, then the arguments stored as they are. -/
def construct (check : α → Option (Error T)) (a : α) : Except (Error T) α :=
  match check a with
  | some e => .error e
  | none => .ok a

@[simp] theorem construct_of_none {check : α → Option (Error T)} {a : α} (h : check a = none) :
    construct check a = .ok a := by
  simp [construct, h]

theorem construct_eq_ok {check : α → Option (Error T)} {a b : α} (h : construct check a = .ok b) :
    check a = none ∧ b = a := by
  unfold construct at h
  split at h <;> simp_all

theorem construct_eq_ok_iff {check : α → Option (Error T)} {a b : α} :
    construct check a = .ok b ↔ check a = none ∧ b = a := by
  refine ⟨construct_eq_ok, ?_⟩
  rintro ⟨h, rfl⟩
  exact construct_of_none h

namespace Checks

variable (V : Checks T)

/-- `RoleDefinition::new(threshold, key_ids)` for the role `M::ROLE`. -/
def newRoleDefinition (role : Role) (threshold : UInt32) (keyIds : HashSet T.KeyId) :
    Except (Error T) (RoleDefinition T) :=
  construct (V.roleDefinition role) ⟨threshold, keyIds⟩

/-- `Delegation::new(name, terminating, threshold, key_ids, paths)`. -/
def newDelegation (name : MetadataPath) (terminating : Bool) (threshold : UInt32)
    (keyIds : HashSet T.KeyId) (paths : HashSet T.TargetPath) : Except (Error T) (Delegation T) :=
  construct V.delegation ⟨name, terminating, threshold, keyIds, paths⟩

/-- `Delegations::new(keys, roles)`. -/
def newDelegations (keys : HashMap T.KeyId T.PublicKey) (roles : List (Delegation T)) :
    Except (Error T) (Delegations T) :=
  construct V.delegations ⟨keys, roles⟩

/-- `TargetDescription::new(length, hashes, custom)`. -/
def newTargetDescription (length : UInt64) (hashes : HashMap T.HashAlgorithm T.HashValue)
    (custom : HashMap RStr T.Value) : Except (Error T) (TargetDescription T) :=
  construct V.targetDescription ⟨length, hashes, custom⟩

/-- `MetadataDescription::new(version, length, hashes)` for the role `M::ROLE`. -/
def newMetadataDescription (role : Role) (version : UInt32) (length : Option USize)
    (hashes : HashMap T.HashAlgorithm T.HashValue) : Except (Error T) (MetadataDescription T) :=
  construct (V.metadataDescription role) ⟨version, length, hashes⟩

/-- `RootMetadata::new`. -/
def newRootMetadata (version : UInt32) (expires : Chrono.DateTime) (consistentSnapshot : Bool)
    (keys : HashMap T.KeyId T.PublicKey) (root snapshot targets timestamp : RoleDefinition T) :
    Except (Error T) (RootMetadata T) :=
  construct V.root ⟨version, expires, consistentSnapshot, keys, root, snapshot, targets, timestamp⟩

/-- `TimestampMetadata::new`. -/
def newTimestampMetadata (version : UInt32) (expires : Chrono.DateTime)
    (snapshot : MetadataDescription T) : Except (Error T) (TimestampMetadata T) :=
  construct V.timestamp ⟨version, expires, snapshot⟩

/-- `SnapshotMetadata::new`. -/
def newSnapshotMetadata (version : UInt32) (expires : Chrono.DateTime)
    (meta : HashMap MetadataPath (MetadataDescription T)) : Except (Error T) (SnapshotMetadata T) :=
  construct V.snapshot ⟨version, expires, meta⟩

/-- `TargetsMetadata::new`. -/
def newTargetsMetadata (version : UInt32) (expires : Chrono.DateTime)
    (targets : HashMap T.TargetPath (TargetDescription T)) (delegations : Delegations T) :
    Except (Error T) (TargetsMetadata T) :=
  construct V.targets ⟨version, expires, targets, delegations⟩

/-- `MetadataPath::new`: a path whose text passes the check. -/
def newMetadataPath (path : RStr) : Except (Error T) MetadataPath :=
  match V.metadataPath path with
  | some e => .error e
  | none => .ok ⟨path⟩

/-! ### Valid values -/

/-- A root metadata value its constructors accepted. -/
def ValidRoot (m : RootMetadata T) : Prop :=
  V.root m = none ∧ V.roleDefinition .root m.root = none ∧
    V.roleDefinition .snapshot m.snapshot = none ∧ V.roleDefinition .targets m.targets = none ∧
    V.roleDefinition .timestamp m.timestamp = none

def ValidTimestamp (m : TimestampMetadata T) : Prop :=
  V.timestamp m = none ∧ V.metadataDescription .snapshot m.snapshot = none

/-- A snapshot metadata value its constructors accepted, each path included: its text
passed `MetadataPath::new`. -/
def ValidSnapshot (m : SnapshotMetadata T) : Prop :=
  V.snapshot m = none ∧ ∀ e ∈ m.meta.entries,
    V.metadataPath e.1.path = none ∧ V.metadataDescription .targets e.2 = none

/-- Delegations whose roles passed `Delegation::new` and which, unless empty (the
`Default` that decoding an absent field gives), passed `Delegations::new`. -/
def ValidDelegations (d : Delegations T) : Prop :=
  (d.isEmpty = false → V.delegations d = none) ∧ ∀ r ∈ d.roles, V.delegation r = none

def ValidTargets (m : TargetsMetadata T) : Prop :=
  V.targets m = none ∧ (∀ e ∈ m.targets.entries, V.targetDescription e.2 = none) ∧
    V.ValidDelegations m.delegations

end Checks

/-- The checks that accept everything. -/
def Checks.none (T : Types) : Checks T where
  roleDefinition _ _ := Option.none
  delegation _ := Option.none
  delegations _ := Option.none
  targetDescription _ := Option.none
  metadataDescription _ _ := Option.none
  root _ := Option.none
  timestamp _ := Option.none
  snapshot _ := Option.none
  targets _ := Option.none
  metadataPath _ := Option.none
  roleDefinition_congr _ _ _ _ := rfl
  delegation_congr _ _ _ := rfl
  delegations_congr _ _ _ := rfl
  targetDescription_congr _ _ _ := rfl
  metadataDescription_congr _ _ _ _ := rfl
  root_congr _ _ _ := rfl
  timestamp_congr _ _ _ := rfl
  snapshot_congr _ _ _ := rfl
  targets_congr _ _ _ := rfl
  root_truncSubsec _ := rfl
  timestamp_truncSubsec _ := rfl
  snapshot_truncSubsec _ := rfl
  targets_truncSubsec _ := rfl

/-- A threshold of at least one, over a non-empty set of key ids at least as large. -/
def checkThreshold (threshold : UInt32) (keyCount : Nat) : Option (Error T) :=
  if threshold.toNat < 1 then some (.illegalArgument (RStr.lit "Threshold must be at least one"))
  else if keyCount = 0 then some (.illegalArgument (RStr.lit "Cannot have an empty set of key IDs"))
  else if keyCount < threshold.toNat then
    some (.illegalArgument (RStr.lit "Cannot have a threshold greater than the number of key IDs"))
  else Option.none

/-- A version of at least one. -/
def checkVersion (version : UInt32) : Option (Error T) :=
  if version.toNat < 1 then some (.illegalArgument (RStr.lit "Version must be greater than zero"))
  else Option.none

/-- Modelled from the spec: checks that reject what the constructors of `metadata.rs`
reject: a threshold below one or above the number of key ids, an empty set of key ids or
of delegated paths, an empty set of hashes in a target description, two delegated roles
of one name, a version below one, and an empty metadata path. The texts are this
model's. -/
def Checks.rustTuf (T : Types) : Checks T where
  roleDefinition _ r := checkThreshold r.threshold r.keyIds.len
  delegation d :=
    if d.paths.len = 0 then some (.illegalArgument (RStr.lit "Cannot have an empty set of paths"))
    else checkThreshold d.threshold d.keyIds.len
  delegations d :=
    if (d.roles.map (·.name)).Nodup then Option.none
    else some (.illegalArgument (RStr.lit "Cannot have duplicated roles in delegations"))
  targetDescription d :=
    if d.hashes.isEmpty then some (.illegalArgument (RStr.lit "Cannot have an empty set of hashes"))
    else Option.none
  metadataDescription _ d := checkVersion d.version
  root m := checkVersion m.version
  timestamp m := checkVersion m.version
  snapshot m := checkVersion m.version
  targets m := checkVersion m.version
  metadataPath p :=
    if p = [] then some (.illegalArgument (RStr.lit "Path cannot be empty")) else Option.none
  roleDefinition_congr _ _ _ h := by simp only [h.1, HashSet.len_eq_of_equiv h.2]
  delegation_congr _ _ h := by
    simp only [h.2.2.1, HashSet.len_eq_of_equiv h.2.2.2.1, HashSet.len_eq_of_equiv h.2.2.2.2]
  delegations_congr _ _ h := by
    obtain ⟨-, roles, hp, hf⟩ := h
    simp only [← Delegation.map_name_of_forall₂ hf, (hp.map _).nodup_iff]
  targetDescription_congr _ _ h := by simp only [HashMap.isEmpty_eq_of_equiv h.2.1]
  metadataDescription_congr _ _ _ h := by simp only [h.1]
  root_congr _ _ h := by simp only [h.1]
  timestamp_congr _ _ h := by simp only [h.1]
  snapshot_congr _ _ h := by simp only [h.1]
  targets_congr _ _ h := by simp only [h.1]
  root_truncSubsec _ := rfl
  timestamp_truncSubsec _ := rfl
  snapshot_truncSubsec _ := rfl
  targets_truncSubsec _ := rfl

end RustTuf.Metadata
