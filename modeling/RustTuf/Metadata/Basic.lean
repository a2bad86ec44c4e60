import Mathlib.Data.List.Perm.Basic
import RustTuf.Rust.HashMap
import RustTuf.Chrono.DateTime

/-! The in-memory values of `metadata.rs` that the shims convert from and to. The
crate's `crypto`, `metadata` and `error` modules are not part of this source: the
value types the shims only pass along are opaque here (`Types`), and `Error` has the
variants the shims raise. A `HashSet` or `HashMap` field is held in its iteration
order, so each record comes with `≈`, Rust's derived `==`, which compares such fields
as sets and maps. `RoleDefinition<M>` and `MetadataDescription<M>` lose their phantom
role `M`; the decoders take `M::ROLE` as an argument instead. -/

namespace RustTuf

/-- The value types the shims take from `crypto`, `metadata` and `serde_json` and only
pass along: key ids, public keys, key types and signature schemes, target paths, hash
algorithms and values, and JSON values, with the orders of their `Ord` impls;
`PublicKey::key_id`; and the two halves of `crypto::PublicKey`'s serde impls, which go
through `shims::PublicKey`: the parts a key is written as (`PublicKey::new` of its type,
scheme, key id hash algorithms and public text), and the key built back from the parts
the shim's getters return, or the message of the error that stops it. A key's own parts
build it back. -/
structure Types where
  KeyId : Type
  PublicKey : Type
  KeyType : Type
  SignatureScheme : Type
  TargetPath : Type
  HashAlgorithm : Type
  HashValue : Type
  Value : Type
  keyIdOrder : LinearOrder KeyId
  targetPathOrder : LinearOrder TargetPath
  hashAlgorithmOrder : LinearOrder HashAlgorithm
  keyId : PublicKey → KeyId
  keyType : PublicKey → KeyType
  scheme : PublicKey → SignatureScheme
  keyidHashAlgorithms : PublicKey → Option (List RStr)
  publicKeyText : PublicKey → RStr
  publicKeyOf : KeyType → SignatureScheme → Option (List RStr) → RStr → Except RStr PublicKey
  publicKeyOf_parts : ∀ k, publicKeyOf (keyType k) (scheme k) (keyidHashAlgorithms k)
    (publicKeyText k) = .ok k

attribute [instance] Types.keyIdOrder Types.targetPathOrder Types.hashAlgorithmOrder

/-- Every value type taken as `Nat`, a key's id being the key itself: an instance on
which the codecs run on concrete documents. A key is written as its type with the scheme
`0`, and a key of any other scheme fails to read. -/
abbrev Types.nat : Types where
  KeyId := Nat
  PublicKey := Nat
  KeyType := Nat
  SignatureScheme := Nat
  TargetPath := Nat
  HashAlgorithm := Nat
  HashValue := Nat
  Value := Nat
  keyIdOrder := inferInstance
  targetPathOrder := inferInstance
  hashAlgorithmOrder := inferInstance
  keyId := id
  keyType := id
  scheme _ := 0
  keyidHashAlgorithms _ := none
  publicKeyText _ := []
  publicKeyOf keyType scheme _ _ :=
    if scheme = 0 then .ok keyType else .error (RStr.lit "Unsupported signature scheme")
  publicKeyOf_parts _ := rfl

/-- `metadata::Role`. -/
inductive Role
  | root | snapshot | targets | timestamp
  deriving DecidableEq, Repr

/-- The `Debug` text of a role. -/
def Role.debug : Role → RStr
  | .root => RStr.lit "Root"
  | .snapshot => RStr.lit "Snapshot"
  | .targets => RStr.lit "Targets"
  | .timestamp => RStr.lit "Timestamp"

/-- `metadata::MetadataPath`, held as its text. -/
structure MetadataPath where
  path : RStr
  deriving DecidableEq

instance : LinearOrder MetadataPath :=
  LinearOrder.lift' MetadataPath.path fun a b h => by cases a; cases b; cases h; rfl

/-- `crate::error::Error`: the variants the shims raise; `illegalArgument`, which the
constructors of `metadata.rs` raise; and a panic, which nothing here catches, so that it
ends a decoding as an error does. -/
inductive Error (T : Types)
  | encoding (msg : RStr)
  | metadataRoleHasDuplicateKeyId (role : Role) (keyId : T.KeyId)
  | illegalArgument (msg : RStr)
  | panic (msg : RStr)

namespace Metadata

variable (T : Types)

/-- `metadata::RoleDefinition<M>`. -/
structure RoleDefinition where
  threshold : UInt32
  keyIds : HashSet T.KeyId

/-- `metadata::MetadataDescription<M>`. -/
structure MetadataDescription where
  version : UInt32
  length : Option USize
  hashes : HashMap T.HashAlgorithm T.HashValue

/-- `metadata::TargetDescription`. -/
structure TargetDescription where
  length : UInt64
  hashes : HashMap T.HashAlgorithm T.HashValue
  custom : HashMap RStr T.Value

/-- `metadata::Delegation`. -/
structure Delegation where
  name : MetadataPath
  terminating : Bool
  threshold : UInt32
  keyIds : HashSet T.KeyId
  paths : HashSet T.TargetPath

/-- `metadata::Delegations`: a key pool and the delegated roles in search order. -/
structure Delegations where
  keys : HashMap T.KeyId T.PublicKey
  roles : List (Delegation T)

/-- `metadata::RootMetadata`. -/
structure RootMetadata where
  version : UInt32
  expires : Chrono.DateTime
  consistentSnapshot : Bool
  keys : HashMap T.KeyId T.PublicKey
  root : RoleDefinition T
  snapshot : RoleDefinition T
  targets : RoleDefinition T
  timestamp : RoleDefinition T

/-- `metadata::TimestampMetadata`. -/
structure TimestampMetadata where
  version : UInt32
  expires : Chrono.DateTime
  snapshot : MetadataDescription T

/-- `metadata::SnapshotMetadata`. -/
structure SnapshotMetadata where
  version : UInt32
  expires : Chrono.DateTime
  meta : HashMap MetadataPath (MetadataDescription T)

/-- `metadata::TargetsMetadata`. -/
structure TargetsMetadata where
  version : UInt32
  expires : Chrono.DateTime
  targets : HashMap T.TargetPath (TargetDescription T)
  delegations : Delegations T

variable {T}

/-- Modelled from the spec: `Delegations::default`, no keys and no roles. -/
def Delegations.default : Delegations T := ⟨HashMap.empty, []⟩

/-- Modelled from the spec: `Delegations::is_empty`, no delegated roles and no
delegation keys. -/
def Delegations.isEmpty (d : Delegations T) : Bool := d.keys.isEmpty && d.roles.isEmpty

/-! ### Rust's `==` -/

instance : HasEquiv (RoleDefinition T) :=
  ⟨fun r₁ r₂ => r₁.threshold = r₂.threshold ∧ r₁.keyIds ≈ r₂.keyIds⟩

instance : HasEquiv (MetadataDescription T) :=
  ⟨fun d₁ d₂ => d₁.version = d₂.version ∧ d₁.length = d₂.length ∧ d₁.hashes ≈ d₂.hashes⟩

instance : HasEquiv (TargetDescription T) :=
  ⟨fun d₁ d₂ => d₁.length = d₂.length ∧ d₁.hashes ≈ d₂.hashes ∧ d₁.custom ≈ d₂.custom⟩

instance : HasEquiv (Delegation T) :=
  ⟨fun d₁ d₂ => d₁.name = d₂.name ∧ d₁.terminating = d₂.terminating ∧
    d₁.threshold = d₂.threshold ∧ d₁.keyIds ≈ d₂.keyIds ∧ d₁.paths ≈ d₂.paths⟩

instance : HasEquiv (Delegations T) :=
  ⟨fun d₁ d₂ => d₁.keys ≈ d₂.keys ∧ List.Forall₂ (· ≈ ·) d₁.roles d₂.roles⟩

instance : HasEquiv (RootMetadata T) :=
  ⟨fun m₁ m₂ => m₁.version = m₂.version ∧ m₁.expires = m₂.expires ∧
    m₁.consistentSnapshot = m₂.consistentSnapshot ∧ m₁.keys ≈ m₂.keys ∧ m₁.root ≈ m₂.root ∧
    m₁.snapshot ≈ m₂.snapshot ∧ m₁.targets ≈ m₂.targets ∧ m₁.timestamp ≈ m₂.timestamp⟩

instance : HasEquiv (TimestampMetadata T) :=
  ⟨fun m₁ m₂ => m₁.version = m₂.version ∧ m₁.expires = m₂.expires ∧ m₁.snapshot ≈ m₂.snapshot⟩

instance : HasEquiv (SnapshotMetadata T) :=
  ⟨fun m₁ m₂ => m₁.version = m₂.version ∧ m₁.expires = m₂.expires ∧
    HashMap.Rel (· ≈ ·) m₁.meta m₂.meta⟩

instance : HasEquiv (TargetsMetadata T) :=
  ⟨fun m₁ m₂ => m₁.version = m₂.version ∧ m₁.expires = m₂.expires ∧
    HashMap.Rel (· ≈ ·) m₁.targets m₂.targets ∧ m₁.delegations ≈ m₂.delegations⟩

/-! ### `≈` is an equivalence -/

section Equiv

variable {T : Types}

theorem RoleDefinition.equiv_refl (r : RoleDefinition T) : r ≈ r := ⟨rfl, HashSet.equiv_refl _⟩

theorem RoleDefinition.equiv_symm {r₁ r₂ : RoleDefinition T} (h : r₁ ≈ r₂) : r₂ ≈ r₁ :=
  ⟨h.1.symm, HashSet.equiv_symm h.2⟩

theorem MetadataDescription.equiv_refl (d : MetadataDescription T) : d ≈ d :=
  ⟨rfl, rfl, HashMap.equiv_refl _⟩

theorem MetadataDescription.equiv_symm {d₁ d₂ : MetadataDescription T} (h : d₁ ≈ d₂) : d₂ ≈ d₁ :=
  ⟨h.1.symm, h.2.1.symm, HashMap.equiv_symm h.2.2⟩

theorem TargetDescription.equiv_refl (d : TargetDescription T) : d ≈ d :=
  ⟨rfl, HashMap.equiv_refl _, HashMap.equiv_refl _⟩

theorem TargetDescription.equiv_symm {d₁ d₂ : TargetDescription T} (h : d₁ ≈ d₂) : d₂ ≈ d₁ :=
  ⟨h.1.symm, HashMap.equiv_symm h.2.1, HashMap.equiv_symm h.2.2⟩

theorem Delegation.equiv_refl (d : Delegation T) : d ≈ d :=
  ⟨rfl, rfl, rfl, HashSet.equiv_refl _, HashSet.equiv_refl _⟩

theorem Delegation.equiv_symm {d₁ d₂ : Delegation T} (h : d₁ ≈ d₂) : d₂ ≈ d₁ :=
  ⟨h.1.symm, h.2.1.symm, h.2.2.1.symm, HashSet.equiv_symm h.2.2.2.1, HashSet.equiv_symm h.2.2.2.2⟩

theorem Delegation.forall₂_equiv_symm {l₁ l₂ : List (Delegation T)}
    (h : List.Forall₂ (· ≈ ·) l₁ l₂) : List.Forall₂ (· ≈ ·) l₂ l₁ :=
  List.Forall₂.flip (h.imp fun _ _ => Delegation.equiv_symm)

theorem RoleDefinition.equiv_trans {r₁ r₂ r₃ : RoleDefinition T} (h₁ : r₁ ≈ r₂) (h₂ : r₂ ≈ r₃) :
    r₁ ≈ r₃ :=
  ⟨h₁.1.trans h₂.1, HashSet.equiv_trans h₁.2 h₂.2⟩

theorem MetadataDescription.equiv_trans {d₁ d₂ d₃ : MetadataDescription T} (h₁ : d₁ ≈ d₂)
    (h₂ : d₂ ≈ d₃) : d₁ ≈ d₃ :=
  ⟨h₁.1.trans h₂.1, h₁.2.1.trans h₂.2.1, HashMap.equiv_trans h₁.2.2 h₂.2.2⟩

theorem TargetDescription.equiv_trans {d₁ d₂ d₃ : TargetDescription T} (h₁ : d₁ ≈ d₂)
    (h₂ : d₂ ≈ d₃) : d₁ ≈ d₃ :=
  ⟨h₁.1.trans h₂.1, HashMap.equiv_trans h₁.2.1 h₂.2.1, HashMap.equiv_trans h₁.2.2 h₂.2.2⟩

theorem Delegation.equiv_trans {d₁ d₂ d₃ : Delegation T} (h₁ : d₁ ≈ d₂) (h₂ : d₂ ≈ d₃) :
    d₁ ≈ d₃ :=
  ⟨h₁.1.trans h₂.1, h₁.2.1.trans h₂.2.1, h₁.2.2.1.trans h₂.2.2.1,
    HashSet.equiv_trans h₁.2.2.2.1 h₂.2.2.2.1, HashSet.equiv_trans h₁.2.2.2.2 h₂.2.2.2.2⟩

theorem Delegation.forall₂_equiv_trans {l₁ l₂ l₃ : List (Delegation T)}
    (h₁ : List.Forall₂ (· ≈ ·) l₁ l₂) (h₂ : List.Forall₂ (· ≈ ·) l₂ l₃) :
    List.Forall₂ (· ≈ ·) l₁ l₃ := by
  induction h₁ generalizing l₃ with
  | nil => exact h₂
  | cons h _ ih =>
    cases h₂ with
    | cons h' t' => exact .cons (Delegation.equiv_trans h h') (ih t')

theorem RootMetadata.equiv_symm {m₁ m₂ : RootMetadata T} (h : m₁ ≈ m₂) : m₂ ≈ m₁ := by
  obtain ⟨hv, he, hc, hk, h₁, h₂, h₃, h₄⟩ := h
  exact ⟨hv.symm, he.symm, hc.symm, HashMap.equiv_symm hk, RoleDefinition.equiv_symm h₁,
    RoleDefinition.equiv_symm h₂, RoleDefinition.equiv_symm h₃, RoleDefinition.equiv_symm h₄⟩

theorem RootMetadata.equiv_trans {m₁ m₂ m₃ : RootMetadata T} (h : m₁ ≈ m₂) (h' : m₂ ≈ m₃) :
    m₁ ≈ m₃ := by
  obtain ⟨hv, he, hc, hk, h₁, h₂, h₃, h₄⟩ := h
  obtain ⟨hv', he', hc', hk', h₁', h₂', h₃', h₄'⟩ := h'
  exact ⟨hv.trans hv', he.trans he', hc.trans hc', HashMap.equiv_trans hk hk',
    RoleDefinition.equiv_trans h₁ h₁', RoleDefinition.equiv_trans h₂ h₂',
    RoleDefinition.equiv_trans h₃ h₃', RoleDefinition.equiv_trans h₄ h₄'⟩

theorem TimestampMetadata.equiv_symm {m₁ m₂ : TimestampMetadata T} (h : m₁ ≈ m₂) : m₂ ≈ m₁ :=
  ⟨h.1.symm, h.2.1.symm, MetadataDescription.equiv_symm h.2.2⟩

theorem TimestampMetadata.equiv_trans {m₁ m₂ m₃ : TimestampMetadata T} (h₁ : m₁ ≈ m₂)
    (h₂ : m₂ ≈ m₃) : m₁ ≈ m₃ :=
  ⟨h₁.1.trans h₂.1, h₁.2.1.trans h₂.2.1, MetadataDescription.equiv_trans h₁.2.2 h₂.2.2⟩

theorem SnapshotMetadata.equiv_symm {m₁ m₂ : SnapshotMetadata T} (h : m₁ ≈ m₂) : m₂ ≈ m₁ :=
  ⟨h.1.symm, h.2.1.symm, HashMap.rel_symm MetadataDescription.equiv_symm h.2.2⟩

theorem SnapshotMetadata.equiv_trans {m₁ m₂ m₃ : SnapshotMetadata T} (h₁ : m₁ ≈ m₂)
    (h₂ : m₂ ≈ m₃) : m₁ ≈ m₃ :=
  ⟨h₁.1.trans h₂.1, h₁.2.1.trans h₂.2.1,
    HashMap.rel_trans (r := (· ≈ ·)) MetadataDescription.equiv_trans h₁.2.2 h₂.2.2⟩

end Equiv

/-- The same key pool and the same delegated roles, listed in any order. -/
def Delegations.EquivUpToOrder (d₁ d₂ : Delegations T) : Prop :=
  d₁.keys ≈ d₂.keys ∧ ∃ roles, roles.Perm d₁.roles ∧ List.Forall₂ (· ≈ ·) roles d₂.roles

/-- Equal targets metadata but for the order of the delegated roles. -/
def TargetsMetadata.EquivUpToOrder (m₁ m₂ : TargetsMetadata T) : Prop :=
  m₁.version = m₂.version ∧ m₁.expires = m₂.expires ∧
    HashMap.Rel (· ≈ ·) m₁.targets m₂.targets ∧ m₁.delegations.EquivUpToOrder m₂.delegations

/-- Permuting the roles on one side and matching them up on the other commute, so
equality up to order is symmetric and transitive. -/
theorem Delegations.EquivUpToOrder.symm {d₁ d₂ : Delegations T} (h : d₁.EquivUpToOrder d₂) :
    d₂.EquivUpToOrder d₁ := by
  obtain ⟨hk, roles, hp, hf⟩ := h
  obtain ⟨w, hw, hp'⟩ := List.perm_comp_forall₂ hp.symm hf
  exact ⟨HashMap.equiv_symm hk, w, hp', Delegation.forall₂_equiv_symm hw⟩

theorem Delegations.EquivUpToOrder.trans {d₁ d₂ d₃ : Delegations T} (h₁ : d₁.EquivUpToOrder d₂)
    (h₂ : d₂.EquivUpToOrder d₃) : d₁.EquivUpToOrder d₃ := by
  obtain ⟨hk, roles₁, hp₁, hf₁⟩ := h₁
  obtain ⟨hk', roles₂, hp₂, hf₂⟩ := h₂
  obtain ⟨w, hw, hpw⟩ := List.perm_comp_forall₂ hp₂.symm hf₂
  obtain ⟨v, hv, hpv⟩ := List.perm_comp_forall₂ hpw.symm
    (Delegation.forall₂_equiv_symm (Delegation.forall₂_equiv_trans hf₁ hw))
  exact ⟨HashMap.equiv_trans hk hk', v, hpv.trans hp₁, Delegation.forall₂_equiv_symm hv⟩

/-- Roles equal one by one have the same names in the same order. -/
theorem Delegation.map_name_of_forall₂ {l₁ l₂ : List (Delegation T)}
    (h : List.Forall₂ (· ≈ ·) l₁ l₂) : l₁.map (·.name) = l₂.map (·.name) := by
  induction h with
  | nil => rfl
  | cons hab _ ih => rw [List.map_cons, List.map_cons, hab.1, ih]

theorem TargetsMetadata.equivUpToOrder_of_equiv {m₁ m₂ : TargetsMetadata T} (h : m₁ ≈ m₂) :
    m₁.EquivUpToOrder m₂ :=
  ⟨h.1, h.2.1, h.2.2.1, h.2.2.2.1, _, List.Perm.refl _, h.2.2.2.2⟩

theorem TargetsMetadata.EquivUpToOrder.symm {m₁ m₂ : TargetsMetadata T}
    (h : m₁.EquivUpToOrder m₂) : m₂.EquivUpToOrder m₁ :=
  ⟨h.1.symm, h.2.1.symm, HashMap.rel_symm TargetDescription.equiv_symm h.2.2.1, h.2.2.2.symm⟩

theorem TargetsMetadata.EquivUpToOrder.trans {m₁ m₂ m₃ : TargetsMetadata T}
    (h₁ : m₁.EquivUpToOrder m₂) (h₂ : m₂.EquivUpToOrder m₃) : m₁.EquivUpToOrder m₃ :=
  ⟨h₁.1.trans h₂.1, h₁.2.1.trans h₂.2.1,
    HashMap.rel_trans (r := (· ≈ ·)) TargetDescription.equiv_trans h₁.2.2.1 h₂.2.2.1, h₁.2.2.2.trans h₂.2.2.2⟩

end Metadata

end RustTuf
