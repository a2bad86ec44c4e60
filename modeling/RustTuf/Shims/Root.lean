import RustTuf.Shims.Common
import RustTuf.Shims.PublicKey
import RustTuf.Shims.RoleDefinition

/-! `shims::RootMetadata`, the root of trust. Encoding collects the key pool into a
`BTreeMap`, written in key order, each key as its `shims::PublicKey`, and writes each of
the four role definitions through its shim. Decoding reads the key pool with
`deserialize_reject_duplicates`, each key read back from its shim, converts the role
definitions, checks the tag and the spec version, keeps only the keys stored under their
own key id, and parses the expiry. A valid root whose keys are all stored under
their own ids comes back equal, its expiry to the second. -/

namespace RustTuf.Shims

open Metadata Serde Chrono

variable {T : Types}

/-- `shims::RoleDefinitions`. -/
structure RoleDefinitions (T : Types) where
  root : Metadata.RoleDefinition T
  snapshot : Metadata.RoleDefinition T
  targets : Metadata.RoleDefinition T
  timestamp : Metadata.RoleDefinition T

/-- `shims::RootMetadata`. -/
structure RootMetadata (T : Types) where
  typ : Role
  specVersion : RStr
  version : UInt32
  consistentSnapshot : Bool
  expires : RStr
  keys : BTreeMap T.KeyId T.PublicKey
  roles : RoleDefinitions T

/-- `RootMetadata::from`, which always returns `Ok`. -/
def RootMetadata.from (meta : Metadata.RootMetadata T) : RootMetadata T :=
  ⟨.root, Shims.specVersion, meta.version, meta.consistentSnapshot, formatDatetime meta.expires,
    BTreeMap.collect meta.keys.entries, ⟨meta.root, meta.snapshot, meta.targets, meta.timestamp⟩⟩

/-- The key pool `try_into` passes on: the keys stored under their own key id. -/
def keysWithCorrectKeyId (keys : BTreeMap T.KeyId T.PublicKey) : HashMap T.KeyId T.PublicKey :=
  HashMap.collect (keys.entries.filter fun e => e.1 = T.keyId e.2)

/-- `RootMetadata::try_into`. -/
def RootMetadata.tryInto (V : Checks T) (self : RootMetadata T) :
    Except (Error T) (Metadata.RootMetadata T) := do
  checkHeader .root "root" self.typ self.specVersion
  let expires ← parseDatetime self.expires
  V.newRootMetadata self.version expires self.consistentSnapshot (keysWithCorrectKeyId self.keys)
    self.roles.root self.roles.snapshot self.roles.targets self.roles.timestamp

/-! ### JSON objects -/

/-- The JSON object of `RoleDefinitions`: each role definition written as its shim. -/
structure Wire.RoleDefinitions (T : Types) where
  root : RoleDefinition T
  snapshot : RoleDefinition T
  targets : RoleDefinition T
  timestamp : RoleDefinition T

/-- The JSON object of a `RootMetadata`, the key pool's entries in document order, each
key as its shim. -/
structure Wire.RootMetadata (T : Types) where
  typ : Role
  specVersion : RStr
  version : UInt32
  consistentSnapshot : Bool
  expires : RStr
  keys : List (T.KeyId × PublicKey T)
  roles : Wire.RoleDefinitions T

/-- The derived `Serialize` of `RoleDefinitions`. -/
def RoleDefinitions.serialize (roles : RoleDefinitions T) : Wire.RoleDefinitions T :=
  ⟨encodeRoleDefinition roles.root, encodeRoleDefinition roles.snapshot,
    encodeRoleDefinition roles.targets, encodeRoleDefinition roles.timestamp⟩

/-- The derived `Deserialize` of `RoleDefinitions`: each role definition converted for
its own role. -/
def RoleDefinitions.deserialize (V : Checks T) (w : Wire.RoleDefinitions T) :
    Except (DeError T) (RoleDefinitions T) := do
  let root ← decodeRoleDefinition V .root w.root
  let snapshot ← decodeRoleDefinition V .snapshot w.snapshot
  let targets ← decodeRoleDefinition V .targets w.targets
  let timestamp ← decodeRoleDefinition V .timestamp w.timestamp
  pure ⟨root, snapshot, targets, timestamp⟩

/-- The derived `Serialize` of `RootMetadata`, each key written as its shim. -/
def RootMetadata.serialize (meta : RootMetadata T) : Wire.RootMetadata T :=
  ⟨meta.typ, meta.specVersion, meta.version, meta.consistentSnapshot, meta.expires,
    meta.keys.entries.map fun e => (e.1, encodePublicKey e.2), meta.roles.serialize⟩

/-- The derived `Deserialize` of `RootMetadata`, the key pool read with
`deserialize_reject_duplicates`, each key read from its shim. -/
def RootMetadata.deserialize (V : Checks T) (w : Wire.RootMetadata T) :
    Except (DeError T) (RootMetadata T) := do
  let keys ← deserializeRejectDuplicates (MapAccess.ofEntries decodePublicKey w.keys)
  let roles ← RoleDefinitions.deserialize V w.roles
  pure ⟨w.typ, w.specVersion, w.version, w.consistentSnapshot, w.expires, keys, roles⟩

/-- Modelled from the spec: a root metadata value is written as its shim. -/
def encodeRoot (meta : Metadata.RootMetadata T) : Wire.RootMetadata T :=
  (RootMetadata.from meta).serialize

/-- Modelled from the spec: a root metadata document is read as its shim and converted by
`try_into`, a conversion error becoming the deserializer's. -/
def decodeRoot (V : Checks T) (w : Wire.RootMetadata T) :
    Except (DeError T) (Metadata.RootMetadata T) := do
  let meta ← RootMetadata.deserialize V w
  (meta.tryInto V).mapError .conversion

/-! ### The key pool -/

/-- Past the tag, the spec version and the expiry, `try_into` is `RootMetadata::new` on
the filtered pool and the role definitions as read. -/
theorem RootMetadata.tryInto_of_accepted (V : Checks T) {w : RootMetadata T} {t : DateTime}
    (hh : checkHeader (T := T) .root "root" w.typ w.specVersion = .ok ())
    (ht : parseDatetime (T := T) w.expires = .ok t) :
    w.tryInto V = V.newRootMetadata w.version t w.consistentSnapshot (keysWithCorrectKeyId w.keys)
      w.roles.root w.roles.snapshot w.roles.targets w.roles.timestamp := by
  simp only [RootMetadata.tryInto, hh, ht, except_ok_bind]

/-- The filtered pool holds a key under an id exactly when the decoded pool does and the
id is the key's own. -/
theorem get?_keysWithCorrectKeyId (keys : BTreeMap T.KeyId T.PublicKey) (id : T.KeyId)
    (k : T.PublicKey) :
    (keysWithCorrectKeyId keys).get? id = some k ↔ keys.get? id = some k ∧ id = T.keyId k := by
  have hn : ((keys.entries.filter fun e => e.1 = T.keyId e.2).map Prod.fst).Nodup :=
    keys.nodup_keys.sublist ((List.filter_sublist _).map _)
  rw [keysWithCorrectKeyId, ← HashMap.mem_iff_get?, HashMap.entries_collect hn, List.mem_filter,
    BTreeMap.mem_iff_get?, decide_eq_true_iff]

/-- Once the tag, the spec version and the expiry pass, `try_into` gives `RootMetadata::new`
the sub-map of the decoded pool whose keys are stored under their own key id, and nothing
else. A key id being a function of the key, no public key is in it under two ids. -/
theorem rootMetadata_tryInto (V : Checks T) (w : RootMetadata T) {t : DateTime}
    (hh : checkHeader (T := T) .root "root" w.typ w.specVersion = .ok ())
    (ht : parseDatetime (T := T) w.expires = .ok t) :
    w.tryInto V = V.newRootMetadata w.version t w.consistentSnapshot (keysWithCorrectKeyId w.keys)
      w.roles.root w.roles.snapshot w.roles.targets w.roles.timestamp ∧
    (∀ id k, (keysWithCorrectKeyId w.keys).get? id = some k ↔
      w.keys.get? id = some k ∧ id = T.keyId k) ∧
    (∀ id₁ id₂ k, (keysWithCorrectKeyId w.keys).get? id₁ = some k →
      (keysWithCorrectKeyId w.keys).get? id₂ = some k → id₁ = id₂) := by
  refine ⟨RootMetadata.tryInto_of_accepted V hh ht, get?_keysWithCorrectKeyId w.keys,
    fun id₁ id₂ k h₁ h₂ => ?_⟩
  rw [((get?_keysWithCorrectKeyId w.keys id₁ k).mp h₁).2,
    ((get?_keysWithCorrectKeyId w.keys id₂ k).mp h₂).2]

/-! ### Round trip -/

/-- A pool whose keys are all stored under their own ids loses none of them. -/
theorem keysWithCorrectKeyId_collect {keys : HashMap T.KeyId T.PublicKey}
    (h : ∀ e ∈ keys.entries, T.keyId e.2 = e.1) :
    keysWithCorrectKeyId (BTreeMap.collect keys.entries) ≈ keys := by
  have hf : (BTreeMap.collect keys.entries).entries.filter (fun e => e.1 = T.keyId e.2) =
      (BTreeMap.collect keys.entries).entries :=
    List.filter_eq_self.mpr fun e he => by
      simp [h e ((BTreeMap.entries_collect_perm keys.nodup).mem_iff.mp he)]
  rw [keysWithCorrectKeyId, hf]
  exact HashMap.collect_entries_collect keys

theorem RoleDefinitions.deserialize_serialize (V : Checks T) (roles : RoleDefinitions T)
    (h₁ : V.roleDefinition .root roles.root = none)
    (h₂ : V.roleDefinition .snapshot roles.snapshot = none)
    (h₃ : V.roleDefinition .targets roles.targets = none)
    (h₄ : V.roleDefinition .timestamp roles.timestamp = none) :
    ∃ roles', RoleDefinitions.deserialize V roles.serialize = .ok roles' ∧
      roles'.root ≈ roles.root ∧ roles'.snapshot ≈ roles.snapshot ∧
      roles'.targets ≈ roles.targets ∧ roles'.timestamp ≈ roles.timestamp := by
  obtain ⟨r₁, e₁, q₁⟩ := RoleDefinition.decode_encode V .root h₁
  obtain ⟨r₂, e₂, q₂⟩ := RoleDefinition.decode_encode V .snapshot h₂
  obtain ⟨r₃, e₃, q₃⟩ := RoleDefinition.decode_encode V .targets h₃
  obtain ⟨r₄, e₄, q₄⟩ := RoleDefinition.decode_encode V .timestamp h₄
  exact ⟨⟨r₁, r₂, r₃, r₄⟩, by simp [deserialize, serialize, e₁, e₂, e₃, e₄], q₁, q₂, q₃, q₄⟩

/-- A valid root whose keys are stored under their own ids comes back from its encoding,
its expiry cut to the second. -/
theorem decodeRoot_encodeRoot_truncSubsec (V : Checks T) {m : Metadata.RootMetadata T}
    (hv : V.ValidRoot m) (hy : 0 ≤ m.expires.year ∧ m.expires.year ≤ 9999)
    (hk : ∀ e ∈ m.keys.entries, T.keyId e.2 = e.1) :
    ∃ m', decodeRoot V (encodeRoot m) = .ok m' ∧ m' ≈ { m with expires := m.expires.truncSubsec } := by
  obtain ⟨hroot, h₁, h₂, h₃, h₄⟩ := hv
  obtain ⟨roles', hr, q₁, q₂, q₃, q₄⟩ := RoleDefinitions.deserialize_serialize V
    ⟨m.root, m.snapshot, m.targets, m.timestamp⟩ h₁ h₂ h₃ h₄
  have hm : (⟨m.version, m.expires.truncSubsec, m.consistentSnapshot,
      keysWithCorrectKeyId (BTreeMap.collect m.keys.entries), roles'.root, roles'.snapshot,
      roles'.targets, roles'.timestamp⟩ : Metadata.RootMetadata T) ≈
        { m with expires := m.expires.truncSubsec } :=
    ⟨rfl, rfl, rfl, keysWithCorrectKeyId_collect hk, q₁, q₂, q₃, q₄⟩
  refine ⟨_, ?_, hm⟩
  simp only [decodeRoot, encodeRoot, RootMetadata.serialize, RootMetadata.deserialize,
    RootMetadata.from, ofEntries_encodePublicKey, deserializeRejectDuplicates_entries, hr,
    except_ok_bind, except_pure,
    RootMetadata.tryInto, checkHeader_specVersion, parseDatetime_formatDatetime_of_mem hy,
    Checks.newRootMetadata]
  rw [construct_of_none ((V.root_congr _ _ hm).trans ((V.root_truncSubsec m).trans hroot))]
  rfl

/-- Every valid root whose expiry has no sub-second part and a four-digit year, and whose
keys are stored under their own ids, comes back from its encoding equal. -/
theorem decodeRoot_encodeRoot (V : Checks T) {m : Metadata.RootMetadata T} (hv : V.ValidRoot m)
    (hn : m.expires.nanosecond = 0) (hy : 0 ≤ m.expires.year ∧ m.expires.year ≤ 9999)
    (hk : ∀ e ∈ m.keys.entries, T.keyId e.2 = e.1) :
    ∃ m', decodeRoot V (encodeRoot m) = .ok m' ∧ m' ≈ m := by
  obtain ⟨m', h, hm⟩ := decodeRoot_encodeRoot_truncSubsec V hv hy hk
  rw [DateTime.truncSubsec_eq_self hn] at hm
  exact ⟨m', h, hm⟩

/-- A root with one key, listed by each of the four roles. -/
def sampleRoot : Metadata.RootMetadata Types.nat :=
  ⟨1, ⟨⟨2030, 1, 1, by decide, by decide⟩, ⟨0, 0, by decide, by decide⟩⟩, false,
    ⟨[(7, 7)], by decide⟩, ⟨1, ⟨[7], by decide⟩⟩, ⟨1, ⟨[7], by decide⟩⟩, ⟨1, ⟨[7], by decide⟩⟩,
    ⟨1, ⟨[7], by decide⟩⟩⟩

theorem decodeRoot_encodeRoot_sampleRoot :
    (Checks.rustTuf Types.nat).ValidRoot sampleRoot ∧ sampleRoot.expires.nanosecond = 0 ∧
      (0 ≤ sampleRoot.expires.year ∧ sampleRoot.expires.year ≤ 9999) ∧
      (∀ e ∈ sampleRoot.keys.entries, Types.nat.keyId e.2 = e.1) ∧
      ∃ m', decodeRoot (Checks.rustTuf Types.nat) (encodeRoot sampleRoot) = .ok m' ∧
        m' ≈ sampleRoot :=
  ⟨⟨rfl, rfl, rfl, rfl, rfl⟩, rfl, by decide, by decide,
    decodeRoot_encodeRoot (Checks.rustTuf Types.nat) ⟨rfl, rfl, rfl, rfl, rfl⟩ rfl (by decide)
      (by decide)⟩

/-- The shim of `sampleRoot` with a second key, `2`, listed under the id `1` that is not
its own, as in a root written by TUF 0.9. -/
def legacyKeyRoot : RootMetadata Types.nat :=
  { RootMetadata.from sampleRoot with keys := ⟨[(1, 2), (7, 7)], by decide⟩ }

theorem rootMetadata_tryInto_legacyKeyRoot :
    checkHeader (T := Types.nat) .root "root" legacyKeyRoot.typ legacyKeyRoot.specVersion = .ok () ∧
    parseDatetime (T := Types.nat) legacyKeyRoot.expires = .ok sampleRoot.expires.truncSubsec ∧
    legacyKeyRoot.tryInto (Checks.rustTuf Types.nat) = (Checks.rustTuf Types.nat).newRootMetadata
      legacyKeyRoot.version sampleRoot.expires.truncSubsec legacyKeyRoot.consistentSnapshot
      (keysWithCorrectKeyId legacyKeyRoot.keys) legacyKeyRoot.roles.root
      legacyKeyRoot.roles.snapshot legacyKeyRoot.roles.targets legacyKeyRoot.roles.timestamp ∧
    (∀ id k, (keysWithCorrectKeyId legacyKeyRoot.keys).get? id = some k ↔
      legacyKeyRoot.keys.get? id = some k ∧ id = Types.nat.keyId k) ∧
    (∀ id₁ id₂ k, (keysWithCorrectKeyId legacyKeyRoot.keys).get? id₁ = some k →
      (keysWithCorrectKeyId legacyKeyRoot.keys).get? id₂ = some k → id₁ = id₂) :=
  ⟨rfl, parseDatetime_formatDatetime_of_mem (by decide),
    rootMetadata_tryInto (Checks.rustTuf Types.nat) legacyKeyRoot rfl
      (parseDatetime_formatDatetime_of_mem (by decide))⟩

/-- The key listed under another id is dropped; the other is kept. -/
example : (keysWithCorrectKeyId legacyKeyRoot.keys).entries = [(7, 7)] := by decide

/-! ### What decoding returns -/

theorem RoleDefinitions.deserialize_eq_ok {V : Checks T} {w : Wire.RoleDefinitions T}
    {roles : RoleDefinitions T} (h : RoleDefinitions.deserialize V w = .ok roles) :
    decodeRoleDefinition V .root w.root = .ok roles.root ∧
      decodeRoleDefinition V .snapshot w.snapshot = .ok roles.snapshot ∧
      decodeRoleDefinition V .targets w.targets = .ok roles.targets ∧
      decodeRoleDefinition V .timestamp w.timestamp = .ok roles.timestamp := by
  simp only [RoleDefinitions.deserialize, except_bind_eq_ok, except_pure] at h
  obtain ⟨r₁, h₁, r₂, h₂, r₃, h₃, r₄, h₄, h⟩ := h
  cases h
  exact ⟨h₁, h₂, h₃, h₄⟩

/-- What a successful decoding of a root document went through: a key pool without a
repeated id whose keys all read, the four role definitions, the tag and spec version, the
expiry, and `RootMetadata::new` on the keys stored under their own id. -/
theorem decodeRoot_eq_ok {V : Checks T} {w : Wire.RootMetadata T} {m : Metadata.RootMetadata T}
    (h : decodeRoot V w = .ok m) :
    ∃ B roles t, deserializeRejectDuplicates (MapAccess.ofEntries decodePublicKey w.keys) = .ok B ∧
      RoleDefinitions.deserialize V w.roles = .ok roles ∧
      checkHeader (T := T) .root "root" w.typ w.specVersion = .ok () ∧
      parseDatetime (T := T) w.expires = .ok t ∧ V.root m = none ∧
      m = ⟨w.version, t, w.consistentSnapshot, keysWithCorrectKeyId B,
        roles.root, roles.snapshot, roles.targets, roles.timestamp⟩ := by
  simp only [decodeRoot, RootMetadata.deserialize, except_bind_eq_ok, except_pure,
    except_mapError_eq_ok] at h
  obtain ⟨meta, ⟨B, hB, roles, hr, hmeta⟩, ht⟩ := h
  cases hmeta
  simp only [RootMetadata.tryInto, except_bind_eq_ok, Checks.newRootMetadata,
    construct_eq_ok_iff] at ht
  obtain ⟨⟨⟩, hh, t, hp, hv, rfl⟩ := ht
  exact ⟨B, roles, t, hB, hr, hh, hp, hv, rfl⟩

/-- A decoded root document lists no key id twice and every key in it reads, and the
decoded pool holds exactly the document's keys that are listed under their own key id,
each as it reads. -/
theorem decodeRoot_keys {V : Checks T} {w : Wire.RootMetadata T} {m : Metadata.RootMetadata T}
    (h : decodeRoot V w = .ok m) :
    (w.keys.map Prod.fst).Nodup ∧ (∀ e ∈ w.keys, ∃ k, decodePublicKey e.2 = .ok k) ∧
      ∀ id k, m.keys.get? id = some k ↔
        (∃ d, (id, d) ∈ w.keys ∧ decodePublicKey d = .ok k) ∧ id = T.keyId k := by
  obtain ⟨B, roles, t, hB, -, -, -, -, rfl⟩ := decodeRoot_eq_ok h
  obtain ⟨hn, -, hmem, hall⟩ := deserializeRejectDuplicates_ofEntries_eq_ok hB
  refine ⟨hn, hall, fun id k => ?_⟩
  rw [get?_keysWithCorrectKeyId, ← BTreeMap.mem_iff_get?, hmem]

/-- A root document listing the key `2` under the id `1`, which is not its own. -/
def keyPoolDocument : Wire.RootMetadata Types.nat :=
  ⟨.root, RStr.lit "1.0", 1, false, RStr.lit "2030-01-01T00:00:00Z",
    [(7, encodePublicKey 7), (1, encodePublicKey 2)],
    ⟨⟨1, [7]⟩, ⟨1, [7]⟩, ⟨1, [7]⟩, ⟨1, [7]⟩⟩⟩

/-- The root it decodes to, the key listed under another id dropped. -/
def keyPoolRoot : Metadata.RootMetadata Types.nat :=
  ⟨1, ⟨⟨2030, 1, 1, by decide, by decide⟩, ⟨0, 0, by decide, by decide⟩⟩, false,
    ⟨[(7, 7)], by decide⟩, ⟨1, ⟨[7], by decide⟩⟩, ⟨1, ⟨[7], by decide⟩⟩, ⟨1, ⟨[7], by decide⟩⟩,
    ⟨1, ⟨[7], by decide⟩⟩⟩

theorem decodeRoot_keys_keyPoolDocument :
    decodeRoot (Checks.rustTuf Types.nat) keyPoolDocument = .ok keyPoolRoot ∧
      (keyPoolDocument.keys.map Prod.fst).Nodup ∧
      (∀ e ∈ keyPoolDocument.keys, ∃ k, decodePublicKey e.2 = .ok k) ∧
      ∀ id k, keyPoolRoot.keys.get? id = some k ↔
        (∃ d, (id, d) ∈ keyPoolDocument.keys ∧ decodePublicKey d = .ok k) ∧
          id = Types.nat.keyId k := by
  have h : decodeRoot (Checks.rustTuf Types.nat) keyPoolDocument = .ok keyPoolRoot := rfl
  exact ⟨h, decodeRoot_keys h⟩

/-- A decoded root passed every constructor it went through, and stores each key under
its own key id. -/
theorem RootMetadata.valid_of_decode {V : Checks T} {w : Wire.RootMetadata T}
    {m : Metadata.RootMetadata T} (h : decodeRoot V w = .ok m) :
    V.ValidRoot m ∧ ∀ e ∈ m.keys.entries, T.keyId e.2 = e.1 := by
  obtain ⟨B, roles, t, -, hr, -, -, hv, rfl⟩ := decodeRoot_eq_ok h
  obtain ⟨h₁, h₂, h₃, h₄⟩ := RoleDefinitions.deserialize_eq_ok hr
  refine ⟨⟨hv, (RoleDefinition.decode_eq_ok h₁).2.2.2, (RoleDefinition.decode_eq_ok h₂).2.2.2,
    (RoleDefinition.decode_eq_ok h₃).2.2.2, (RoleDefinition.decode_eq_ok h₄).2.2.2⟩,
    fun e he => ?_⟩
  exact ((get?_keysWithCorrectKeyId _ e.1 e.2).mp ((HashMap.mem_iff_get? _).mp he)).2.symm

/-- A decoded document is tagged `root`, with an accepted spec version. -/
theorem RootMetadata.header_of_decode {V : Checks T} {w : Wire.RootMetadata T}
    {m : Metadata.RootMetadata T} (h : decodeRoot V w = .ok m) :
    w.typ = .root ∧ validSpecVersion w.specVersion = true := by
  obtain ⟨-, -, -, -, -, hh, -⟩ := decodeRoot_eq_ok h
  exact checkHeader_eq_ok_iff.mp hh

/-! ### Canonical encoding -/

theorem encodeRoot_congr {m₁ m₂ : Metadata.RootMetadata T} (h : m₁ ≈ m₂) :
    encodeRoot m₁ = encodeRoot m₂ := by
  obtain ⟨hv, he, hc, hk, h₁, h₂, h₃, h₄⟩ := h
  simp only [encodeRoot, RootMetadata.from, RootMetadata.serialize, RoleDefinitions.serialize,
    encodeRoleDefinition, hv, he, hc, BTreeMap.collect_congr hk, RoleDefinition.from_congr h₁,
    RoleDefinition.from_congr h₂, RoleDefinition.from_congr h₃, RoleDefinition.from_congr h₄]

@[simp] theorem encodeRoot_truncSubsec (m : Metadata.RootMetadata T) :
    encodeRoot { m with expires := m.expires.truncSubsec } = encodeRoot m := by
  simp [encodeRoot, RootMetadata.from]

/-- The encoding lists the key pool in increasing key-id order, each key as its shim, and
each role's key ids in increasing order, each once. -/
theorem sorted_encodeRoot (m : Metadata.RootMetadata T) :
    m.keys.IsSortedList encodePublicKey (encodeRoot m).keys ∧
      m.root.keyIds.IsSortedList (encodeRoot m).roles.root.keyIds ∧
      m.snapshot.keyIds.IsSortedList (encodeRoot m).roles.snapshot.keyIds ∧
      m.targets.keyIds.IsSortedList (encodeRoot m).roles.targets.keyIds ∧
      m.timestamp.keyIds.IsSortedList (encodeRoot m).roles.timestamp.keyIds :=
  ⟨HashMap.isSortedList_collect m.keys encodePublicKey, RoleDefinition.sorted_from _,
    RoleDefinition.sorted_from _, RoleDefinition.sorted_from _, RoleDefinition.sorted_from _⟩

end RustTuf.Shims
