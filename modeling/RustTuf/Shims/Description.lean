import RustTuf.Serde.Map
import RustTuf.Metadata.Checks

/-! `shims::TargetDescription` and `shims::MetadataDescription<M>`, the descriptions of a
target and of a metadata file. Their hashes, and a target's custom fields, are held in a
`BTreeMap` that `from` collects from the in-memory `HashMap` and `try_from` collects back.
The objects are read with `serde`'s own map decoding, so a hash algorithm or a custom
field written twice keeps its later value. Between a shim and its JSON object nothing is
lost: each shim comes back exactly from what it writes. -/

namespace RustTuf.Shims

open Metadata Serde

variable {T : Types}

/-- `shims::TargetDescription`. -/
structure TargetDescription (T : Types) where
  length : UInt64
  hashes : BTreeMap T.HashAlgorithm T.HashValue
  custom : BTreeMap RStr T.Value

/-- `shims::MetadataDescription<M>`. -/
structure MetadataDescription (T : Types) where
  version : UInt32
  length : Option USize
  hashes : BTreeMap T.HashAlgorithm T.HashValue

/-- `From<&metadata::TargetDescription>`. -/
def TargetDescription.from (description : Metadata.TargetDescription T) : TargetDescription T :=
  ⟨description.length, BTreeMap.collect description.hashes.entries,
    BTreeMap.collect description.custom.entries⟩

/-- `TryFrom<TargetDescription> for metadata::TargetDescription`. -/
def TargetDescription.tryFrom (V : Checks T) (description : TargetDescription T) :
    Except (Error T) (Metadata.TargetDescription T) :=
  V.newTargetDescription description.length (HashMap.collect description.hashes.entries)
    (HashMap.collect description.custom.entries)

/-- `From<&metadata::MetadataDescription<M>>`. -/
def MetadataDescription.from (description : Metadata.MetadataDescription T) :
    MetadataDescription T :=
  ⟨description.version, description.length, BTreeMap.collect description.hashes.entries⟩

/-- `TryFrom<MetadataDescription<M>> for metadata::MetadataDescription<M>`, with `M::ROLE`
as `role`. -/
def MetadataDescription.tryFrom (V : Checks T) (role : Role) (description : MetadataDescription T) :
    Except (Error T) (Metadata.MetadataDescription T) :=
  V.newMetadataDescription role description.version description.length
    (HashMap.collect description.hashes.entries)

/-! ### JSON objects -/

/-- The JSON object of a `TargetDescription`; `custom` is absent when empty. -/
structure Wire.TargetDescription (T : Types) where
  length : UInt64
  hashes : List (T.HashAlgorithm × T.HashValue)
  custom : Option (List (RStr × T.Value))

/-- The JSON object of a `MetadataDescription<M>`; `length` and `hashes` are absent when
`None` and empty. -/
structure Wire.MetadataDescription (T : Types) where
  version : UInt32
  length : Option USize
  hashes : Option (List (T.HashAlgorithm × T.HashValue))

/-- The derived `Serialize` of `TargetDescription`. -/
def TargetDescription.serialize (description : TargetDescription T) : Wire.TargetDescription T :=
  ⟨description.length, description.hashes.entries, serializeSkipEmpty description.custom⟩

/-- The derived `Deserialize` of `TargetDescription`. -/
def TargetDescription.deserialize (w : Wire.TargetDescription T) :
    Except (DeError T) (TargetDescription T) := do
  let hashes ← deserializeBTreeMap (w.hashes.map .ok)
  let custom ← deserializeOrDefault w.custom
  pure ⟨w.length, hashes, custom⟩

/-- The derived `Serialize` of `MetadataDescription<M>`. -/
def MetadataDescription.serialize (description : MetadataDescription T) :
    Wire.MetadataDescription T :=
  ⟨description.version, description.length, serializeSkipEmpty description.hashes⟩

/-- The derived `Deserialize` of `MetadataDescription<M>`. -/
def MetadataDescription.deserialize (w : Wire.MetadataDescription T) :
    Except (DeError T) (MetadataDescription T) := do
  let hashes ← deserializeOrDefault w.hashes
  pure ⟨w.version, w.length, hashes⟩

/-- Modelled from the spec: `metadata::TargetDescription` is written as its shim. -/
def encodeTargetDescription (description : Metadata.TargetDescription T) : Wire.TargetDescription T :=
  (TargetDescription.from description).serialize

/-- Modelled from the spec: `metadata::TargetDescription` is read as its shim and
converted. -/
def decodeTargetDescription (V : Checks T) (w : Wire.TargetDescription T) :
    Except (DeError T) (Metadata.TargetDescription T) := do
  let description ← TargetDescription.deserialize w
  (TargetDescription.tryFrom V description).mapError .conversion

/-- Modelled from the spec: `metadata::MetadataDescription<M>` is written as its shim. -/
def encodeMetadataDescription (description : Metadata.MetadataDescription T) :
    Wire.MetadataDescription T :=
  (MetadataDescription.from description).serialize

/-- Modelled from the spec: `metadata::MetadataDescription<M>` is read as its shim and
converted for the role `M::ROLE`. -/
def decodeMetadataDescription (V : Checks T) (role : Role) (w : Wire.MetadataDescription T) :
    Except (DeError T) (Metadata.MetadataDescription T) := do
  let description ← MetadataDescription.deserialize w
  (MetadataDescription.tryFrom V role description).mapError .conversion

/-! ### Round trip -/

namespace TargetDescription

@[simp] theorem deserialize_serialize (d : TargetDescription T) :
    TargetDescription.deserialize d.serialize = .ok d := by
  simp [serialize, deserialize]

theorem from_congr {d₁ d₂ : Metadata.TargetDescription T} (h : d₁ ≈ d₂) :
    TargetDescription.from d₁ = TargetDescription.from d₂ := by
  simp only [TargetDescription.from, h.1, BTreeMap.collect_congr h.2.1, BTreeMap.collect_congr h.2.2]

theorem encode_congr {d₁ d₂ : Metadata.TargetDescription T} (h : d₁ ≈ d₂) :
    encodeTargetDescription d₁ = encodeTargetDescription d₂ := by
  rw [encodeTargetDescription, encodeTargetDescription, from_congr h]

/-- A target description its constructor accepts comes back from its encoding. -/
theorem decode_encode (V : Checks T) {d : Metadata.TargetDescription T}
    (hv : V.targetDescription d = none) :
    ∃ d', decodeTargetDescription V (encodeTargetDescription d) = .ok d' ∧ d' ≈ d := by
  have hd : (⟨d.length, HashMap.collect (BTreeMap.collect d.hashes.entries).entries,
      HashMap.collect (BTreeMap.collect d.custom.entries).entries⟩ : Metadata.TargetDescription T) ≈ d :=
    ⟨rfl, HashMap.collect_entries_collect _, HashMap.collect_entries_collect _⟩
  refine ⟨_, ?_, hd⟩
  simp only [decodeTargetDescription, encodeTargetDescription, deserialize_serialize,
    except_ok_bind, tryFrom, TargetDescription.from, Checks.newTargetDescription]
  rw [construct_of_none ((V.targetDescription_congr _ _ hd).trans hv)]
  rfl

end TargetDescription

namespace MetadataDescription

@[simp] theorem deserialize_serialize (d : MetadataDescription T) :
    MetadataDescription.deserialize d.serialize = .ok d := by
  simp [serialize, deserialize]

theorem from_congr {d₁ d₂ : Metadata.MetadataDescription T} (h : d₁ ≈ d₂) :
    MetadataDescription.from d₁ = MetadataDescription.from d₂ := by
  simp only [MetadataDescription.from, h.1, h.2.1, BTreeMap.collect_congr h.2.2]

theorem encode_congr {d₁ d₂ : Metadata.MetadataDescription T} (h : d₁ ≈ d₂) :
    encodeMetadataDescription d₁ = encodeMetadataDescription d₂ := by
  rw [encodeMetadataDescription, encodeMetadataDescription, from_congr h]

/-- A metadata description its constructor accepts for the role comes back from its
encoding. -/
theorem decode_encode (V : Checks T) (role : Role) {d : Metadata.MetadataDescription T}
    (hv : V.metadataDescription role d = none) :
    ∃ d', decodeMetadataDescription V role (encodeMetadataDescription d) = .ok d' ∧ d' ≈ d := by
  have hd : (⟨d.version, d.length, HashMap.collect (BTreeMap.collect d.hashes.entries).entries⟩ :
      Metadata.MetadataDescription T) ≈ d :=
    ⟨rfl, rfl, HashMap.collect_entries_collect _⟩
  refine ⟨_, ?_, hd⟩
  simp only [decodeMetadataDescription, encodeMetadataDescription, deserialize_serialize,
    except_ok_bind, tryFrom, MetadataDescription.from, Checks.newMetadataDescription]
  rw [construct_of_none ((V.metadataDescription_congr role _ _ hd).trans hv)]
  rfl

end MetadataDescription

/-! ### What decoding returns

Every entry of a description's maps is read, so decoding one is a function of the
document followed by the constructor's check; a hash algorithm or a custom key written
twice keeps its last value. -/

theorem decodeTargetDescription_eq (V : Checks T) (w : Wire.TargetDescription T) :
    decodeTargetDescription V w =
      (V.newTargetDescription w.length (HashMap.collect (BTreeMap.collect w.hashes).entries)
        (HashMap.collect (BTreeMap.collect (w.custom.getD [])).entries)).mapError .conversion := by
  simp only [decodeTargetDescription, TargetDescription.deserialize, deserializeBTreeMap_map_ok,
    deserializeOrDefault_eq, except_ok_bind, except_pure, TargetDescription.tryFrom]

theorem decodeMetadataDescription_eq (V : Checks T) (role : Role) (w : Wire.MetadataDescription T) :
    decodeMetadataDescription V role w =
      (V.newMetadataDescription role w.version w.length
        (HashMap.collect (BTreeMap.collect (w.hashes.getD [])).entries)).mapError .conversion := by
  simp only [decodeMetadataDescription, MetadataDescription.deserialize, deserializeOrDefault_eq,
    except_ok_bind, except_pure, MetadataDescription.tryFrom]

/-- A decoded target description passed `TargetDescription::new`. -/
theorem TargetDescription.valid_of_decode {V : Checks T} {w : Wire.TargetDescription T}
    {d : Metadata.TargetDescription T} (h : decodeTargetDescription V w = .ok d) :
    V.targetDescription d = none := by
  rw [decodeTargetDescription_eq, except_mapError_eq_ok, Checks.newTargetDescription,
    construct_eq_ok_iff] at h
  obtain ⟨hv, rfl⟩ := h
  exact hv

/-- A decoded metadata description passed `MetadataDescription::new` for its role. -/
theorem MetadataDescription.valid_of_decode {V : Checks T} {role : Role}
    {w : Wire.MetadataDescription T} {d : Metadata.MetadataDescription T}
    (h : decodeMetadataDescription V role w = .ok d) : V.metadataDescription role d = none := by
  rw [decodeMetadataDescription_eq, except_mapError_eq_ok, Checks.newMetadataDescription,
    construct_eq_ok_iff] at h
  obtain ⟨hv, rfl⟩ := h
  exact hv

/-- A decoded description keeps the length, and the version, as written, and holds for
each hash algorithm, and each custom key, the value of its last entry in the document. -/
theorem decode_descriptions (V : Checks T) :
    (∀ w d, decodeTargetDescription V w = .ok d → d.length = w.length ∧
      (∀ alg, d.hashes.get? alg = w.hashes.reverse.lookup alg) ∧
      ∀ k, d.custom.get? k = (w.custom.getD []).reverse.lookup k) ∧
    (∀ role w d, decodeMetadataDescription V role w = .ok d →
      d.version = w.version ∧ d.length = w.length ∧
      ∀ alg, d.hashes.get? alg = (w.hashes.getD []).reverse.lookup alg) := by
  refine ⟨fun w d h => ?_, fun role w d h => ?_⟩
  · rw [decodeTargetDescription_eq, except_mapError_eq_ok, Checks.newTargetDescription,
      construct_eq_ok_iff] at h
    obtain ⟨-, rfl⟩ := h
    refine ⟨rfl, HashMap.get?_collect_entries_collect _, fun k => ?_⟩
    rw [HashMap.get?_collect_entries_collect, lawful_beq_subsingleton instBEqOfDecidableEq
      List.instBEq]
  · rw [decodeMetadataDescription_eq, except_mapError_eq_ok, Checks.newMetadataDescription,
      construct_eq_ok_iff] at h
    obtain ⟨-, rfl⟩ := h
    exact ⟨rfl, rfl, HashMap.get?_collect_entries_collect _⟩

end RustTuf.Shims
