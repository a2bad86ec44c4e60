import RustTuf.Shims.Common
import RustTuf.Shims.Description

/-! `shims::TimestampMetadata`, which describes the one snapshot file under the fixed key
`snapshot.json`. Encoding writes the description through its shim; decoding converts it
for the snapshot role, checks the tag and the spec version, and parses the expiry. -/

namespace RustTuf.Shims

open Metadata Serde Chrono

variable {T : Types}

/-- `shims::TimestampMeta`, the object `{"snapshot.json": ...}`. -/
structure TimestampMeta (T : Types) where
  snapshot : Metadata.MetadataDescription T

/-- `shims::TimestampMetadata`. -/
structure TimestampMetadata (T : Types) where
  typ : Role
  specVersion : RStr
  version : UInt32
  expires : RStr
  meta : TimestampMeta T

/-- `TimestampMetadata::from`, which always returns `Ok`. -/
def TimestampMetadata.from (metadata : Metadata.TimestampMetadata T) : TimestampMetadata T :=
  ⟨.timestamp, Shims.specVersion, metadata.version, formatDatetime metadata.expires,
    ⟨metadata.snapshot⟩⟩

/-- `TimestampMetadata::try_into`. -/
def TimestampMetadata.tryInto (V : Checks T) (self : TimestampMetadata T) :
    Except (Error T) (Metadata.TimestampMetadata T) := do
  checkHeader .timestamp "timestamp" self.typ self.specVersion
  let expires ← parseDatetime self.expires
  V.newTimestampMetadata self.version expires self.meta.snapshot

/-! ### JSON objects -/

/-- The JSON object of `TimestampMeta`, its one field written as the description's shim. -/
structure Wire.TimestampMeta (T : Types) where
  snapshot : Wire.MetadataDescription T

/-- The JSON object of a `TimestampMetadata`. -/
structure Wire.TimestampMetadata (T : Types) where
  typ : Role
  specVersion : RStr
  version : UInt32
  expires : RStr
  meta : Wire.TimestampMeta T

/-- The derived `Serialize` of `TimestampMetadata`. -/
def TimestampMetadata.serialize (metadata : TimestampMetadata T) : Wire.TimestampMetadata T :=
  ⟨metadata.typ, metadata.specVersion, metadata.version, metadata.expires,
    ⟨encodeMetadataDescription metadata.meta.snapshot⟩⟩

/-- The derived `Deserialize` of `TimestampMetadata`, the description converted for the
snapshot role. -/
def TimestampMetadata.deserialize (V : Checks T) (w : Wire.TimestampMetadata T) :
    Except (DeError T) (TimestampMetadata T) := do
  let snapshot ← decodeMetadataDescription V .snapshot w.meta.snapshot
  pure ⟨w.typ, w.specVersion, w.version, w.expires, ⟨snapshot⟩⟩

/-- Modelled from the spec: a timestamp metadata value is written as its shim. -/
def encodeTimestamp (metadata : Metadata.TimestampMetadata T) : Wire.TimestampMetadata T :=
  (TimestampMetadata.from metadata).serialize

/-- Modelled from the spec: a timestamp metadata document is read as its shim and
converted by `try_into`. -/
def decodeTimestamp (V : Checks T) (w : Wire.TimestampMetadata T) :
    Except (DeError T) (Metadata.TimestampMetadata T) := do
  let metadata ← TimestampMetadata.deserialize V w
  (metadata.tryInto V).mapError .conversion

/-! ### Round trip -/

/-- A valid timestamp comes back from its encoding, its expiry cut to the second. -/
theorem decodeTimestamp_encodeTimestamp_truncSubsec (V : Checks T)
    {m : Metadata.TimestampMetadata T} (hv : V.ValidTimestamp m)
    (hy : 0 ≤ m.expires.year ∧ m.expires.year ≤ 9999) :
    ∃ m', decodeTimestamp V (encodeTimestamp m) = .ok m' ∧
      m' ≈ { m with expires := m.expires.truncSubsec } := by
  obtain ⟨d', hd, hdd⟩ := MetadataDescription.decode_encode V .snapshot hv.2
  have hm : (⟨m.version, m.expires.truncSubsec, d'⟩ : Metadata.TimestampMetadata T) ≈
      { m with expires := m.expires.truncSubsec } := ⟨rfl, rfl, hdd⟩
  refine ⟨_, ?_, hm⟩
  simp only [decodeTimestamp, encodeTimestamp, TimestampMetadata.serialize,
    TimestampMetadata.deserialize, TimestampMetadata.from, hd, except_ok_bind, except_pure,
    TimestampMetadata.tryInto, checkHeader_specVersion, parseDatetime_formatDatetime_of_mem hy,
    Checks.newTimestampMetadata]
  rw [construct_of_none ((V.timestamp_congr _ _ hm).trans ((V.timestamp_truncSubsec m).trans hv.1))]
  rfl

/-! ### What decoding returns -/

/-- What a successful decoding of a timestamp document went through: the tag and spec
version, the snapshot description converted for the snapshot role, the expiry, and
`TimestampMetadata::new`. -/
theorem decodeTimestamp_eq_ok {V : Checks T} {w : Wire.TimestampMetadata T}
    {m : Metadata.TimestampMetadata T} (h : decodeTimestamp V w = .ok m) :
    checkHeader (T := T) .timestamp "timestamp" w.typ w.specVersion = .ok () ∧
      decodeMetadataDescription V .snapshot w.meta.snapshot = .ok m.snapshot ∧
      parseDatetime (T := T) w.expires = .ok m.expires ∧ m.version = w.version ∧
      V.timestamp m = none := by
  simp only [decodeTimestamp, TimestampMetadata.deserialize, except_bind_eq_ok, except_pure,
    except_mapError_eq_ok] at h
  obtain ⟨meta, ⟨d, hd, hmeta⟩, ht⟩ := h
  cases hmeta
  simp only [TimestampMetadata.tryInto, except_bind_eq_ok, Checks.newTimestampMetadata,
    construct_eq_ok_iff] at ht
  obtain ⟨⟨⟩, hh, t, hp, hv, rfl⟩ := ht
  exact ⟨hh, hd, hp, rfl, hv⟩

theorem TimestampMetadata.valid_of_decode {V : Checks T} {w : Wire.TimestampMetadata T}
    {m : Metadata.TimestampMetadata T} (h : decodeTimestamp V w = .ok m) : V.ValidTimestamp m := by
  obtain ⟨-, hd, -, -, hv⟩ := decodeTimestamp_eq_ok h
  exact ⟨hv, MetadataDescription.valid_of_decode hd⟩

/-- A decoded document is tagged `timestamp`, with an accepted spec version. -/
theorem TimestampMetadata.header_of_decode {V : Checks T} {w : Wire.TimestampMetadata T}
    {m : Metadata.TimestampMetadata T} (h : decodeTimestamp V w = .ok m) :
    w.typ = .timestamp ∧ validSpecVersion w.specVersion = true :=
  checkHeader_eq_ok_iff.mp (decodeTimestamp_eq_ok h).1

/-! ### Canonical encoding -/

theorem encodeTimestamp_congr {m₁ m₂ : Metadata.TimestampMetadata T} (h : m₁ ≈ m₂) :
    encodeTimestamp m₁ = encodeTimestamp m₂ := by
  obtain ⟨hv, he, hs⟩ := h
  simp only [encodeTimestamp, TimestampMetadata.from, TimestampMetadata.serialize,
    encodeMetadataDescription, hv, he, MetadataDescription.from_congr hs]

@[simp] theorem encodeTimestamp_truncSubsec (m : Metadata.TimestampMetadata T) :
    encodeTimestamp { m with expires := m.expires.truncSubsec } = encodeTimestamp m := by
  simp [encodeTimestamp, TimestampMetadata.from]

end RustTuf.Shims
