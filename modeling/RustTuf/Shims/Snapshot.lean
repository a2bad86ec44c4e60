import RustTuf.Shims.Common
import RustTuf.Shims.Description

/-! `shims::SnapshotMetadata`, which describes each targets file under its path with
`.json` appended. Encoding collects the renamed entries into a `BTreeMap`; decoding reads
the map with `deserialize_reject_duplicates`, converts each description for the targets
role, and takes each key back to a path: it must end in `.json`, which is split off, and
the rest must pass `MetadataPath::new`. The renaming is injective, so encoding loses no
entry, and decoding strips exactly what encoding appended. -/

namespace RustTuf.Shims

open Metadata Serde Chrono

variable {T : Types}

/-- `shims::SnapshotMetadata`. -/
structure SnapshotMetadata (T : Types) where
  typ : Role
  specVersion : RStr
  version : UInt32
  expires : RStr
  meta : BTreeMap RStr (Metadata.MetadataDescription T)

/-- `format!("{}.json", p)`: the text of a path, which is its `Display`, and `.json`. -/
def withJsonSuffix (p : MetadataPath) : RStr := p.path ++ RStr.lit ".json"

/-- `SnapshotMetadata::from`, which always returns `Ok`. -/
def SnapshotMetadata.from (metadata : Metadata.SnapshotMetadata T) : SnapshotMetadata T :=
  ⟨.snapshot, Shims.specVersion, metadata.version, formatDatetime metadata.expires,
    BTreeMap.collect (metadata.meta.entries.map fun e => (withJsonSuffix e.1, e.2))⟩

/-- The closure `try_into` maps over the entries of `meta`. -/
def SnapshotMetadata.metaEntry (V : Checks T) :
    RStr × Metadata.MetadataDescription T →
      Except (Error T) (MetadataPath × Metadata.MetadataDescription T)
  | (p, d) => do
    if !p.endsWith (RStr.lit ".json") then
      throw (.encoding (RStr.lit "Metadata does not end with .json: " ++ p))
    let some (s, _) := p.splitAt (p.length - (RStr.lit ".json").length)
      | throw (.panic (RStr.lit "split_at"))
    let p ← V.newMetadataPath s
    pure (p, d)

/-- `SnapshotMetadata::try_into`: the entries converted in key order, the first error
returned. -/
def SnapshotMetadata.tryInto (V : Checks T) (self : SnapshotMetadata T) :
    Except (Error T) (Metadata.SnapshotMetadata T) := do
  checkHeader .snapshot "snapshot" self.typ self.specVersion
  let expires ← parseDatetime self.expires
  let meta ← self.meta.entries.mapM (SnapshotMetadata.metaEntry V)
  V.newSnapshotMetadata self.version expires (HashMap.collect meta)

/-! ### JSON objects -/

/-- The JSON object of a `SnapshotMetadata`, the entries of `meta` in document order. -/
structure Wire.SnapshotMetadata (T : Types) where
  typ : Role
  specVersion : RStr
  version : UInt32
  expires : RStr
  meta : List (RStr × Wire.MetadataDescription T)

/-- The derived `Serialize` of `SnapshotMetadata`, each description written as its shim. -/
def SnapshotMetadata.serialize (metadata : SnapshotMetadata T) : Wire.SnapshotMetadata T :=
  ⟨metadata.typ, metadata.specVersion, metadata.version, metadata.expires,
    metadata.meta.entries.map fun e => (e.1, encodeMetadataDescription e.2)⟩

/-- The derived `Deserialize` of `SnapshotMetadata`: `meta` read with
`deserialize_reject_duplicates`, each description converted for the targets role. -/
def SnapshotMetadata.deserialize (V : Checks T) (w : Wire.SnapshotMetadata T) :
    Except (DeError T) (SnapshotMetadata T) := do
  let meta ← deserializeRejectDuplicates
    (MapAccess.ofEntries (decodeMetadataDescription V .targets) w.meta)
  pure ⟨w.typ, w.specVersion, w.version, w.expires, meta⟩

/-- Modelled from the spec: a snapshot metadata value is written as its shim. -/
def encodeSnapshot (metadata : Metadata.SnapshotMetadata T) : Wire.SnapshotMetadata T :=
  (SnapshotMetadata.from metadata).serialize

/-- Modelled from the spec: a snapshot metadata document is read as its shim and
converted by `try_into`. -/
def decodeSnapshot (V : Checks T) (w : Wire.SnapshotMetadata T) :
    Except (DeError T) (Metadata.SnapshotMetadata T) := do
  let metadata ← SnapshotMetadata.deserialize V w
  (metadata.tryInto V).mapError .conversion

/-! ### The `.json` suffix -/

private theorem lit_json : RStr.lit ".json" = [0x2E, 0x6A, 0x73, 0x6F, 0x6E] := rfl

theorem withJsonSuffix_injective : Function.Injective withJsonSuffix := fun p q h => by
  cases p; cases q
  simpa [withJsonSuffix] using h

@[simp] theorem take_append_json (s : RStr) :
    (s ++ RStr.lit ".json").take ((s ++ RStr.lit ".json").length - (RStr.lit ".json").length) =
      s := by
  simp

/-- A key that ends in `.json` is the text before it followed by `.json`. -/
theorem eq_take_append_json {k : RStr} (h : k.endsWith (RStr.lit ".json")) :
    k = k.take (k.length - (RStr.lit ".json").length) ++ RStr.lit ".json" := by
  obtain ⟨s, rfl⟩ := (RStr.endsWith_iff _ _).mp h
  rw [take_append_json]

/-- The split point of a key that ends in `.json` lies in the key and on a char boundary:
the byte there is the `.` of `.json`. -/
theorem isCharBoundary_of_endsWith_json {k : RStr} (h : k.endsWith (RStr.lit ".json")) :
    (RStr.lit ".json").length ≤ k.length ∧
      k.isCharBoundary (k.length - (RStr.lit ".json").length) := by
  obtain ⟨s, rfl⟩ := (RStr.endsWith_iff _ _).mp h
  have hl : (s ++ RStr.lit ".json").length - (RStr.lit ".json").length = s.length := by simp
  rw [hl, lit_json]
  exact ⟨by simp, RStr.isCharBoundary_append s _ 0x2E (by decide)⟩

/-- A key made of a text and `.json` is split there, and the text goes to
`MetadataPath::new`. -/
theorem metaEntry_append_json (V : Checks T) (s : RStr) (d : Metadata.MetadataDescription T) :
    SnapshotMetadata.metaEntry V (s ++ RStr.lit ".json", d) = (V.newMetadataPath s).map (·, d) := by
  have hl : (s ++ RStr.lit ".json").length - (RStr.lit ".json").length = s.length := by simp
  simp only [SnapshotMetadata.metaEntry, RStr.endsWith_append, hl, Bool.not_true,
    Bool.false_eq_true, if_false]
  rw [lit_json, RStr.splitAt_append _ _ 0x2E (by decide)]
  simp only [except_pure, except_ok_bind]
  cases V.newMetadataPath s <;> rfl

/-- The conversion of one entry of `meta`: a key that ends in `.json` is split where the
suffix starts, which never panics, and the text before it goes to `MetadataPath::new`;
any other key is an error that names it. -/
theorem metaEntry_eq (V : Checks T) (k : RStr) (d : Metadata.MetadataDescription T) :
    SnapshotMetadata.metaEntry V (k, d) =
      if k.endsWith (RStr.lit ".json") then
        (V.newMetadataPath (k.take (k.length - (RStr.lit ".json").length))).map (·, d)
      else .error (.encoding (RStr.lit "Metadata does not end with .json: " ++ k)) := by
  split
  case isTrue h =>
    conv_lhs => rw [eq_take_append_json h]
    exact metaEntry_append_json V _ d
  case isFalse h => simp [SnapshotMetadata.metaEntry, h]

/-- An entry fails to convert with the error naming its key when the key does not end in
`.json`, and with the error of `MetadataPath::new` when the text before it is rejected. -/
theorem metaEntry_eq_error_iff (V : Checks T) (k : RStr) (d : Metadata.MetadataDescription T)
    (err : Error T) :
    SnapshotMetadata.metaEntry V (k, d) = .error err ↔
      (k.endsWith (RStr.lit ".json") = false ∧
        err = .encoding (RStr.lit "Metadata does not end with .json: " ++ k)) ∨
      (k.endsWith (RStr.lit ".json") = true ∧
        V.metadataPath (k.take (k.length - (RStr.lit ".json").length)) = some err) := by
  rw [metaEntry_eq]
  cases k.endsWith (RStr.lit ".json") <;>
    cases hp : V.metadataPath (k.take (k.length - (RStr.lit ".json").length)) <;>
    simp [Checks.newMetadataPath, Except.map, hp, eq_comm]

/-- An entry whose key ends in `.json`, the text before it accepted by
`MetadataPath::new`, converts to that path and its description. -/
theorem metaEntry_of_accepted (V : Checks T) {k : RStr} (hk : k.endsWith (RStr.lit ".json"))
    (hp : V.metadataPath (k.take (k.length - (RStr.lit ".json").length)) = none)
    (d : Metadata.MetadataDescription T) :
    SnapshotMetadata.metaEntry V (k, d) =
      .ok (⟨k.take (k.length - (RStr.lit ".json").length)⟩, d) := by
  simp [metaEntry_eq, hk, Checks.newMetadataPath, hp, Except.map]

/-- A key written from a path whose text passes `MetadataPath::new` is taken back to that
path. -/
theorem metaEntry_withJsonSuffix (V : Checks T) {p : MetadataPath}
    (hp : V.metadataPath p.path = none) (d : Metadata.MetadataDescription T) :
    SnapshotMetadata.metaEntry V (withJsonSuffix p, d) = .ok (p, d) := by
  rw [withJsonSuffix, metaEntry_append_json]
  simp [Checks.newMetadataPath, hp, Except.map]

/-- Entries whose keys are all written from valid paths are taken back to those paths,
in order. -/
theorem mapM_metaEntry (V : Checks T) {l : List (RStr × Metadata.MetadataDescription T)}
    (h : ∀ e ∈ l, ∃ p, e.1 = withJsonSuffix p ∧ V.metadataPath p.path = none) :
    ∃ l₀, l.mapM (SnapshotMetadata.metaEntry V) = .ok l₀ ∧
      l₀.map (fun e => (withJsonSuffix e.1, e.2)) = l := by
  induction l with
  | nil => exact ⟨[], rfl, rfl⟩
  | cons e l ih =>
    obtain ⟨k, d⟩ := e
    obtain ⟨p, rfl, hp⟩ := h (k, d) (List.mem_cons_self _ l)
    obtain ⟨l₀, hl₀, he⟩ := ih fun e he => h e (List.mem_cons_of_mem _ he)
    refine ⟨(p, d) :: l₀, ?_, by simp [he]⟩
    rw [List.mapM_cons, metaEntry_withJsonSuffix V hp, hl₀]
    rfl

/-! ### The conversion of `meta` -/

/-- An entry converts exactly when its key ends in `.json` and `MetadataPath::new` accepts
the text before it. -/
theorem metaEntry_ok_iff (V : Checks T) (k : RStr) (d : Metadata.MetadataDescription T) :
    (∃ r, SnapshotMetadata.metaEntry V (k, d) = .ok r) ↔
      k.endsWith (RStr.lit ".json") = true ∧
        V.metadataPath (k.take (k.length - (RStr.lit ".json").length)) = none := by
  rw [metaEntry_eq]
  cases k.endsWith (RStr.lit ".json") <;>
    cases hp : V.metadataPath (k.take (k.length - (RStr.lit ".json").length)) <;>
    simp [Checks.newMetadataPath, Except.map, hp]

/-- Past the tag, the spec version and the expiry, `try_into` converts the entries of
`meta` in key order and ends in `SnapshotMetadata::new`. -/
theorem SnapshotMetadata.tryInto_of_accepted (V : Checks T) {w : SnapshotMetadata T}
    {t : DateTime} (hh : checkHeader (T := T) .snapshot "snapshot" w.typ w.specVersion = .ok ())
    (ht : parseDatetime (T := T) w.expires = .ok t) :
    w.tryInto V = w.meta.entries.mapM (SnapshotMetadata.metaEntry V) >>= fun meta =>
      V.newSnapshotMetadata w.version t (HashMap.collect meta) := by
  simp only [SnapshotMetadata.tryInto, hh, ht, except_ok_bind]

/-- Once the tag, the spec version and the expiry pass, `try_into` splits every key that
ends in `.json` where the suffix starts, a char boundary, so the split never panics. It
fails when a key does not end in `.json` or `MetadataPath::new` rejects the text before
it, with the error of the first such entry in key order. Otherwise it gives
`SnapshotMetadata::new` one path for each key, the key without its `.json`, holding that
key's description. -/
theorem snapshotMetadata_tryInto (V : Checks T) (w : SnapshotMetadata T) {t : DateTime}
    (hh : checkHeader (T := T) .snapshot "snapshot" w.typ w.specVersion = .ok ())
    (ht : parseDatetime (T := T) w.expires = .ok t) :
    (∀ k d, k.endsWith (RStr.lit ".json") →
      (RStr.lit ".json").length ≤ k.length ∧
      k.isCharBoundary (k.length - (RStr.lit ".json").length) ∧
      SnapshotMetadata.metaEntry V (k, d) =
        (V.newMetadataPath (k.take (k.length - (RStr.lit ".json").length))).map (·, d)) ∧
    ((∃ e ∈ w.meta.entries, e.1.endsWith (RStr.lit ".json") = false ∨
        V.metadataPath (e.1.take (e.1.length - (RStr.lit ".json").length)) ≠ none) →
      ∃ l₁ e l₂ err, w.meta.entries = l₁ ++ e :: l₂ ∧
        (∀ e' ∈ l₁, e'.1.endsWith (RStr.lit ".json") = true ∧
          V.metadataPath (e'.1.take (e'.1.length - (RStr.lit ".json").length)) = none) ∧
        ((e.1.endsWith (RStr.lit ".json") = false ∧
            err = .encoding (RStr.lit "Metadata does not end with .json: " ++ e.1)) ∨
          (e.1.endsWith (RStr.lit ".json") = true ∧
            V.metadataPath (e.1.take (e.1.length - (RStr.lit ".json").length)) = some err)) ∧
        w.tryInto V = .error err) ∧
    ((∀ e ∈ w.meta.entries, e.1.endsWith (RStr.lit ".json") = true ∧
        V.metadataPath (e.1.take (e.1.length - (RStr.lit ".json").length)) = none) →
      ∃ M, w.tryInto V = V.newSnapshotMetadata w.version t M ∧ M.len = w.meta.len ∧
        ∀ p d, M.get? p = some d ↔ w.meta.get? (p.path ++ RStr.lit ".json") = some d) := by
  refine ⟨fun k d hk => ⟨(isCharBoundary_of_endsWith_json hk).1,
    (isCharBoundary_of_endsWith_json hk).2, by rw [metaEntry_eq, if_pos hk]⟩, ?fail, ?convert⟩
  case fail =>
    rintro ⟨⟨k, d⟩, he, hbad⟩
    have hfail : ∃ a ∈ w.meta.entries, ∃ err, SnapshotMetadata.metaEntry V a = .error err := by
      refine ⟨(k, d), he, ?_⟩
      cases h : SnapshotMetadata.metaEntry V (k, d) with
      | error err => exact ⟨err, rfl⟩
      | ok r =>
        obtain ⟨hk, hp⟩ := (metaEntry_ok_iff V k d).mp ⟨r, h⟩
        rcases hbad with hbad | hbad <;> simp_all
    obtain ⟨l₁, ⟨k', d'⟩, l₂, err, hl, h₁, ha, hm⟩ := mapM_eq_error_of_exists hfail
    refine ⟨l₁, (k', d'), l₂, err, hl, fun ⟨k'', d''⟩ h => ?_, (metaEntry_eq_error_iff V k' d' err).mp ha,
      by rw [SnapshotMetadata.tryInto_of_accepted V hh ht, hm]; rfl⟩
    exact (metaEntry_ok_iff V k'' d'').mp (h₁ _ h)
  case convert =>
    intro hall
    have hmap : w.meta.entries.mapM (SnapshotMetadata.metaEntry V) =
        .ok (w.meta.entries.map fun e => (⟨e.1.take (e.1.length - (RStr.lit ".json").length)⟩, e.2)) :=
      mapM_of_forall_ok fun ⟨k, d⟩ he => metaEntry_of_accepted V (hall _ he).1 (hall _ he).2 d
    have hn : ((w.meta.entries.map fun e =>
        ((⟨e.1.take (e.1.length - (RStr.lit ".json").length)⟩ : MetadataPath), e.2)).map
          Prod.fst).Nodup := by
      rw [List.map_map]
      refine (w.meta.nodup_keys.of_map _).map_on fun a ha b hb h =>
        List.inj_on_of_nodup_map w.meta.nodup_keys ha hb ?_
      calc a.1 = a.1.take (a.1.length - (RStr.lit ".json").length) ++ RStr.lit ".json" :=
            eq_take_append_json (hall a ha).1
        _ = b.1.take (b.1.length - (RStr.lit ".json").length) ++ RStr.lit ".json" := by
            rw [MetadataPath.mk.inj h]
        _ = b.1 := (eq_take_append_json (hall b hb).1).symm
    refine ⟨_, by rw [SnapshotMetadata.tryInto_of_accepted V hh ht, hmap]; rfl, ?_, fun p d => ?_⟩
    · simp [HashMap.len, HashMap.entries_collect hn, BTreeMap.len]
    · rw [← HashMap.mem_iff_get?, HashMap.entries_collect hn, ← BTreeMap.mem_iff_get?, List.mem_map]
      constructor
      · rintro ⟨⟨k, d'⟩, hm, he⟩
        obtain ⟨rfl, rfl⟩ := Prod.mk.inj he
        rw [← eq_take_append_json (hall _ hm).1]
        exact hm
      · intro hm
        exact ⟨_, hm, by simp⟩

/-- The shim of a snapshot that describes `targets.json`. -/
def targetsSnapshot : SnapshotMetadata Types.nat :=
  ⟨.snapshot, Shims.specVersion, 1,
    formatDatetime ⟨⟨2030, 1, 1, by decide, by decide⟩, ⟨0, 0, by decide, by decide⟩⟩,
    ⟨[(RStr.lit "targets.json", ⟨1, none, HashMap.empty⟩)], by decide⟩⟩

theorem snapshotMetadata_tryInto_targetsSnapshot :
    checkHeader (T := Types.nat) .snapshot "snapshot" targetsSnapshot.typ
      targetsSnapshot.specVersion = .ok () ∧
    parseDatetime (T := Types.nat) targetsSnapshot.expires =
      .ok ⟨⟨2030, 1, 1, by decide, by decide⟩, ⟨0, 0, by decide, by decide⟩⟩ ∧
    (∀ k d, k.endsWith (RStr.lit ".json") →
      (RStr.lit ".json").length ≤ k.length ∧
      k.isCharBoundary (k.length - (RStr.lit ".json").length) ∧
      SnapshotMetadata.metaEntry (Checks.rustTuf Types.nat) (k, d) =
        ((Checks.rustTuf Types.nat).newMetadataPath
          (k.take (k.length - (RStr.lit ".json").length))).map (·, d)) ∧
    ((∃ e ∈ targetsSnapshot.meta.entries, e.1.endsWith (RStr.lit ".json") = false ∨
        (Checks.rustTuf Types.nat).metadataPath
          (e.1.take (e.1.length - (RStr.lit ".json").length)) ≠ none) →
      ∃ l₁ e l₂ err, targetsSnapshot.meta.entries = l₁ ++ e :: l₂ ∧
        (∀ e' ∈ l₁, e'.1.endsWith (RStr.lit ".json") = true ∧
          (Checks.rustTuf Types.nat).metadataPath
            (e'.1.take (e'.1.length - (RStr.lit ".json").length)) = none) ∧
        ((e.1.endsWith (RStr.lit ".json") = false ∧
            err = .encoding (RStr.lit "Metadata does not end with .json: " ++ e.1)) ∨
          (e.1.endsWith (RStr.lit ".json") = true ∧
            (Checks.rustTuf Types.nat).metadataPath
              (e.1.take (e.1.length - (RStr.lit ".json").length)) = some err)) ∧
        targetsSnapshot.tryInto (Checks.rustTuf Types.nat) = .error err) ∧
    ((∀ e ∈ targetsSnapshot.meta.entries, e.1.endsWith (RStr.lit ".json") = true ∧
        (Checks.rustTuf Types.nat).metadataPath
          (e.1.take (e.1.length - (RStr.lit ".json").length)) = none) →
      ∃ M, targetsSnapshot.tryInto (Checks.rustTuf Types.nat) =
          (Checks.rustTuf Types.nat).newSnapshotMetadata targetsSnapshot.version
            ⟨⟨2030, 1, 1, by decide, by decide⟩, ⟨0, 0, by decide, by decide⟩⟩ M ∧
        M.len = targetsSnapshot.meta.len ∧
        ∀ p d, M.get? p = some d ↔ targetsSnapshot.meta.get? (p.path ++ RStr.lit ".json") = some d) :=
  ⟨rfl, parseDatetime_formatDatetime_of_mem (by decide),
    snapshotMetadata_tryInto (Checks.rustTuf Types.nat) targetsSnapshot rfl
      (parseDatetime_formatDatetime_of_mem (by decide))⟩

/-! ### Round trip -/

/-- Distinct paths are written under distinct keys. -/
theorem nodup_withJsonSuffix (meta : HashMap MetadataPath (Metadata.MetadataDescription T)) :
    ((meta.entries.map fun e => (withJsonSuffix e.1, e.2)).map Prod.fst).Nodup := by
  simpa [List.map_map] using meta.nodup.map withJsonSuffix_injective

/-- The key pool of the encoding: one key for each path, written from that path. -/
theorem mem_meta_from (m : Metadata.SnapshotMetadata T) {e : RStr × Metadata.MetadataDescription T}
    (he : e ∈ (SnapshotMetadata.from m).meta.entries) :
    ∃ p, e.1 = withJsonSuffix p ∧ (p, e.2) ∈ m.meta.entries := by
  obtain ⟨⟨p, d⟩, hm, rfl⟩ := List.mem_map.mp
    ((BTreeMap.entries_collect_perm (nodup_withJsonSuffix m.meta)).mem_iff.mp he)
  exact ⟨p, rfl, hm⟩

theorem len_meta_from (m : Metadata.SnapshotMetadata T) :
    (SnapshotMetadata.from m).meta.len = m.meta.len := by
  rw [SnapshotMetadata.from, BTreeMap.len_collect (nodup_withJsonSuffix m.meta)]
  simp [HashMap.len]

/-- A valid snapshot comes back from its encoding, its expiry cut to the second. -/
theorem decodeSnapshot_encodeSnapshot_truncSubsec (V : Checks T)
    {m : Metadata.SnapshotMetadata T} (hv : V.ValidSnapshot m)
    (hy : 0 ≤ m.expires.year ∧ m.expires.year ≤ 9999) :
    ∃ m', decodeSnapshot V (encodeSnapshot m) = .ok m' ∧
      m' ≈ { m with expires := m.expires.truncSubsec } := by
  obtain ⟨B', hB', hf⟩ := deserializeRejectDuplicates_ofEntries (T := T)
    (f := decodeMetadataDescription V .targets) (g := encodeMetadataDescription)
    (r := (· ≈ ·)) (SnapshotMetadata.from m).meta fun e he => by
      obtain ⟨p, -, hm⟩ := mem_meta_from m he
      exact MetadataDescription.decode_encode V .targets (hv.2 _ hm).2
  have hkeys := map_fst_eq_of_forall₂ hf
  obtain ⟨l₀, hl₀, he⟩ := mapM_metaEntry V (l := B'.entries) fun e he => by
    obtain ⟨k, hk, hke⟩ := List.mem_map.mp (hkeys ▸ List.mem_map_of_mem Prod.fst he)
    obtain ⟨p, hp, hm⟩ := mem_meta_from m hk
    exact ⟨p, hke ▸ hp, (hv.2 _ hm).1⟩
  have hnd : (l₀.map Prod.fst).Nodup := List.Nodup.of_map withJsonSuffix (by
    simpa [← he, List.map_map, Function.comp_def] using B'.nodup_keys)
  have hm : (⟨m.version, m.expires.truncSubsec, HashMap.collect l₀⟩ : Metadata.SnapshotMetadata T) ≈
      { m with expires := m.expires.truncSubsec } := ⟨rfl, rfl, fun p => by
    rw [HashMap.get?_collect hnd, HashMap.get?, ← lookup_map_fst_of_injective withJsonSuffix_injective,
      he, ← lookup_map_fst_of_injective withJsonSuffix_injective m.meta.entries,
      ← BTreeMap.get?_collect (nodup_withJsonSuffix m.meta)]
    exact lookup_rel_of_forall₂ hf _⟩
  refine ⟨_, ?_, hm⟩
  simp only [decodeSnapshot, encodeSnapshot, SnapshotMetadata.serialize,
    SnapshotMetadata.deserialize, hB', except_ok_bind, except_pure, SnapshotMetadata.tryInto]
  simp only [SnapshotMetadata.from, checkHeader_specVersion, parseDatetime_formatDatetime_of_mem hy,
    except_ok_bind, hl₀, Checks.newSnapshotMetadata]
  rw [construct_of_none ((V.snapshot_congr _ _ hm).trans ((V.snapshot_truncSubsec m).trans hv.1))]
  rfl

/-- Every valid snapshot whose expiry has no sub-second part and a four-digit year comes
back from its encoding equal; the encoding has one entry for each path. -/
theorem decodeSnapshot_encodeSnapshot (V : Checks T) {m : Metadata.SnapshotMetadata T}
    (hv : V.ValidSnapshot m) (hn : m.expires.nanosecond = 0)
    (hy : 0 ≤ m.expires.year ∧ m.expires.year ≤ 9999) :
    (encodeSnapshot m).meta.length = m.meta.len ∧
      ∃ m', decodeSnapshot V (encodeSnapshot m) = .ok m' ∧ m' ≈ m := by
  refine ⟨by simpa [encodeSnapshot, SnapshotMetadata.serialize, BTreeMap.len] using len_meta_from m, ?_⟩
  obtain ⟨m', h, hm⟩ := decodeSnapshot_encodeSnapshot_truncSubsec V hv hy
  rw [DateTime.truncSubsec_eq_self hn] at hm
  exact ⟨m', h, hm⟩

/-- A snapshot describing one targets file. -/
def sampleSnapshot : Metadata.SnapshotMetadata Types.nat :=
  ⟨1, ⟨⟨2030, 1, 1, by decide, by decide⟩, ⟨0, 0, by decide, by decide⟩⟩,
    ⟨[(⟨RStr.lit "targets"⟩, ⟨1, none, HashMap.empty⟩)], by decide⟩⟩

theorem decodeSnapshot_encodeSnapshot_sampleSnapshot :
    (Checks.rustTuf Types.nat).ValidSnapshot sampleSnapshot ∧ sampleSnapshot.expires.nanosecond = 0 ∧
      (0 ≤ sampleSnapshot.expires.year ∧ sampleSnapshot.expires.year ≤ 9999) ∧
      (encodeSnapshot sampleSnapshot).meta.length = sampleSnapshot.meta.len ∧
      ∃ m', decodeSnapshot (Checks.rustTuf Types.nat) (encodeSnapshot sampleSnapshot) = .ok m' ∧
        m' ≈ sampleSnapshot := by
  have hv : (Checks.rustTuf Types.nat).ValidSnapshot sampleSnapshot :=
    ⟨rfl, fun e he => by obtain rfl := List.mem_singleton.mp he; exact ⟨rfl, rfl⟩⟩
  exact ⟨hv, rfl, by decide, decodeSnapshot_encodeSnapshot (Checks.rustTuf Types.nat) hv rfl (by decide)⟩

/-! ### What decoding returns -/

/-- What a successful decoding of a snapshot document went through: `meta` read with
`deserialize_reject_duplicates`, the tag and spec version, the expiry, every entry of
`meta` converted in key order, and `SnapshotMetadata::new`. -/
theorem decodeSnapshot_eq_ok {V : Checks T} {w : Wire.SnapshotMetadata T}
    {m : Metadata.SnapshotMetadata T} (h : decodeSnapshot V w = .ok m) :
    ∃ B l t, deserializeRejectDuplicates
        (MapAccess.ofEntries (decodeMetadataDescription V .targets) w.meta) = .ok B ∧
      checkHeader (T := T) .snapshot "snapshot" w.typ w.specVersion = .ok () ∧
      parseDatetime (T := T) w.expires = .ok t ∧
      B.entries.mapM (SnapshotMetadata.metaEntry V) = .ok l ∧ V.snapshot m = none ∧
      m = ⟨w.version, t, HashMap.collect l⟩ := by
  simp only [decodeSnapshot, SnapshotMetadata.deserialize, except_bind_eq_ok, except_pure,
    except_mapError_eq_ok] at h
  obtain ⟨meta, ⟨B, hB, hmeta⟩, ht⟩ := h
  cases hmeta
  simp only [SnapshotMetadata.tryInto, except_bind_eq_ok, Checks.newSnapshotMetadata,
    construct_eq_ok_iff] at ht
  obtain ⟨⟨⟩, hh, t, hp, l, hl, hv, rfl⟩ := ht
  exact ⟨B, l, t, hB, hh, hp, hl, hv, rfl⟩

/-- Keys that all end in `.json` and are distinct stay distinct once it is split off. -/
theorem nodup_map_stem {D : Type} {es : List (RStr × D)} (hn : (es.map Prod.fst).Nodup)
    (hall : ∀ e ∈ es, e.1.endsWith (RStr.lit ".json") = true) :
    ((es.map fun e => ((⟨e.1.take (e.1.length - (RStr.lit ".json").length)⟩ : MetadataPath),
      e.2)).map Prod.fst).Nodup := by
  rw [List.map_map]
  refine (hn.of_map _).map_on fun a ha b hb h => List.inj_on_of_nodup_map hn ha hb ?_
  calc a.1 = a.1.take (a.1.length - (RStr.lit ".json").length) ++ RStr.lit ".json" :=
        eq_take_append_json (hall a ha)
    _ = b.1.take (b.1.length - (RStr.lit ".json").length) ++ RStr.lit ".json" := by
        rw [MetadataPath.mk.inj h]
    _ = b.1 := (eq_take_append_json (hall b hb)).symm

/-- The decoded `meta` of a snapshot document: the map that
`deserialize_reject_duplicates` read, every key of which ends in `.json` with a stem
that `MetadataPath::new` accepts, renamed to those stems. -/
theorem decodeSnapshot_meta_eq {V : Checks T} {w : Wire.SnapshotMetadata T}
    {m : Metadata.SnapshotMetadata T} (h : decodeSnapshot V w = .ok m) :
    ∃ B, deserializeRejectDuplicates
        (MapAccess.ofEntries (decodeMetadataDescription V .targets) w.meta) = .ok B ∧
      (∀ e ∈ B.entries, e.1.endsWith (RStr.lit ".json") = true ∧
        V.metadataPath (e.1.take (e.1.length - (RStr.lit ".json").length)) = none) ∧
      m.meta.entries = B.entries.map fun e =>
        (⟨e.1.take (e.1.length - (RStr.lit ".json").length)⟩, e.2) := by
  obtain ⟨B, l, t, hB, -, -, hl, -, rfl⟩ := decodeSnapshot_eq_ok h
  have hall : ∀ e ∈ B.entries, e.1.endsWith (RStr.lit ".json") = true ∧
      V.metadataPath (e.1.take (e.1.length - (RStr.lit ".json").length)) = none :=
    fun e he => (metaEntry_ok_iff V e.1 e.2).mp (exists_ok_of_mapM_eq_ok hl e he)
  have hmap := mapM_of_forall_ok (l := B.entries)
    (g := fun e => (⟨e.1.take (e.1.length - (RStr.lit ".json").length)⟩, e.2)) fun ⟨k, d⟩ he =>
    metaEntry_of_accepted V (hall _ he).1 (hall _ he).2 d
  obtain rfl := Except.ok.inj (hl.symm.trans hmap)
  exact ⟨B, hB, hall, HashMap.entries_collect (nodup_map_stem B.nodup_keys fun e he => (hall e he).1)⟩

/-- A decoded snapshot document names no file twice, and the decoded map has one path for
each entry of the document: the entry's key without `.json`, a text `MetadataPath::new`
accepted, holding the entry's description converted for the targets role. -/
theorem decodeSnapshot_meta {V : Checks T} {w : Wire.SnapshotMetadata T}
    {m : Metadata.SnapshotMetadata T} (h : decodeSnapshot V w = .ok m) :
    (w.meta.map Prod.fst).Nodup ∧ m.meta.len = w.meta.length ∧
      ∀ p d, m.meta.get? p = some d ↔ ∃ wd, (p.path ++ RStr.lit ".json", wd) ∈ w.meta ∧
        V.metadataPath p.path = none ∧ decodeMetadataDescription V .targets wd = .ok d := by
  obtain ⟨B, hB, hall, hm⟩ := decodeSnapshot_meta_eq h
  obtain ⟨hn, hlen, hmem, -⟩ := deserializeRejectDuplicates_ofEntries_eq_ok hB
  refine ⟨hn, by rw [HashMap.len, hm, List.length_map, ← hlen]; rfl, fun p d => ?_⟩
  rw [← HashMap.mem_iff_get?, hm, List.mem_map]
  constructor
  · rintro ⟨⟨k, d'⟩, hk, he⟩
    obtain ⟨rfl, rfl⟩ := Prod.mk.inj he
    obtain ⟨wd, hw, hd⟩ := (hmem k d').mp hk
    exact ⟨wd, by rwa [← eq_take_append_json (hall _ hk).1], (hall _ hk).2, hd⟩
  · rintro ⟨wd, hw, -, hd⟩
    exact ⟨_, (hmem _ d).mpr ⟨wd, hw, hd⟩, by simp⟩

/-- A snapshot document describing `b` and then `a`. -/
def metaDocument : Wire.SnapshotMetadata Types.nat :=
  ⟨.snapshot, RStr.lit "1.0.0", 2, RStr.lit "2030-01-01T00:00:00Z",
    [(RStr.lit "b.json", ⟨3, none, none⟩), (RStr.lit "a.json", ⟨1, some 5, some [(1, 9)]⟩)]⟩

/-- The snapshot it decodes to: the keys without `.json`, in key order. -/
def metaSnapshot : Metadata.SnapshotMetadata Types.nat :=
  ⟨2, ⟨⟨2030, 1, 1, by decide, by decide⟩, ⟨0, 0, by decide, by decide⟩⟩,
    ⟨[(⟨RStr.lit "a"⟩, ⟨1, some 5, ⟨[(1, 9)], by decide⟩⟩),
      (⟨RStr.lit "b"⟩, ⟨3, none, HashMap.empty⟩)], by decide⟩⟩

theorem decodeSnapshot_meta_metaDocument :
    decodeSnapshot (Checks.rustTuf Types.nat) metaDocument = .ok metaSnapshot ∧
      (metaDocument.meta.map Prod.fst).Nodup ∧ metaSnapshot.meta.len = metaDocument.meta.length ∧
      ∀ p d, metaSnapshot.meta.get? p = some d ↔
        ∃ wd, (p.path ++ RStr.lit ".json", wd) ∈ metaDocument.meta ∧
          (Checks.rustTuf Types.nat).metadataPath p.path = none ∧
          decodeMetadataDescription (Checks.rustTuf Types.nat) .targets wd = .ok d := by
  have h : decodeSnapshot (Checks.rustTuf Types.nat) metaDocument = .ok metaSnapshot := rfl
  exact ⟨h, decodeSnapshot_meta h⟩

theorem SnapshotMetadata.valid_of_decode {V : Checks T} {w : Wire.SnapshotMetadata T}
    {m : Metadata.SnapshotMetadata T} (h : decodeSnapshot V w = .ok m) : V.ValidSnapshot m := by
  obtain ⟨-, -, -, -, -, -, -, hv, -⟩ := decodeSnapshot_eq_ok h
  obtain ⟨B, hB, hall, hm⟩ := decodeSnapshot_meta_eq h
  refine ⟨hv, fun e he => ?_⟩
  rw [hm] at he
  obtain ⟨⟨k, d⟩, hk, rfl⟩ := List.mem_map.mp he
  obtain ⟨wd, -, hd⟩ := ((deserializeRejectDuplicates_ofEntries_eq_ok hB).2.2.1 k d).mp hk
  exact ⟨(hall _ hk).2, MetadataDescription.valid_of_decode hd⟩

/-- A decoded document is tagged `snapshot`, with an accepted spec version. -/
theorem SnapshotMetadata.header_of_decode {V : Checks T} {w : Wire.SnapshotMetadata T}
    {m : Metadata.SnapshotMetadata T} (h : decodeSnapshot V w = .ok m) :
    w.typ = .snapshot ∧ validSpecVersion w.specVersion = true := by
  obtain ⟨-, -, -, -, hh, -⟩ := decodeSnapshot_eq_ok h
  exact checkHeader_eq_ok_iff.mp hh

/-! ### Canonical encoding -/

theorem encodeSnapshot_congr {m₁ m₂ : Metadata.SnapshotMetadata T} (h : m₁ ≈ m₂) :
    encodeSnapshot m₁ = encodeSnapshot m₂ := by
  obtain ⟨hv, he, hm⟩ := h
  have hmeta := BTreeMap.entries_collect_map_snd_congr (r := (· ≈ ·))
    (f := encodeMetadataDescription) (g := encodeMetadataDescription)
    (fun _ _ => MetadataDescription.encode_congr)
    (nodup_withJsonSuffix m₁.meta) (nodup_withJsonSuffix m₂.meta)
    (lookup_map_fst_rel withJsonSuffix_injective hm)
  simp only [encodeSnapshot, SnapshotMetadata.from, SnapshotMetadata.serialize, hv, he, hmeta]

@[simp] theorem encodeSnapshot_truncSubsec (m : Metadata.SnapshotMetadata T) :
    encodeSnapshot { m with expires := m.expires.truncSubsec } = encodeSnapshot m := by
  simp [encodeSnapshot, SnapshotMetadata.from]

end RustTuf.Shims
