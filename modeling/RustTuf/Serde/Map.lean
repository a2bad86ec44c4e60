import RustTuf.Metadata.Basic

/-! The decoding of JSON objects into maps. A map's visitor reads the object through a
`MapAccess`: its entries in document order, each one read or an error of the input, a
key possibly repeated. `deserialize_reject_duplicates` fails at the first key it has
already read; the `BTreeMap` decoding of `serde` itself, which every map field without
`deserialize_with` uses, keeps the later value. A value of a map is read as the entry is,
so an entry whose value fails to decode ends the map there. -/

namespace RustTuf.Serde

/-- The error of a deserializer: an `Error::custom` message, or an error of a conversion
that `metadata.rs` runs inside a `Deserialize` impl and hands to `Error::custom` as its
`Debug` text, kept here as the error itself. -/
inductive DeError (T : Types)
  | custom (msg : RStr)
  | conversion (e : Error T)

/-- The entries a `MapAccess` delivers through `next_entry`, in document order. -/
abbrev MapAccess (T : Types) (K V : Type) := List (Except (DeError T) (K × V))

variable {T : Types} {K V W U : Type}

/-- The map access of an object whose values are read by `f`. -/
def MapAccess.ofEntries (f : W → Except (DeError T) V) (l : List (K × W)) : MapAccess T K V :=
  l.map fun e => (f e.2).map (e.1, ·)

section Visitors

variable [LinearOrder K]

/-- `BTreeVisitor::visit_map`: each entry inserted, a key already present an error. -/
def visitMap : BTreeMap K V → MapAccess T K V → Except (DeError T) (BTreeMap K V)
  | map, [] => .ok map
  | _, .error e :: _ => .error e
  | map, .ok (key, value) :: access =>
    match map.insert key value with
    | (some _, _) => .error (.custom (RStr.lit "Cannot have duplicate keys"))
    | (none, map) => visitMap map access

/-- `deserialize_reject_duplicates::deserialize`. -/
def deserializeRejectDuplicates (access : MapAccess T K V) : Except (DeError T) (BTreeMap K V) :=
  visitMap BTreeMap.empty access

/-- The visitor of `impl Deserialize for BTreeMap<K, V>` in `serde`: each entry inserted,
a later value replacing an earlier one. -/
def visitMapDefault : BTreeMap K V → MapAccess T K V → Except (DeError T) (BTreeMap K V)
  | values, [] => .ok values
  | _, .error e :: _ => .error e
  | values, .ok (key, value) :: access => visitMapDefault (values.insert key value).2 access

/-- `BTreeMap::deserialize`. -/
def deserializeBTreeMap (access : MapAccess T K V) : Except (DeError T) (BTreeMap K V) :=
  visitMapDefault BTreeMap.empty access

open Classical in
/-- The loop of `visit_map` over entries that all read: it fails exactly when a key
repeats, or is already in the map, and otherwise inserts them all. -/
theorem visitMap_map_ok (map : BTreeMap K V) (l : List (K × V)) :
    visitMap (T := T) map (l.map .ok) =
      if (l.map Prod.fst).Nodup ∧ ∀ e ∈ l, map.get? e.1 = none then
        .ok (l.foldl (fun m e => (m.insert e.1 e.2).2) map)
      else .error (.custom (RStr.lit "Cannot have duplicate keys")) := by
  induction l generalizing map with
  | nil => simp [visitMap]
  | cons e l ih =>
    obtain ⟨k, v⟩ := e
    cases hk : map.get? k with
    | some old => simp [visitMap, BTreeMap.insert, hk]
    | none =>
      have hi : map.insert k v = (none, (map.insert k v).2) := Prod.ext hk rfl
      simp only [List.map_cons, visitMap]
      rw [hi]
      simp only [ih, List.foldl_cons]
      congr 1
      have key : ∀ x, (if x = k then some v else map.get? x) = none ↔ ¬ x = k ∧ map.get? x = none :=
        fun x => by by_cases h : x = k <;> simp [h]
      simp only [BTreeMap.get?_insert, key, List.nodup_cons, List.mem_map, List.forall_mem_cons, hk,
        forall_and, not_exists, not_and, eq_iff_iff, true_and]
      tauto

@[simp] theorem visitMapDefault_map_ok (values : BTreeMap K V) (l : List (K × V)) :
    visitMapDefault (T := T) values (l.map .ok) =
      .ok (l.foldl (fun m e => (m.insert e.1 e.2).2) values) := by
  induction l generalizing values with
  | nil => rfl
  | cons e l ih => exact ih _

@[simp] theorem deserializeBTreeMap_map_ok (l : List (K × V)) :
    deserializeBTreeMap (T := T) (l.map .ok) = .ok (BTreeMap.collect l) :=
  visitMapDefault_map_ok _ l

/-- `deserialize_reject_duplicates` on entries that all read: it returns the map exactly
when no key repeats, and the map then holds each entry and no other; a repeated key, at
any distance and however often, is the duplicate-key error. -/
theorem deserializeRejectDuplicates_spec (l : List (K × V)) :
    ((∃ map, deserializeRejectDuplicates (T := T) (l.map .ok) = .ok map) ↔
      (l.map Prod.fst).Nodup) ∧
    ((l.map Prod.fst).Nodup → ∃ map, deserializeRejectDuplicates (T := T) (l.map .ok) = .ok map ∧
      map.len = l.length ∧ ∀ k v, (k, v) ∈ l → map.get? k = some v) ∧
    (¬ (l.map Prod.fst).Nodup → deserializeRejectDuplicates (T := T) (l.map .ok) =
      .error (.custom (RStr.lit "Cannot have duplicate keys"))) := by
  have h := visitMap_map_ok (T := T) BTreeMap.empty l
  simp only [BTreeMap.get?_empty, implies_true, and_true] at h
  refine ⟨⟨fun ⟨map, hm⟩ => ?_, fun hn => ?_⟩, fun hn => ?_, fun hn => ?_⟩
  · by_contra hn
    rw [deserializeRejectDuplicates, h, if_neg hn] at hm
    cases hm
  · exact ⟨_, by rw [deserializeRejectDuplicates, h, if_pos hn]⟩
  · refine ⟨BTreeMap.collect l, by rw [deserializeRejectDuplicates, h, if_pos hn]; rfl,
      BTreeMap.len_collect hn, fun k v hkv => ?_⟩
    rw [BTreeMap.get?_collect hn, lookup_eq_some_iff_mem hn]
    exact hkv
  · rw [deserializeRejectDuplicates, h, if_neg hn]

/-- Entries in strictly increasing key order, as a `BTreeMap` serializes them, come back
as that map from either visitor. -/
theorem deserializeRejectDuplicates_entries (m : BTreeMap K V) :
    deserializeRejectDuplicates (T := T) (m.entries.map .ok) = .ok m := by
  rw [deserializeRejectDuplicates, visitMap_map_ok, if_pos ⟨m.nodup_keys, by simp⟩]
  exact congrArg Except.ok (BTreeMap.collect_entries m)

/-- A map field marked `#[serde(skip_serializing_if = "BTreeMap::is_empty")]`: left out
of the object when the map is empty. -/
def serializeSkipEmpty (m : BTreeMap K V) : Option (List (K × V)) :=
  if m.isEmpty then none else some m.entries

/-- A map field marked `#[serde(default)]`: the empty map when the field is absent. -/
def deserializeOrDefault : Option (List (K × V)) → Except (DeError T) (BTreeMap K V)
  | none => .ok BTreeMap.empty
  | some entries => deserializeBTreeMap (entries.map .ok)

@[simp] theorem deserializeOrDefault_serializeSkipEmpty (m : BTreeMap K V) :
    deserializeOrDefault (T := T) (serializeSkipEmpty m) = .ok m := by
  unfold serializeSkipEmpty
  split
  case isTrue h => exact congrArg Except.ok (BTreeMap.eq_empty_of_isEmpty h).symm
  case isFalse => simp [deserializeOrDefault]

/-- A map field with `default` holds the entries written, or none. -/
theorem deserializeOrDefault_eq (entries : Option (List (K × V))) :
    deserializeOrDefault (T := T) entries = .ok (BTreeMap.collect (entries.getD [])) := by
  cases entries with
  | none => rfl
  | some l => simp [deserializeOrDefault]

/-- `deserialize_reject_duplicates` on entries that all read, as an equation. -/
theorem deserializeRejectDuplicates_map_ok_iff {l : List (K × V)} {m : BTreeMap K V} :
    deserializeRejectDuplicates (T := T) (l.map .ok) = .ok m ↔
      (l.map Prod.fst).Nodup ∧ m = BTreeMap.collect l := by
  rw [deserializeRejectDuplicates, visitMap_map_ok]
  by_cases hn : (l.map Prod.fst).Nodup
  · rw [if_pos ⟨hn, by simp⟩]
    constructor
    · intro h
      exact ⟨hn, (Except.ok.inj h).symm⟩
    · rintro ⟨-, rfl⟩
      rfl
  · rw [if_neg fun h => hn h.1]
    constructor
    · intro h
      cases h
    · intro h
      exact absurd h.1 hn

/-! ### Any access

A `MapAccess` may deliver an entry that fails to read. Both visitors stop at the first
such entry; `visit_map` also stops at the first key it has already read. -/

/-- The loop of `visit_map` from any map over any access: the entries read in document
order up to the first that fails to read, whose error is returned, or whose key is
already in the map or was read before, which is the duplicate-key error; when there is
none, every entry is inserted. -/
theorem visitMap_eq (map : BTreeMap K V) (access : MapAccess T K V) :
    (∃ l : List (K × V), access = l.map .ok ∧ (l.map Prod.fst).Nodup ∧ (∀ e ∈ l, map.get? e.1 = none) ∧
      visitMap map access = .ok (l.foldl (fun m e => (m.insert e.1 e.2).2) map)) ∨
    (∃ (l : List (K × V)) (e : DeError T) (rest : MapAccess T K V), access = l.map .ok ++ .error e :: rest ∧ (l.map Prod.fst).Nodup ∧
      (∀ e ∈ l, map.get? e.1 = none) ∧ visitMap map access = .error e) ∨
    (∃ (l : List (K × V)) (k : K) (v : V) (rest : MapAccess T K V), access = l.map .ok ++ .ok (k, v) :: rest ∧ (l.map Prod.fst).Nodup ∧
      (∀ e ∈ l, map.get? e.1 = none) ∧ (k ∈ l.map Prod.fst ∨ map.get? k ≠ none) ∧
      visitMap map access = .error (.custom (RStr.lit "Cannot have duplicate keys"))) := by
  induction access generalizing map with
  | nil => exact .inl ⟨[], rfl, List.nodup_nil, by simp, rfl⟩
  | cons x access ih =>
    rcases x with e | ⟨k, v⟩
    · exact .inr (.inl ⟨[], e, access, rfl, List.nodup_nil, by simp, rfl⟩)
    cases hk : map.get? k with
    | some old =>
      refine .inr (.inr ⟨[], k, v, access, rfl, List.nodup_nil, by simp, by simp [hk], ?_⟩)
      simp [visitMap, BTreeMap.insert, hk]
    | none =>
      have hv : visitMap (T := T) map (.ok (k, v) :: access) = visitMap (map.insert k v).2 access := by
        rw [visitMap, show map.insert k v = (none, (map.insert k v).2) from Prod.ext hk rfl]
      -- A key new to `map` and then to the updated map is new to both, and not `k`.
      have fresh : ∀ l : List (K × V), (l.map Prod.fst).Nodup →
          (∀ e ∈ l, (map.insert k v).2.get? e.1 = none) →
          (((k, v) :: l).map Prod.fst).Nodup ∧ ∀ e ∈ (k, v) :: l, map.get? e.1 = none := by
        intro l hn hf
        have hf' : ∀ e ∈ l, e.1 ≠ k ∧ map.get? e.1 = none := fun e he => by
          have := hf e he
          rw [BTreeMap.get?_insert] at this
          split_ifs at this with h
          exact ⟨h, this⟩
        refine ⟨List.nodup_cons.mpr ⟨fun hm => ?_, hn⟩, List.forall_mem_cons.mpr ⟨hk, fun e he => (hf' e he).2⟩⟩
        obtain ⟨e, he, hek⟩ := List.mem_map.mp hm
        exact (hf' e he).1 hek
      rcases ih (map.insert k v).2 with ⟨l, rfl, hn, hf, h⟩ | ⟨l, e, rest, rfl, hn, hf, h⟩ |
        ⟨l, k', v', rest, rfl, hn, hf, hd, h⟩
      · exact .inl ⟨(k, v) :: l, rfl, (fresh l hn hf).1, (fresh l hn hf).2, hv.trans h⟩
      · exact .inr (.inl ⟨(k, v) :: l, e, rest, rfl, (fresh l hn hf).1, (fresh l hn hf).2,
          hv.trans h⟩)
      · refine .inr (.inr ⟨(k, v) :: l, k', v', rest, rfl, (fresh l hn hf).1, (fresh l hn hf).2,
          ?_, hv.trans h⟩)
        rw [BTreeMap.get?_insert] at hd
        by_cases hkk : k' = k
        · exact .inl (hkk ▸ List.mem_cons_self k _)
        · simp only [hkk, if_false] at hd
          exact hd.imp (List.mem_cons_of_mem k) id

/-- `deserialize_reject_duplicates` on any access: it returns the map of all entries when
they all read and no key repeats; otherwise it returns the error of the first entry, in
document order, that fails to read or repeats a key read before it. -/
theorem deserializeRejectDuplicates_eq (access : MapAccess T K V) :
    (∃ l : List (K × V), access = l.map .ok ∧ (l.map Prod.fst).Nodup ∧
      deserializeRejectDuplicates access = .ok (BTreeMap.collect l)) ∨
    (∃ (l : List (K × V)) (e : DeError T) (rest : MapAccess T K V), access = l.map .ok ++ .error e :: rest ∧ (l.map Prod.fst).Nodup ∧
      deserializeRejectDuplicates access = .error e) ∨
    (∃ (l : List (K × V)) (k : K) (v : V) (rest : MapAccess T K V), access = l.map .ok ++ .ok (k, v) :: rest ∧ (l.map Prod.fst).Nodup ∧
      k ∈ l.map Prod.fst ∧
      deserializeRejectDuplicates access = .error (.custom (RStr.lit "Cannot have duplicate keys"))) := by
  rcases visitMap_eq BTreeMap.empty access with ⟨l, hl, hn, -, h⟩ | ⟨l, e, rest, hl, hn, -, h⟩ |
    ⟨l, k, v, rest, hl, hn, -, hd, h⟩
  · exact .inl ⟨l, hl, hn, h⟩
  · exact .inr (.inl ⟨l, e, rest, hl, hn, h⟩)
  · exact .inr (.inr ⟨l, k, v, rest, hl, hn, by simpa using hd, h⟩)

/-- The loop of `serde`'s visitor from any map over any access: the error of the first
entry that fails to read, or, when all read, every entry inserted. -/
theorem visitMapDefault_eq (values : BTreeMap K V) (access : MapAccess T K V) :
    (∃ l : List (K × V), access = l.map .ok ∧
      visitMapDefault values access = .ok (l.foldl (fun m e => (m.insert e.1 e.2).2) values)) ∨
    (∃ (l : List (K × V)) (e : DeError T) (rest : MapAccess T K V),
      access = l.map .ok ++ .error e :: rest ∧ visitMapDefault values access = .error e) := by
  induction access generalizing values with
  | nil => exact .inl ⟨[], rfl, rfl⟩
  | cons x access ih =>
    rcases x with e | ⟨k, v⟩
    · exact .inr ⟨[], e, access, rfl, rfl⟩
    rcases ih (values.insert k v).2 with ⟨l, rfl, h⟩ | ⟨l, e, rest, rfl, h⟩
    · exact .inl ⟨(k, v) :: l, rfl, h⟩
    · exact .inr ⟨(k, v) :: l, e, rest, rfl, h⟩

/-- `serde`'s `BTreeMap` decoding on any access: the error of the first entry that fails
to read; when all read, a map holding for each key the value of its last entry, a
repeated key being no error. -/
theorem deserializeBTreeMap_eq (access : MapAccess T K V) :
    (∃ l : List (K × V), access = l.map .ok ∧
      deserializeBTreeMap access = .ok (BTreeMap.collect l) ∧
      ∀ k, (BTreeMap.collect l).get? k = l.reverse.lookup k) ∨
    (∃ (l : List (K × V)) (e : DeError T) (rest : MapAccess T K V),
      access = l.map .ok ++ .error e :: rest ∧ deserializeBTreeMap access = .error e) := by
  refine (visitMapDefault_eq BTreeMap.empty access).imp (fun ⟨l, hl, h⟩ => ⟨l, hl, h, fun k => ?_⟩) id
  rw [BTreeMap.collect, BTreeMap.get?_foldl_insert, BTreeMap.get?_empty, Option.or_none]

/-- The two map decodings agree wherever `deserialize_reject_duplicates` succeeds, and it
succeeds exactly where `serde`'s own decoding does on entries that all read with no key
repeated. -/
theorem deserializeRejectDuplicates_eq_ok_iff (access : MapAccess T K V) (m : BTreeMap K V) :
    deserializeRejectDuplicates access = .ok m ↔
      deserializeBTreeMap access = .ok m ∧
        ∃ l : List (K × V), access = l.map .ok ∧ (l.map Prod.fst).Nodup := by
  constructor
  · intro h
    rcases visitMap_eq BTreeMap.empty access with ⟨l, rfl, hn, -, h'⟩ | ⟨l, e, rest, rfl, -, -, h'⟩ |
      ⟨l, k, v, rest, rfl, -, -, -, h'⟩
    · exact ⟨by rw [deserializeBTreeMap_map_ok, ← h]; exact h'.symm, l, rfl, hn⟩
    all_goals rw [deserializeRejectDuplicates, h'] at h; cases h
  · rintro ⟨h, l, rfl, hn⟩
    rw [deserializeBTreeMap_map_ok] at h
    rw [deserializeRejectDuplicates, visitMap_map_ok, if_pos ⟨hn, by simp⟩, ← h]
    rfl

end Visitors

/-- A map access whose values all decode, each to a value related to the one it was
written from, is a list of entries that all read, with the same keys in the same
order. -/
theorem MapAccess.ofEntries_map {f : W → Except (DeError T) V} {g : U → W}
    {r : V → U → Prop} {l : List (K × U)} (h : ∀ e ∈ l, ∃ v, f (g e.2) = .ok v ∧ r v e.2) :
    ∃ l' : List (K × V), MapAccess.ofEntries f (l.map fun e => (e.1, g e.2)) = l'.map .ok ∧
      List.Forall₂ (fun a b => a.1 = b.1 ∧ r a.2 b.2) l' l := by
  induction l with
  | nil => exact ⟨[], rfl, .nil⟩
  | cons e l ih =>
    obtain ⟨v, hv, hr⟩ := h e (List.mem_cons_self e l)
    obtain ⟨l', hl', hf⟩ := ih fun e he => h e (List.mem_cons_of_mem _ he)
    refine ⟨(e.1, v) :: l', ?_, .cons ⟨rfl, hr⟩ hf⟩
    simp only [MapAccess.ofEntries, List.map_cons] at hl' ⊢
    rw [hv, hl']
    rfl

/-- A map access reads as a list of entries exactly when each value decodes, the keys
kept in document order. -/
theorem MapAccess.ofEntries_eq_map_ok {f : W → Except (DeError T) V} {ws : List (K × W)}
    {l : List (K × V)} :
    MapAccess.ofEntries f ws = l.map .ok ↔
      List.Forall₂ (fun a b => a.1 = b.1 ∧ f a.2 = .ok b.2) ws l := by
  unfold MapAccess.ofEntries
  induction ws generalizing l with
  | nil => cases l <;> simp
  | cons e ws ih =>
    cases l with
    | nil => simp
    | cons b l =>
      rw [List.map_cons, List.map_cons, List.cons.injEq, ih, List.forall₂_cons]
      cases h : f e.2 <;> simp [h, Except.map, Prod.ext_iff]

section Decoded

variable {f : W → Except (DeError T) V} {ws : List (K × W)} {l : List (K × V)}

theorem exists_ok_of_forall₂ (h : List.Forall₂ (fun a b => a.1 = b.1 ∧ f a.2 = .ok b.2) ws l) :
    ∀ e ∈ ws, ∃ v, f e.2 = .ok v := by
  induction h with
  | nil => simp
  | cons hab _ ih => exact List.forall_mem_cons.mpr ⟨⟨_, hab.2⟩, ih⟩

/-- An entry of the decoded list is an entry of the document whose value decodes to it. -/
theorem mem_iff_of_forall₂_ok (h : List.Forall₂ (fun a b => a.1 = b.1 ∧ f a.2 = .ok b.2) ws l)
    {k : K} {v : V} : (k, v) ∈ l ↔ ∃ w, (k, w) ∈ ws ∧ f w = .ok v := by
  induction h with
  | nil => simp
  | @cons a b ws l hab _ ih =>
    rcases a with ⟨ka, w⟩
    rcases b with ⟨kb, vb⟩
    obtain ⟨rfl, hw⟩ : ka = kb ∧ f w = .ok vb := hab
    simp only [List.mem_cons, Prod.mk.injEq, ih]
    constructor
    · rintro (⟨rfl, rfl⟩ | ⟨w', hw', hf⟩)
      · exact ⟨w, .inl ⟨rfl, rfl⟩, hw⟩
      · exact ⟨w', .inr hw', hf⟩
    · rintro ⟨w', ⟨rfl, rfl⟩ | hw', hf⟩
      · exact .inl ⟨rfl, Except.ok.inj (hf.symm.trans hw)⟩
      · exact .inr ⟨w', hw', hf⟩

theorem exists_forall₂_ok : ∀ {ws : List (K × W)}, (∀ e ∈ ws, ∃ v, f e.2 = .ok v) →
    ∃ l : List (K × V), List.Forall₂ (fun a b => a.1 = b.1 ∧ f a.2 = .ok b.2) ws l
  | [], _ => ⟨[], .nil⟩
  | e :: ws, h => by
    obtain ⟨v, hv⟩ := h e (List.mem_cons_self e ws)
    obtain ⟨l, hl⟩ := exists_forall₂_ok fun x hx => h x (List.mem_cons_of_mem e hx)
    exact ⟨(e.1, v) :: l, .cons ⟨rfl, hv⟩ hl⟩

/-- The entries of a document whose keys do not repeat, listed in another order, decode
to the same entries in that order. -/
theorem forall₂_ok_perm {ws' : List (K × W)} (hp : ws.Perm ws') (hn : (ws.map Prod.fst).Nodup)
    (hl : List.Forall₂ (fun a b => a.1 = b.1 ∧ f a.2 = .ok b.2) ws l) :
    ∃ l', List.Forall₂ (fun a b => a.1 = b.1 ∧ f a.2 = .ok b.2) ws' l' ∧ l.Perm l' := by
  obtain ⟨l', hl'⟩ := exists_forall₂_ok fun e he => exists_ok_of_forall₂ hl e (hp.mem_iff.mpr he)
  have hn' : (ws'.map Prod.fst).Nodup := (hp.map _).nodup_iff.mp hn
  refine ⟨l', hl', (List.perm_ext_iff_of_nodup ?_ ?_).mpr fun ⟨k, v⟩ => ?_⟩
  · exact List.Nodup.of_map Prod.fst (map_fst_eq_of_forall₂ (r := fun w v => f w = .ok v) hl ▸ hn)
  · exact List.Nodup.of_map Prod.fst (map_fst_eq_of_forall₂ (r := fun w v => f w = .ok v) hl' ▸ hn')
  · simp only [mem_iff_of_forall₂_ok hl, mem_iff_of_forall₂_ok hl', hp.mem_iff]

end Decoded

section Values

variable [LinearOrder K]

/-- A map whose values are each written by `g` and read back by `f` as a related
value comes back as a map with the same keys in the same order. -/
theorem deserializeRejectDuplicates_ofEntries {f : W → Except (DeError T) V} {g : U → W}
    {r : V → U → Prop} (m : BTreeMap K U) (h : ∀ e ∈ m.entries, ∃ v, f (g e.2) = .ok v ∧ r v e.2) :
    ∃ m' : BTreeMap K V, deserializeRejectDuplicates
        (MapAccess.ofEntries f (m.entries.map fun e => (e.1, g e.2))) = .ok m' ∧
      List.Forall₂ (fun a b => a.1 = b.1 ∧ r a.2 b.2) m'.entries m.entries := by
  obtain ⟨l', hl, hf⟩ := MapAccess.ofEntries_map h
  have hs : (l'.map Prod.fst).Sorted (· < ·) := by rw [map_fst_eq_of_forall₂ hf]; exact m.sorted
  exact ⟨⟨l', hs⟩, by rw [hl]; exact deserializeRejectDuplicates_entries ⟨l', hs⟩, hf⟩

/-- The same for `serde`'s own map decoding. -/
theorem deserializeBTreeMap_ofEntries {f : W → Except (DeError T) V} {g : U → W}
    {r : V → U → Prop} (m : BTreeMap K U) (h : ∀ e ∈ m.entries, ∃ v, f (g e.2) = .ok v ∧ r v e.2) :
    ∃ m' : BTreeMap K V, deserializeBTreeMap
        (MapAccess.ofEntries f (m.entries.map fun e => (e.1, g e.2))) = .ok m' ∧
      List.Forall₂ (fun a b => a.1 = b.1 ∧ r a.2 b.2) m'.entries m.entries := by
  obtain ⟨l', hl, hf⟩ := MapAccess.ofEntries_map h
  have hs : (l'.map Prod.fst).Sorted (· < ·) := by rw [map_fst_eq_of_forall₂ hf]; exact m.sorted
  exact ⟨⟨l', hs⟩, by rw [hl, deserializeBTreeMap_map_ok, BTreeMap.collect_of_sorted hs], hf⟩

/-- `deserialize_reject_duplicates` over an object whose values are read by `f`: when it
succeeds, the document's keys are distinct, every value of it decodes, and the map holds
exactly the document's entries, each value decoded. -/
theorem deserializeRejectDuplicates_ofEntries_eq_ok {f : W → Except (DeError T) V}
    {ws : List (K × W)} {m : BTreeMap K V}
    (h : deserializeRejectDuplicates (MapAccess.ofEntries f ws) = .ok m) :
    (ws.map Prod.fst).Nodup ∧ m.len = ws.length ∧
      (∀ k v, (k, v) ∈ m.entries ↔ ∃ w, (k, w) ∈ ws ∧ f w = .ok v) ∧
      ∀ e ∈ ws, ∃ v, f e.2 = .ok v := by
  rcases visitMap_eq BTreeMap.empty (MapAccess.ofEntries f ws) with ⟨l, hl, hn, -, h'⟩ |
    ⟨l, e, rest, -, -, -, h'⟩ | ⟨l, k, v, rest, -, -, -, -, h'⟩
  · rw [deserializeRejectDuplicates, h'] at h
    obtain rfl : BTreeMap.collect l = m := Except.ok.inj h
    have hf := MapAccess.ofEntries_eq_map_ok.mp hl
    refine ⟨map_fst_eq_of_forall₂ (r := fun w v => f w = .ok v) hf ▸ hn,
      (BTreeMap.len_collect hn).trans hf.length_eq.symm, fun k v => ?_, exists_ok_of_forall₂ hf⟩
    rw [(BTreeMap.entries_collect_perm hn).mem_iff]
    exact mem_iff_of_forall₂_ok hf
  all_goals rw [deserializeRejectDuplicates, h'] at h; cases h

/-- `serde`'s own map decoding over an object whose values are read by `f`: when it
succeeds, every value of the document decodes, an overwritten one included, and each key
holds the value of its last entry. -/
theorem deserializeBTreeMap_ofEntries_eq_ok {f : W → Except (DeError T) V}
    {ws : List (K × W)} {m : BTreeMap K V}
    (h : deserializeBTreeMap (MapAccess.ofEntries f ws) = .ok m) :
    (∀ e ∈ ws, ∃ v, f e.2 = .ok v) ∧
      ∀ k v, m.get? k = some v ↔ ∃ w, ws.reverse.lookup k = some w ∧ f w = .ok v := by
  rcases deserializeBTreeMap_eq (MapAccess.ofEntries f ws) with ⟨l, hl, h', hg⟩ |
    ⟨l, e, rest, -, h'⟩
  · rw [h'] at h
    cases h
    have hf := MapAccess.ofEntries_eq_map_ok.mp hl
    refine ⟨exists_ok_of_forall₂ hf, fun k v => ?_⟩
    have hr := lookup_rel_of_forall₂ (r := fun w v => f w = .ok v) (List.forall₂_reverse_iff.mpr hf) k
    rw [hg]
    generalize ws.reverse.lookup k = a at hr ⊢
    generalize l.reverse.lookup k = b at hr ⊢
    cases hr with
    | none => simp
    | some hab => simp [hab]
  · rw [h'] at h
    cases h

/-- `deserialize_reject_duplicates` over values read by `f` gives the same map when the
document lists its entries in another order. -/
theorem deserializeRejectDuplicates_ofEntries_perm {f : W → Except (DeError T) V}
    {ws ws' : List (K × W)} (hp : ws.Perm ws') {m : BTreeMap K V}
    (h : deserializeRejectDuplicates (MapAccess.ofEntries f ws) = .ok m) :
    deserializeRejectDuplicates (MapAccess.ofEntries f ws') = .ok m := by
  rcases visitMap_eq BTreeMap.empty (MapAccess.ofEntries f ws) with ⟨l, hl, hn, -, h'⟩ |
    ⟨l, e, rest, -, -, -, h'⟩ | ⟨l, k, v, rest, -, -, -, -, h'⟩
  · rw [deserializeRejectDuplicates, h'] at h
    obtain rfl : BTreeMap.collect l = m := Except.ok.inj h
    have hf := MapAccess.ofEntries_eq_map_ok.mp hl
    obtain ⟨l', hl', hpl⟩ :=
      forall₂_ok_perm hp (map_fst_eq_of_forall₂ (r := fun w v => f w = .ok v) hf ▸ hn) hf
    rw [MapAccess.ofEntries_eq_map_ok.mpr hl', deserializeRejectDuplicates_map_ok_iff]
    exact ⟨(hpl.map _).nodup_iff.mp hn, BTreeMap.collect_perm hpl hn⟩
  all_goals rw [deserializeRejectDuplicates, h'] at h; cases h

/-- The same for `serde`'s own map decoding, on documents whose keys do not repeat. -/
theorem deserializeBTreeMap_ofEntries_perm {f : W → Except (DeError T) V}
    {ws ws' : List (K × W)} (hp : ws.Perm ws') (hn : (ws.map Prod.fst).Nodup) {m : BTreeMap K V}
    (h : deserializeBTreeMap (MapAccess.ofEntries f ws) = .ok m) :
    deserializeBTreeMap (MapAccess.ofEntries f ws') = .ok m := by
  rcases visitMapDefault_eq BTreeMap.empty (MapAccess.ofEntries f ws) with ⟨l, hl, h'⟩ |
    ⟨l, e, rest, -, h'⟩
  · rw [deserializeBTreeMap, h'] at h
    obtain rfl : BTreeMap.collect l = m := Except.ok.inj h
    have hf := MapAccess.ofEntries_eq_map_ok.mp hl
    obtain ⟨l', hl', hpl⟩ := forall₂_ok_perm hp hn hf
    rw [MapAccess.ofEntries_eq_map_ok.mpr hl', deserializeBTreeMap_map_ok,
      BTreeMap.collect_perm hpl (map_fst_eq_of_forall₂ (r := fun w v => f w = .ok v) hf ▸ hn)]
  · rw [deserializeBTreeMap, h'] at h
    cases h

end Values

end RustTuf.Serde
