import RustTuf.Shims.Codec

/-! What the four decoders accept, over every document. A decoded value passed every
constructor it went through (`valid_of_decode`, beside each decoder), and it is written
again as a document that decodes to it, up to the expiry's sub-second part, when its
expiry has a year in `0 ..= 9999`; the encoding of any other year is rejected. The
encodings tell values apart as `==` does, up to the sub-second part and the order of the
delegated roles, so two values are never written as one document. And what a decoder
accepts does not depend on the order in which a document lists the entries of its maps,
but for the targets, where a path written twice keeps its last description. -/

namespace RustTuf.Shims

open Metadata Serde Chrono

variable {T : Types}

/-! ### The expiry of an encoding -/

theorem year_mem_of_decodeRoot {V : Checks T} {m m' : Metadata.RootMetadata T}
    (h : decodeRoot V (encodeRoot m) = .ok m') : 0 ≤ m.expires.year ∧ m.expires.year ≤ 9999 := by
  obtain ⟨-, -, t, -, -, -, hp, -⟩ := decodeRoot_eq_ok h
  exact year_mem_of_parseDatetime_formatDatetime hp

theorem year_mem_of_decodeTimestamp {V : Checks T} {m m' : Metadata.TimestampMetadata T}
    (h : decodeTimestamp V (encodeTimestamp m) = .ok m') :
    0 ≤ m.expires.year ∧ m.expires.year ≤ 9999 :=
  year_mem_of_parseDatetime_formatDatetime (decodeTimestamp_eq_ok h).2.2.1

theorem year_mem_of_decodeSnapshot {V : Checks T} {m m' : Metadata.SnapshotMetadata T}
    (h : decodeSnapshot V (encodeSnapshot m) = .ok m') :
    0 ≤ m.expires.year ∧ m.expires.year ≤ 9999 := by
  obtain ⟨-, -, t, -, -, hp, -⟩ := decodeSnapshot_eq_ok h
  exact year_mem_of_parseDatetime_formatDatetime hp

theorem year_mem_of_decodeTargets {V : Checks T} {m m' : Metadata.TargetsMetadata T}
    (h : decodeTargets V (encodeTargets m) = .ok m') :
    0 ≤ m.expires.year ∧ m.expires.year ≤ 9999 := by
  obtain ⟨-, -, t, -, -, -, hp, -⟩ := decodeTargets_eq_ok h
  exact year_mem_of_parseDatetime_formatDatetime hp

/-- No value whose expiry has a year outside `0 ..= 9999` survives its encoding: the
document is rejected, whatever the checks. -/
theorem decode_encode_of_year_not_mem (V : Checks T) :
    (∀ m : Metadata.RootMetadata T, ¬ (0 ≤ m.expires.year ∧ m.expires.year ≤ 9999) →
      ∀ m', decodeRoot V (encodeRoot m) ≠ .ok m') ∧
    (∀ m : Metadata.TimestampMetadata T, ¬ (0 ≤ m.expires.year ∧ m.expires.year ≤ 9999) →
      ∀ m', decodeTimestamp V (encodeTimestamp m) ≠ .ok m') ∧
    (∀ m : Metadata.SnapshotMetadata T, ¬ (0 ≤ m.expires.year ∧ m.expires.year ≤ 9999) →
      ∀ m', decodeSnapshot V (encodeSnapshot m) ≠ .ok m') ∧
    (∀ m : Metadata.TargetsMetadata T, ¬ (0 ≤ m.expires.year ∧ m.expires.year ≤ 9999) →
      ∀ m', decodeTargets V (encodeTargets m) ≠ .ok m') :=
  ⟨fun _ hy _ h => hy (year_mem_of_decodeRoot h), fun _ hy _ h => hy (year_mem_of_decodeTimestamp h),
    fun _ hy _ h => hy (year_mem_of_decodeSnapshot h), fun _ hy _ h => hy (year_mem_of_decodeTargets h)⟩

/-! ### Decoded values are written again -/

/-- A decoded value whose expiry has a year in `0 ..= 9999` is written again as a
document that decodes to it, its expiry cut to the second and, for targets, its
delegated roles sorted by name. -/
theorem decode_encode_of_decode (V : Checks T) :
    (∀ w m, decodeRoot V w = .ok m → 0 ≤ m.expires.year ∧ m.expires.year ≤ 9999 →
      ∃ m', decodeRoot V (encodeRoot m) = .ok m' ∧
        m' ≈ { m with expires := m.expires.truncSubsec }) ∧
    (∀ w m, decodeTimestamp V w = .ok m → 0 ≤ m.expires.year ∧ m.expires.year ≤ 9999 →
      ∃ m', decodeTimestamp V (encodeTimestamp m) = .ok m' ∧
        m' ≈ { m with expires := m.expires.truncSubsec }) ∧
    (∀ w m, decodeSnapshot V w = .ok m → 0 ≤ m.expires.year ∧ m.expires.year ≤ 9999 →
      ∃ m', decodeSnapshot V (encodeSnapshot m) = .ok m' ∧
        m' ≈ { m with expires := m.expires.truncSubsec }) ∧
    (∀ w m, decodeTargets V w = .ok m → 0 ≤ m.expires.year ∧ m.expires.year ≤ 9999 →
      ∃ m', decodeTargets V (encodeTargets m) = .ok m' ∧
        m' ≈ { m with expires := m.expires.truncSubsec, delegations := ⟨m.delegations.keys,
          m.delegations.roles.mergeSort fun a b => a.name ≤ b.name⟩ }) := by
  refine ⟨fun w m h hy => ?_, fun w m h hy => ?_, fun w m h hy => ?_, fun w m h hy => ?_⟩
  · obtain ⟨hv, hk⟩ := RootMetadata.valid_of_decode h
    exact decodeRoot_encodeRoot_truncSubsec V hv hy hk
  · exact decodeTimestamp_encodeTimestamp_truncSubsec V (TimestampMetadata.valid_of_decode h) hy
  · exact decodeSnapshot_encodeSnapshot_truncSubsec V (SnapshotMetadata.valid_of_decode h) hy
  · exact decodeTargets_encodeTargets_truncSubsec V (TargetsMetadata.valid_of_decode h) hy

/-- The targets `targetsDocument` decodes to are written again, their roles `b, a` sorted
to `a, b`, as a document that decodes to them. -/
theorem decode_encode_of_decode_targetsDocument :
    decodeTargets (Checks.rustTuf Types.nat) targetsDocument = .ok targetsValue ∧
      (0 ≤ targetsValue.expires.year ∧ targetsValue.expires.year ≤ 9999) ∧
      ∃ m', decodeTargets (Checks.rustTuf Types.nat) (encodeTargets targetsValue) = .ok m' ∧
        m' ≈ { targetsValue with
          expires := targetsValue.expires.truncSubsec,
          delegations := ⟨targetsValue.delegations.keys,
            targetsValue.delegations.roles.mergeSort fun a b => a.name ≤ b.name⟩ } := by
  have h : decodeTargets (Checks.rustTuf Types.nat) targetsDocument = .ok targetsValue := rfl
  exact ⟨h, by decide, (decode_encode_of_decode (Checks.rustTuf Types.nat)).2.2.2 _ _ h (by decide)⟩

/-! ### Distinct values, distinct documents -/

/-- Two values with one encoding have related images `n₁` and `n₂`, once the first comes
back from its encoding as a relative of `n₁` and the second, whenever its encoding
decodes, as a relative of `n₂`. -/
theorem rel_of_encode_eq {α β ε : Type} {enc : α → β} {dec : β → Except ε α} {R : α → α → Prop}
    (hsymm : ∀ {a b}, R a b → R b a) (htrans : ∀ {a b c}, R a b → R b c → R a c)
    {m₁ m₂ n₁ n₂ : α} (h₁ : ∃ m', dec (enc m₁) = .ok m' ∧ R m' n₁)
    (h₂ : ∀ m', dec (enc m₂) = .ok m' → ∃ m'', dec (enc m₂) = .ok m'' ∧ R m'' n₂)
    (he : enc m₁ = enc m₂) : R n₁ n₂ := by
  obtain ⟨m', hd₁, r₁⟩ := h₁
  rw [he] at hd₁
  obtain ⟨m'', hd₂, r₂⟩ := h₂ m' hd₁
  obtain rfl := Except.ok.inj (hd₁.symm.trans hd₂)
  exact htrans (hsymm r₁) r₂

/-- Two values written as the same document are equal as values, up to the expiry's
sub-second part and, for targets, the order of the delegated roles; it is enough that
one of them has a four-digit year and, for a root, stores its keys under their own ids.
So a signature over a document binds one value. Decoding under the checks that accept
everything undoes every encoder, which is what the proof uses. -/
theorem encode_injective :
    (∀ m₁ m₂ : Metadata.RootMetadata T, 0 ≤ m₁.expires.year ∧ m₁.expires.year ≤ 9999 →
      (∀ e ∈ m₁.keys.entries, T.keyId e.2 = e.1) → encodeRoot m₁ = encodeRoot m₂ →
      { m₁ with expires := m₁.expires.truncSubsec } ≈ { m₂ with expires := m₂.expires.truncSubsec }) ∧
    (∀ m₁ m₂ : Metadata.TimestampMetadata T, 0 ≤ m₁.expires.year ∧ m₁.expires.year ≤ 9999 →
      encodeTimestamp m₁ = encodeTimestamp m₂ →
      { m₁ with expires := m₁.expires.truncSubsec } ≈ { m₂ with expires := m₂.expires.truncSubsec }) ∧
    (∀ m₁ m₂ : Metadata.SnapshotMetadata T, 0 ≤ m₁.expires.year ∧ m₁.expires.year ≤ 9999 →
      encodeSnapshot m₁ = encodeSnapshot m₂ →
      { m₁ with expires := m₁.expires.truncSubsec } ≈ { m₂ with expires := m₂.expires.truncSubsec }) ∧
    (∀ m₁ m₂ : Metadata.TargetsMetadata T, 0 ≤ m₁.expires.year ∧ m₁.expires.year ≤ 9999 →
      encodeTargets m₁ = encodeTargets m₂ →
      Metadata.TargetsMetadata.EquivUpToOrder { m₁ with expires := m₁.expires.truncSubsec }
        { m₂ with expires := m₂.expires.truncSubsec }) := by
  refine ⟨fun m₁ m₂ hy hk he => ?_, fun m₁ m₂ hy he => ?_, fun m₁ m₂ hy he => ?_,
    fun m₁ m₂ hy he => ?_⟩
  · have hk₂ : ∀ e ∈ m₂.keys.entries, T.keyId e.2 = e.1 := fun e he₂ => by
      have hw : (e.1, encodePublicKey e.2) ∈ (encodeRoot m₁).keys := by
        rw [he, (sorted_encodeRoot m₂).1.2]
        exact ⟨e.2, (HashMap.mem_iff_get? _).mp he₂, rfl⟩
      obtain ⟨k, hk₁, hke⟩ := ((sorted_encodeRoot m₁).1.2 _ _).mp hw
      obtain rfl := encodePublicKey_injective hke
      exact hk _ ((HashMap.mem_iff_get? _).mpr hk₁)
    exact rel_of_encode_eq (R := (· ≈ ·)) RootMetadata.equiv_symm RootMetadata.equiv_trans
      (decodeRoot_encodeRoot_truncSubsec (Checks.none T) ⟨rfl, rfl, rfl, rfl, rfl⟩ hy hk)
      (fun _ h => decodeRoot_encodeRoot_truncSubsec (Checks.none T) ⟨rfl, rfl, rfl, rfl, rfl⟩
        (year_mem_of_decodeRoot h) hk₂) he
  · exact rel_of_encode_eq (R := (· ≈ ·)) TimestampMetadata.equiv_symm TimestampMetadata.equiv_trans
      (decodeTimestamp_encodeTimestamp_truncSubsec (Checks.none T) ⟨rfl, rfl⟩ hy)
      (fun _ h => decodeTimestamp_encodeTimestamp_truncSubsec (Checks.none T) ⟨rfl, rfl⟩
        (year_mem_of_decodeTimestamp h)) he
  · exact rel_of_encode_eq (R := (· ≈ ·)) SnapshotMetadata.equiv_symm SnapshotMetadata.equiv_trans
      (decodeSnapshot_encodeSnapshot_truncSubsec (Checks.none T) ⟨rfl, fun _ _ => ⟨rfl, rfl⟩⟩ hy)
      (fun _ h => decodeSnapshot_encodeSnapshot_truncSubsec (Checks.none T)
        ⟨rfl, fun _ _ => ⟨rfl, rfl⟩⟩ (year_mem_of_decodeSnapshot h)) he
  · have hrt : ∀ m : Metadata.TargetsMetadata T, 0 ≤ m.expires.year ∧ m.expires.year ≤ 9999 →
        ∃ m', decodeTargets (Checks.none T) (encodeTargets m) = .ok m' ∧
          m'.EquivUpToOrder { m with expires := m.expires.truncSubsec } := fun m hy => by
      obtain ⟨m', h, hm⟩ := decodeTargets_encodeTargets_truncSubsec (Checks.none T)
        ⟨rfl, fun _ _ => rfl, fun _ => rfl, fun _ _ => rfl⟩ hy
      exact ⟨m', h, (equivUpToOrder_of_equiv_sorted hm).symm⟩
    exact rel_of_encode_eq (R := Metadata.TargetsMetadata.EquivUpToOrder)
      Metadata.TargetsMetadata.EquivUpToOrder.symm
      Metadata.TargetsMetadata.EquivUpToOrder.trans (hrt m₁ hy)
      (fun _ h => hrt m₂ (year_mem_of_decodeTargets h)) he

/-- `unsortedTargets` with its two roles listed the other way round. -/
def reversedTargets : Metadata.TargetsMetadata Types.nat :=
  { unsortedTargets with delegations :=
    ⟨unsortedTargets.delegations.keys, unsortedTargets.delegations.roles.reverse⟩ }

/-- The two orders of the roles are written as one document, and the values are equal up
to that order. -/
theorem encode_injective_reversedTargets :
    encodeTargets unsortedTargets = encodeTargets reversedTargets ∧
      Metadata.TargetsMetadata.EquivUpToOrder
        { unsortedTargets with expires := unsortedTargets.expires.truncSubsec }
        { reversedTargets with expires := reversedTargets.expires.truncSubsec } := by
  have he : encodeTargets unsortedTargets = encodeTargets reversedTargets :=
    encodeTargets_congr ⟨rfl, rfl, fun _ => .none, HashMap.equiv_refl _, _, List.reverse_perm _,
      List.forall₂_same.mpr fun d _ => Delegation.equiv_refl d⟩ (by decide)
  exact ⟨he, (encode_injective (T := Types.nat)).2.2.2 _ _ (by decide) he⟩

/-! ### The order of a document's entries -/

/-- Listing the entries of a key pool, of `meta`, or of the targets when no path repeats,
in another order changes nothing a decoder accepts. A key pool's entries are read in
document order and the first that does not read is the error, so it is the successful
decodings that reordering keeps. -/
theorem decode_perm (V : Checks T) :
    (∀ (w : Wire.RootMetadata T) l m, w.keys.Perm l → decodeRoot V w = .ok m →
      decodeRoot V { w with keys := l } = .ok m) ∧
    (∀ (w : Wire.Delegations T) l d, w.keys.Perm l → decodeDelegations V w = .ok d →
      decodeDelegations V { w with keys := l } = .ok d) ∧
    (∀ (w : Wire.SnapshotMetadata T) l m, w.meta.Perm l → decodeSnapshot V w = .ok m →
      decodeSnapshot V { w with meta := l } = .ok m) ∧
    (∀ (w : Wire.TargetsMetadata T) l m, w.targets.Perm l → (w.targets.map Prod.fst).Nodup →
      decodeTargets V w = .ok m → decodeTargets V { w with targets := l } = .ok m) := by
  refine ⟨fun w l m hp h => ?_, fun w l d hp h => ?_, fun w l m hp h => ?_,
    fun w l m hp hn h => ?_⟩
  · obtain ⟨B, -, -, hB, -⟩ := decodeRoot_eq_ok h
    rw [← h]
    simp only [decodeRoot, RootMetadata.deserialize, hB,
      deserializeRejectDuplicates_ofEntries_perm hp hB]
  · obtain ⟨B, hB, -⟩ := decodeDelegations_eq_ok h
    rw [← h]
    simp only [decodeDelegations, Delegations.deserialize, hB,
      deserializeRejectDuplicates_ofEntries_perm hp hB]
  · obtain ⟨B, -, -, hB, -⟩ := decodeSnapshot_eq_ok h
    rw [← h]
    simp only [decodeSnapshot, SnapshotMetadata.deserialize, hB,
      deserializeRejectDuplicates_ofEntries_perm hp hB]
  · obtain ⟨B, -, -, hB, -⟩ := decodeTargets_eq_ok h
    rw [← h]
    simp only [decodeTargets, TargetsMetadata.deserialize, hB,
      deserializeBTreeMap_ofEntries_perm hp hn hB]

end RustTuf.Shims
