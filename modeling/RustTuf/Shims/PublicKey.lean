import RustTuf.Serde.Map

/-! `shims::PublicKey`, the form in which a key of a key pool is written and read.
`crypto::PublicKey` is serialized as `PublicKey::new` of its parts, and deserialized by
reading the shim and building the key from what its getters return, which can fail: an
unknown key type, a scheme that does not fit the key, text that is no key. A failure is
handed to `Error::custom`, so a key pool's entry whose key does not read is an error of
the map access at that entry. -/

namespace RustTuf.Shims

open Serde

variable {T : Types}

/-- `shims::PublicKeyValue`. -/
structure PublicKeyValue where
  public : RStr

/-- `shims::PublicKey`; the getters `scheme`, `keytype` and `keyid_hash_algorithms` are
its fields. -/
structure PublicKey (T : Types) where
  keytype : T.KeyType
  scheme : T.SignatureScheme
  keyidHashAlgorithms : Option (List RStr)
  keyval : PublicKeyValue

/-- `PublicKey::new`. -/
def PublicKey.new (keytype : T.KeyType) (scheme : T.SignatureScheme)
    (keyidHashAlgorithms : Option (List RStr)) (publicKey : RStr) : PublicKey T :=
  ⟨keytype, scheme, keyidHashAlgorithms, ⟨publicKey⟩⟩

/-- `PublicKey::public_key`. -/
def PublicKey.publicKey (self : PublicKey T) : RStr := self.keyval.public

/-- Modelled from the spec: `crypto::PublicKey`'s `Serialize`, the shim of its parts. -/
def encodePublicKey (key : T.PublicKey) : PublicKey T :=
  PublicKey.new (T.keyType key) (T.scheme key) (T.keyidHashAlgorithms key) (T.publicKeyText key)

/-- Modelled from the spec: `crypto::PublicKey`'s `Deserialize`, the key built from the
shim's getters, a failure handed to `Error::custom`. -/
def decodePublicKey (w : PublicKey T) : Except (DeError T) T.PublicKey :=
  (T.publicKeyOf w.keytype w.scheme w.keyidHashAlgorithms w.publicKey).mapError .custom

@[simp] theorem decodePublicKey_encodePublicKey (key : T.PublicKey) :
    decodePublicKey (encodePublicKey key) = .ok key := by
  simp only [decodePublicKey, encodePublicKey, PublicKey.new, PublicKey.publicKey,
    T.publicKeyOf_parts, except_mapError_ok]

/-- No two keys are written as one shim. -/
theorem encodePublicKey_injective : Function.Injective (encodePublicKey (T := T)) := fun a b h =>
  Except.ok.inj (by rw [← decodePublicKey_encodePublicKey a, h, decodePublicKey_encodePublicKey])

/-- A key pool written key by key reads back entry by entry. -/
theorem ofEntries_encodePublicKey {K : Type} (keys : List (K × T.PublicKey)) :
    MapAccess.ofEntries decodePublicKey (keys.map fun e => (e.1, encodePublicKey e.2)) =
      keys.map .ok := by
  simp only [MapAccess.ofEntries, List.map_map]
  exact List.map_congr_left fun e _ => by simp [Except.map]

end RustTuf.Shims
