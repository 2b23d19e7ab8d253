import KeyChain.Crypto.XChaCha20Poly1305
import KeyChain.Key
/-! Links: a child key encrypted under its parent. A record is a nonce of 24 bytes, the encrypted
   payload of 73 bytes and a tag of 16 bytes, and authenticates the identifier of the parent. The
   payload is the child's identifier, the tag of its algorithm and its whole secret, so links,
   seals and decoys look alike. Main statements: a payload is read back from its bytes and has one
   spelling (`Payload.ofBytes?_bytes`, `Payload.bytes_of_ofBytes?`). -/
namespace KeyChain

/-- An encrypted link. -/
abbrev Record := FixedBytes recordSize

/-- What a link says about the child. -/
structure Payload where
  id : KeyId
  tag : UInt8
  secret : Secret
  deriving DecidableEq

namespace Payload

def ofKey (child : Key) : Payload := ⟨child.id, child.algorithm.tag, child.secret⟩

def bytes (p : Payload) : Bytes := p.id.bytes ++ p.tag :: p.secret.bytes

/-- The payload that 73 bytes spell. -/
def ofBytes? (b : Bytes) : Option Payload :=
  match b.drop 8 with
  | [] => none
  | tag :: rest => do
    let id ← FixedBytes.ofBytes? 8 (b.take 8)
    let secret ← FixedBytes.ofBytes? secretSize rest
    return ⟨KeyId.ofBytes id, tag, secret⟩

@[simp] theorem length_bytes (p : Payload) : p.bytes.length = 73 := by
  simp [bytes, p.secret.length_eq, secretSize]

theorem ofBytes?_bytes (p : Payload) : ofBytes? p.bytes = some p := by
  have hid : FixedBytes.ofBytes? 8 p.id.bytes = some ⟨p.id.bytes, p.id.length_bytes⟩ := by
    simp [FixedBytes.ofBytes?]
  have hs := FixedBytes.ofBytes?_bytes p.secret
  simp only [ofBytes?, bytes, List.drop_left' p.id.length_bytes, List.take_left' p.id.length_bytes]
  simp [hid, hs, KeyId.ofBytes_bytes]

theorem bytes_of_ofBytes? {b : Bytes} {p : Payload} (h : ofBytes? b = some p) : p.bytes = b := by
  unfold ofBytes? at h
  split at h
  · cases h
  · next tag rest hdrop =>
    obtain ⟨id, hid, h⟩ := Option.bind_eq_some_iff.1 h
    obtain ⟨secret, hsecret, h⟩ := Option.bind_eq_some_iff.1 h
    cases h
    have hid := FixedBytes.bytes_of_ofBytes? hid
    have hsecret := FixedBytes.bytes_of_ofBytes? hsecret
    simp only [bytes, KeyId.bytes_ofBytes, hid, hsecret]
    rw [← hdrop, List.take_append_drop]

end Payload

namespace Link

/-- The key that all links of a parent are encrypted under. -/
def wrappingKey (parent : Key) : FixedBytes 32 :=
  Hkdf.derive 32 parent.secret.bytes (Bytes.utf8 "kcfs-chain-link")

/-- The record of a link under a given nonce. -/
def encryptWith (nonce : FixedBytes 24) (parent child : Key) : Record :=
  ⟨nonce.bytes ++ XChaCha20Poly1305.encrypt (wrappingKey parent) nonce parent.id.bytes
      (Payload.ofKey child).bytes,
    by simp [nonce.length_eq, recordSize]⟩

/-- The record of a link under a fresh nonce. -/
def encrypt (parent child : Key) (source : RandomSource) : Record × RandomSource :=
  let (nonce, source) := source.draw 24
  (encryptWith nonce parent child, source)

/-- The payload of a record, if it was encrypted under the parent. -/
def payload? (parent : Key) (record : Record) : Option Payload :=
  let nonce : FixedBytes 24 := ⟨record.bytes.take 24, by simp [record.length_eq, recordSize]⟩
  (XChaCha20Poly1305.decrypt? (wrappingKey parent) nonce parent.id.bytes (record.bytes.drop 24)).bind
    Payload.ofBytes?

/-- The child of a link. The identifier of a child that has a cipher is checked against its secret;
    that of a seal or a decoy says nothing and is taken as it is. -/
def decrypt (parent : Key) (record : Bytes) : Except KeychainError Key :=
  match FixedBytes.ofBytes? recordSize record with
  | none => .error (.invalidChain parent.id (.wrongSize record.length))
  | some record =>
    match payload? parent record with
    | none => .error (.invalidChain parent.id .undecryptable)
    | some payload =>
      match Algorithm.ofTag? payload.tag with
      | none => .error (.invalidChain parent.id (.unknownTag payload.tag))
      | some algorithm =>
        if algorithm.isValid ∧ payload.secret.keyId ≠ payload.id then
          .error (.corrupted (.identifierMismatch parent.id payload.id))
        else .ok ⟨payload.id, algorithm, payload.secret, none⟩

end Link

end KeyChain
