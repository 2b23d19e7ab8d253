import KeyChain.Link
/-! Links are written and read faithfully, and in one way.

   1. `payload?_encryptWith` and `bytes_of_payload?`: the record of a payload opens to that payload, and
      a record that opens is the one that encryption writes under its own nonce;
   2. `decrypt_encryptWith`: a child that is well-formed comes back as it is, less its place in a
      keyring;
   3. `encryptWith_of_decrypt`: what decrypts to a key is byte for byte what encrypting that key gives,
      so an accepted record has no second spelling;
   4. `decrypt_forged`: a child with a cipher and a foreign identifier is written but never read. -/
namespace KeyChain

/-- Whether the identifier of a key can be trusted: it is derived from the secret, or the key is terminal
    and its identifier says nothing. -/
def Key.Sound (k : Key) : Prop := k.isTerminal = true ∨ k.id = k.secret.keyId

theorem Key.sound_ofSecret (a : Algorithm) (s : Secret) : (Key.ofSecret a s).Sound :=
  .inr (Key.id_ofSecret a s)

theorem Key.isTerminal_ofSecret (a : Algorithm) (s : Secret) : (Key.ofSecret a s).isTerminal = !a.isValid :=
  rfl

/-- The key of a secret that repeats one byte. -/
def Key.ofByte (b : UInt8) : Key := .ofSecret .aes256Xts ⟨List.replicate secretSize b, List.length_replicate⟩

theorem Key.sound_ofByte (b : UInt8) : (Key.ofByte b).Sound := .inr rfl

theorem Key.algorithm_ofByte (b : UInt8) : (Key.ofByte b).algorithm = .aes256Xts := rfl

/-- Identifiers are hashes, so that these are distinct is found by computing them. -/
theorem Key.ids_ofByte_nodup : ([Key.ofByte 0, Key.ofByte 1, Key.ofByte 2].map Key.id).Nodup := by decide +kernel

theorem Key.id_ofByte_ne : (Key.ofByte 1).id ≠ (Key.ofByte 2).id := fun he =>
  (List.nodup_cons.1 (List.nodup_cons.1 Key.ids_ofByte_nodup).2).1 (List.mem_singleton.2 he)

theorem Algorithm.tag_of_ofTag? {t : UInt8} {a : Algorithm} (h : Algorithm.ofTag? t = some a) : a.tag = t := by
  have := List.find?_some h
  simpa using this

namespace Link

variable {parent : Key}

theorem length_take_nonce (record : Record) : (record.bytes.take 24).length = 24 := by
  rw [List.length_take, record.length_eq]
  rfl

/-- The nonce that a record starts with. -/
def nonceOf (record : Record) : FixedBytes 24 := ⟨record.bytes.take 24, length_take_nonce record⟩

theorem nonceOf_encryptWith (nonce : FixedBytes 24) (parent child : Key) :
    nonceOf (encryptWith nonce parent child) = nonce := by
  apply FixedBytes.ext
  exact List.take_left' nonce.length_eq

/-- The record of a link opens to what the link says. -/
theorem payload?_encryptWith (nonce : FixedBytes 24) (parent child : Key) :
    payload? parent (encryptWith nonce parent child) = some (Payload.ofKey child) := by
  have hnonce := nonceOf_encryptWith nonce parent child
  have hsealed : (encryptWith nonce parent child).bytes.drop 24 =
      XChaCha20Poly1305.encrypt (wrappingKey parent) nonce parent.id.bytes (Payload.ofKey child).bytes :=
    List.drop_left' nonce.length_eq
  unfold payload?
  unfold nonceOf at hnonce
  simp only [hnonce, hsealed, XChaCha20Poly1305.decrypt?_encrypt, Option.bind_some]
  exact Payload.ofBytes?_bytes _

/-- A record that opens is its nonce and then the encryption of its payload. -/
theorem bytes_of_payload? {record : Record} {p : Payload} (h : payload? parent record = some p) :
    record.bytes = (nonceOf record).bytes ++
      XChaCha20Poly1305.encrypt (wrappingKey parent) (nonceOf record) parent.id.bytes p.bytes := by
  obtain ⟨plain, hplain, hp⟩ := Option.bind_eq_some_iff.1 h
  have hsealed := XChaCha20Poly1305.encrypt_of_decrypt? hplain
  rw [Payload.bytes_of_ofBytes? hp]
  exact (List.take_append_drop 24 record.bytes).symm.trans (congrArg _ hsealed.symm)

/-- What a record decrypts to, said by its payload. -/
theorem decrypt_eq {record : Record} {p : Payload} {a : Algorithm} (hp : payload? parent record = some p)
    (ha : Algorithm.ofTag? p.tag = some a) :
    decrypt parent record.bytes =
      if a.isValid ∧ p.secret.keyId ≠ p.id then .error (.corrupted (.identifierMismatch parent.id p.id))
      else .ok ⟨p.id, a, p.secret, none⟩ := by
  unfold decrypt
  simp only [FixedBytes.ofBytes?_bytes, hp, ha]

theorem decrypt_encryptWith_eq (nonce : FixedBytes 24) (parent child : Key) :
    decrypt parent (encryptWith nonce parent child).bytes =
      if child.algorithm.isValid ∧ child.secret.keyId ≠ child.id then
        .error (.corrupted (.identifierMismatch parent.id child.id))
      else .ok { child with index := none } := by
  have htag : Algorithm.ofTag? (Payload.ofKey child).tag = some child.algorithm :=
    Algorithm.ofTag?_tag child.algorithm
  rw [decrypt_eq (payload?_encryptWith nonce parent child) htag]
  rfl

/-- A well-formed child comes back as it is, less its place in a keyring. -/
theorem decrypt_encryptWith (nonce : FixedBytes 24) (parent : Key) {child : Key} (h : child.Sound) :
    decrypt parent (encryptWith nonce parent child).bytes = .ok { child with index := none } := by
  rw [decrypt_encryptWith_eq, if_neg]
  intro h
  obtain ⟨hvalid, hid⟩ := h
  rcases h with h | h
  · simp [Key.isTerminal, hvalid] at h
  · exact hid h.symm

/-- A child with a cipher whose identifier is not that of its secret is refused when it is read. -/
theorem decrypt_forged (nonce : FixedBytes 24) (parent : Key) {child : Key}
    (hcipher : child.isTerminal = false) (hid : child.id ≠ child.secret.keyId) :
    decrypt parent (encryptWith nonce parent child).bytes =
      .error (.corrupted (.identifierMismatch parent.id child.id)) := by
  rw [decrypt_encryptWith_eq, if_pos]
  exact ⟨by simpa [Key.isTerminal] using hcipher, fun h => hid h.symm⟩

/-- A byte string that decrypts is a record, which opens to the payload of the key. -/
theorem payload?_of_decrypt {b : Bytes} {k : Key} (h : decrypt parent b = .ok k) :
    ∃ record : Record, record.bytes = b ∧ payload? parent record = some (Payload.ofKey k) := by
  unfold decrypt at h
  split at h
  · cases h
  · next record hrecord =>
    split at h
    · cases h
    · next p hp =>
      split at h
      · cases h
      · next a ha =>
        split at h
        · cases h
        · cases h
          refine ⟨record, FixedBytes.bytes_of_ofBytes? hrecord, ?_⟩
          rw [hp, Payload.ofKey, Algorithm.tag_of_ofTag? ha]

/-- What decrypts to a key is what encrypting the key under the nonce of the record writes. -/
theorem encryptWith_of_decrypt {b : Bytes} {k : Key} (h : decrypt parent b = .ok k) :
    ∃ nonce : FixedBytes 24, nonce.bytes = b.take 24 ∧ (encryptWith nonce parent k).bytes = b := by
  obtain ⟨record, rfl, hp⟩ := payload?_of_decrypt h
  exact ⟨nonceOf record, rfl, (bytes_of_payload? hp).symm⟩

/-- Under every parent and nonce a link is 113 bytes that give a well-formed child back, a forged child
    is refused, and every byte string that is accepted is the one link of its child under its nonce. -/
theorem link_faithful (parent : Key) :
    (∀ (child : Key) (source : RandomSource),
      encrypt parent child source = (encryptWith (source.draw 24).1 parent child, (source.draw 24).2)) ∧
    (∀ (nonce : FixedBytes 24) (child : Key), (encryptWith nonce parent child).bytes.length = 113) ∧
    (∀ (nonce : FixedBytes 24) (child : Key), child.Sound →
      decrypt parent (encryptWith nonce parent child).bytes = .ok { child with index := none }) ∧
    (∀ (b : Bytes) (k : Key), decrypt parent b = .ok k →
      ∃ nonce : FixedBytes 24, nonce.bytes = b.take 24 ∧ (encryptWith nonce parent k).bytes = b) ∧
    (∀ (nonce : FixedBytes 24) (child : Key), child.isTerminal = false → child.id ≠ child.secret.keyId →
      decrypt parent (encryptWith nonce parent child).bytes =
        .error (.corrupted (.identifierMismatch parent.id child.id))) :=
  ⟨fun _ _ => rfl, fun nonce child => (encryptWith nonce parent child).length_eq,
    fun nonce _ => decrypt_encryptWith nonce parent, fun _ _ => encryptWith_of_decrypt,
    fun nonce _ => decrypt_forged nonce parent⟩

end Link

end KeyChain
