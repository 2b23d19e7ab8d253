import KeyChain.Crypto.ChaCha20
import KeyChain.Crypto.Poly1305
/-! Authenticated encryption with 24-byte nonces. `encrypt` gives the encrypted message and a tag of
   sixteen bytes; `decrypt?` gives the message back if the tag fits. Main statements: what was
   encrypted decrypts (`decrypt?_encrypt`), and what decrypts is what encryption writes
   (`encrypt_of_decrypt?`), so a message has exactly one encrypted form under a key and nonce. -/
namespace KeyChain.XChaCha20Poly1305

/-- The key of one message: the first sixteen nonce bytes select it. -/
def messageKey (key : FixedBytes 32) (nonce : FixedBytes 24) : FixedBytes 32 :=
  ChaCha20.subkey key ⟨nonce.bytes.take 16, by simp [nonce.length_eq]⟩

/-- The nonce under the message key: four zero bytes and the last eight nonce bytes. -/
def messageNonce (nonce : FixedBytes 24) : FixedBytes 12 :=
  ⟨List.replicate 4 0 ++ nonce.bytes.drop 16, by simp [nonce.length_eq]⟩

/-- The one-time authenticator key: the first half of key stream block 0. -/
def tagKey (key : FixedBytes 32) (nonce : FixedBytes 24) : FixedBytes 32 :=
  ⟨(ChaCha20.block (messageKey key nonce) 0 (messageNonce nonce)).take 32, by simp⟩

/-- Zero bytes up to a multiple of sixteen. -/
def filled (b : Bytes) : Bytes := b ++ List.replicate ((16 - b.length % 16) % 16) 0

/-- The tag over the associated data and the encrypted message, each filled up, and their
    lengths. -/
def tag (key : FixedBytes 32) (nonce : FixedBytes 24) (aad encrypted : Bytes) : Bytes :=
  Poly1305.tag (tagKey key nonce)
    (filled aad ++ filled encrypted ++ Bytes.ofNatLE 8 aad.length ++ Bytes.ofNatLE 8 encrypted.length)

/-- Exclusive or with the key stream from block 1 on. -/
def crypt (key : FixedBytes 32) (nonce : FixedBytes 24) (message : Bytes) : Bytes :=
  Bytes.xor message
    (ChaCha20.keyStream (messageKey key nonce) (messageNonce nonce) 1 message.length)

def encrypt (key : FixedBytes 32) (nonce : FixedBytes 24) (aad message : Bytes) : Bytes :=
  let encrypted := crypt key nonce message
  encrypted ++ tag key nonce aad encrypted

/-- The message, if the last sixteen bytes are the tag of the bytes before them. -/
def decrypt? (key : FixedBytes 32) (nonce : FixedBytes 24) (aad sealed : Bytes) : Option Bytes :=
  if sealed.length < 16 then none
  else
    let encrypted := sealed.take (sealed.length - 16)
    if sealed.drop (sealed.length - 16) = tag key nonce aad encrypted then
      some (crypt key nonce encrypted)
    else none

@[simp] theorem length_tag (key : FixedBytes 32) (nonce : FixedBytes 24) (aad encrypted : Bytes) :
    (tag key nonce aad encrypted).length = 16 := by simp [tag]

@[simp] theorem length_crypt (key : FixedBytes 32) (nonce : FixedBytes 24) (message : Bytes) :
    (crypt key nonce message).length = message.length := by
  rw [crypt, Bytes.length_xor]
  exact Nat.min_eq_left (ChaCha20.length_le_keyStream ..)

@[simp] theorem length_encrypt (key : FixedBytes 32) (nonce : FixedBytes 24) (aad message : Bytes) :
    (encrypt key nonce aad message).length = message.length + 16 := by simp [encrypt]

/-- Encryption is its own inverse. -/
theorem crypt_crypt (key : FixedBytes 32) (nonce : FixedBytes 24) (message : Bytes) :
    crypt key nonce (crypt key nonce message) = message := by
  have h := length_crypt key nonce message
  rw [crypt, h, crypt]
  exact Bytes.xor_xor_cancel _ _ (ChaCha20.length_le_keyStream ..)

theorem decrypt?_encrypt (key : FixedBytes 32) (nonce : FixedBytes 24) (aad message : Bytes) :
    decrypt? key nonce aad (encrypt key nonce aad message) = some message := by
  have hl := length_crypt key nonce message
  simp [decrypt?, encrypt, hl, List.take_left', List.drop_left', crypt_crypt]

theorem encrypt_of_decrypt? {key : FixedBytes 32} {nonce : FixedBytes 24} {aad sealed message : Bytes}
    (h : decrypt? key nonce aad sealed = some message) : encrypt key nonce aad message = sealed := by
  unfold decrypt? at h
  split at h
  · cases h
  · next hlen =>
    simp only at h
    split at h
    · next htag =>
      cases h
      simp only [encrypt, crypt_crypt]
      rw [← htag, List.take_append_drop]
    · cases h

end KeyChain.XChaCha20Poly1305
