import KeyChain.Crypto.Hkdf
import KeyChain.Error
import KeyChain.Random
/-! Keys: a secret of 64 bytes with the algorithm it is meant for and the identifier that names it.
   `Key.ofSecret` clears the bytes an algorithm does not use before it derives the identifier, so
   building a key again from its own secret changes nothing (`ofSecret_secret`). A key of the
   invalid algorithm closes a chain or is half of a decoy. -/
namespace KeyChain

/-- Bytes of a secret. -/
def secretSize : Nat := 64

abbrev Secret := FixedBytes secretSize

structure Key where
  id : KeyId
  algorithm : Algorithm
  secret : Secret
  /-- The place in a keyring, for a key that was found there. -/
  index : Option UInt32
  deriving DecidableEq

/-- The identifier of a secret. -/
def Secret.keyId (secret : Secret) : KeyId :=
  KeyId.ofBytes (Hkdf.derive 8 secret.bytes (Bytes.utf8 "kcfs-keyid"))

/-- The secret without the bytes that an algorithm does not use. -/
def Algorithm.trim (a : Algorithm) (secret : Secret) : Secret :=
  if a.isValid then secret.clearFrom a.keyLength else secret

namespace Key

/-- The key of a secret, under the identifier derived from it. -/
def ofSecret (a : Algorithm) (secret : Secret) : Key :=
  let trimmed := a.trim secret
  ⟨trimmed.keyId, a, trimmed, none⟩

/-- A key of fresh random bytes. -/
def random (a : Algorithm) (source : RandomSource) : Key × RandomSource :=
  let (secret, source) := source.draw secretSize
  (ofSecret a secret, source)

/-- A fresh key that closes a chain. -/
def terminal (source : RandomSource) : Key × RandomSource := random .invalid source

def isTerminal (k : Key) : Bool := !k.algorithm.isValid

/-- The bytes of the secret that the algorithm uses; all of them if there is no cipher. -/
def material (k : Key) : Bytes :=
  if k.algorithm.isValid then k.secret.bytes.take k.algorithm.keyLength else k.secret.bytes

def withIndex (k : Key) (index : UInt32) : Key := { k with index := some index }

def sameSecret (a b : Key) : Bool := a.secret == b.secret

/-- Whether two keys are the same key. One identifier for two secrets is a corruption. -/
def isSame (a b : Key) : Except KeychainError Bool :=
  if a.id ≠ b.id then .ok false
  else if a.sameSecret b then .ok true
  else .error (.corrupted (.collision a.id))

/-- A description that does not show the secret. -/
def describe (k : Key) : String :=
  let algorithm :=
    match k.algorithm with
    | .invalid => "Invalid"
    | .aes128Xts => "Aes128Xts"
    | .aes256Xts => "Aes256Xts"
    | .camellia128Xts => "Camellia128Xts"
    | .camellia256Xts => "Camellia256Xts"
  let index :=
    match k.index with
    | none => "None"
    | some i => s!"Some({i})"
  s!"Key \x7b id: KeyId({k.id.value}), algorithm: {algorithm}, secret: \"[REDACTED]\", index: {index} \x7d"

@[simp] theorem algorithm_ofSecret (a : Algorithm) (s : Secret) : (ofSecret a s).algorithm = a := rfl

@[simp] theorem index_ofSecret (a : Algorithm) (s : Secret) : (ofSecret a s).index = none := rfl

@[simp] theorem secret_ofSecret (a : Algorithm) (s : Secret) : (ofSecret a s).secret = a.trim s := rfl

theorem id_ofSecret (a : Algorithm) (s : Secret) : (ofSecret a s).id = (a.trim s).keyId := rfl

theorem trim_trim (a : Algorithm) (s : Secret) : a.trim (a.trim s) = a.trim s := by
  unfold Algorithm.trim
  split
  · exact FixedBytes.clearFrom_clearFrom _ s
  · rfl

/-- A key is built again from its algorithm and its secret. -/
theorem ofSecret_secret (a : Algorithm) (s : Secret) :
    ofSecret a (ofSecret a s).secret = ofSecret a s := by
  simp only [ofSecret, trim_trim]

end Key

end KeyChain
