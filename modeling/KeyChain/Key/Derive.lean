import KeyChain.Crypto.Argon2id
import KeyChain.Crypto.Blake3
import KeyChain.Key
import KeyChain.Key.Params
import KeyChain.Program
/-! Keys from passphrases and keyfiles. The passphrase and the digest of the keyfile are stretched by
   Argon2id under a fixed salt, so that a key can be found again from what its owner knows; the
   result is bound to the algorithm. `derive` is pure: the content of the keyfile is an argument,
   and `KeyParams.keyfile` only says where it came from. -/
namespace KeyChain

/-- The salt of all derivations. -/
def derivationSalt : Bytes := Bytes.utf8 "kcfs-keychain-v1"

/-- The largest number of lanes. -/
def maxLanes : Nat := 0xFFFFFF

namespace KeyParams

/-- The stretching cost, or why there is none: too little memory, no passes, too few or too many
    lanes. Eight blocks are needed for each lane, counted in 32 bits. -/
def cost? (p : KeyParams) (time : UInt32) : Except CostFault Argon2id.Cost :=
  if p.memory < 8 then .error .memoryTooSmall
  else if p.memory < p.parallelism * 8 then .error .memoryTooSmall
  else if time = 0 then .error .timeTooSmall
  else if p.parallelism = 0 then .error .tooFewLanes
  else if maxLanes < p.parallelism.toNat then .error .tooManyLanes
  else .ok ⟨time.toNat, p.memory.toNat, p.parallelism.toNat⟩

/-- The passphrase that counts: none if it is suppressed, otherwise one that is not empty. -/
def passphraseBytes (p : KeyParams) (passphrase : Option String) : Except KeychainError Bytes :=
  if p.noPassphrase then .ok []
  else
    match passphrase with
    | none => .error (.usage .emptyPassphrase)
    | some text => if text = "" then .error (.usage .emptyPassphrase) else .ok (Bytes.utf8 text)

end KeyParams

namespace Key

/-- The passphrase and, if there is a keyfile, the digest of its content. -/
def keyingMaterial (passphrase : Bytes) (keyfile : Option Bytes) : Bytes :=
  passphrase ++ (keyfile.map Blake3.hash).getD []

/-- The stretched material, bound to an algorithm. -/
def stretch (a : Algorithm) (cost : Argon2id.Cost) (material : Bytes) : Key :=
  let stretched := Argon2id.hash cost secretSize material derivationSalt
  ofSecret a (Hkdf.derive secretSize stretched (Bytes.utf8 s!"kcfs-key:{a.name}"))

/-- The key of a passphrase and the content of the keyfile, if one is set. -/
def derive (p : KeyParams) (passphrase : Option String)
    (keyfile : Option (Except SystemError Bytes)) : Except KeychainError Key := do
  let checked ← p.validate
  let passphrase ← p.passphraseBytes passphrase
  let content ←
    match p.keyfile, keyfile with
    | some _, some (.ok content) => pure (some content)
    | some path, some (.error cause) => throw (.usage (.unreadableKeyfile path cause))
    | _, _ => pure none
  match p.cost? checked.time with
  | .error fault => throw (.usage (.cost fault))
  | .ok cost => return stretch checked.algorithm cost (keyingMaterial passphrase content)

/-- The key of a passphrase, with the keyfile read from where the parameters say it is. -/
def load (p : KeyParams) (passphrase : Option String) : Program (Except KeychainError Key) := do
  match p.keyfile with
  | none => return derive p passphrase none
  | some path => return derive p passphrase (some (← Program.read path))

end Key

end KeyChain
