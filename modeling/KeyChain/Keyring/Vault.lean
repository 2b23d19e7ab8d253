import KeyChain.Keyring.Entry
/-! Keyrings that are kept in the vault, one entry for a root. The entry is written anew after every
   change, and deleted when no key is left. A change is made in memory first, so it stays there even
   if the vault refuses it. -/
namespace KeyChain

structure VaultKeyring where
  root : String
  keyring : Keyring

namespace VaultKeyring

/-- Opens the entry of a root and reads the keyring it keeps. -/
def connect (root : String) : Program (Except KeychainError VaultKeyring) := do
  match ← Program.openEntry root with
  | .error fault => return .error (.keyring (.entryUnavailable fault.message))
  | .ok () =>
    match ← Program.getEntry root with
    | .error .noEntry => return .ok ⟨root, Keyring.empty⟩
    | .error fault => return .error (.keyring (.unreadableEntry root fault.message))
    | .ok text =>
      match KeyringEntry.ofText? text with
      | none => return .error (.keyring (.malformedEntry root KeyringEntry.complaint))
      | some entry => return entry.restore.map fun keyring => ⟨root, keyring⟩

/-- Writes the entry, or deletes it if there is no key. -/
def save (v : VaultKeyring) : Program (Except KeychainError Unit) := do
  if v.keyring.keys.isEmpty then
    match ← Program.deleteEntry v.root with
    | .ok () | .error .noEntry => return .ok ()
    | .error fault => return .error (.keyring (.notDeleted fault.message))
  else
    match ← Program.setEntry v.root (KeyringEntry.text v.keyring) with
    | .ok () => return .ok ()
    | .error fault => return .error (.keyring (.notStored fault.message))

/-- Takes over a changed keyring and saves it; a failed change is not saved. -/
def commit (v : VaultKeyring) (changed : Except KeychainError Keyring) :
    Program (Except KeychainError Unit × VaultKeyring) := do
  match changed with
  | .error e => return (.error e, v)
  | .ok keyring =>
    let v := { v with keyring := keyring }
    return (← v.save, v)

def add (v : VaultKeyring) (key : Key) : Program (Except KeychainError Unit × VaultKeyring) :=
  v.commit (v.keyring.add key)

def remove (v : VaultKeyring) (key : Key) : Program (Except KeychainError Unit × VaultKeyring) :=
  v.commit (v.keyring.remove key)

def bindPath (v : VaultKeyring) (path : Path) (key : Key) :
    Program (Except KeychainError Unit × VaultKeyring) :=
  v.commit (v.keyring.bindPath path key)

/-- Removes all keys and bindings. -/
def clear (v : VaultKeyring) : Program (Except KeychainError Unit × VaultKeyring) :=
  v.commit (.ok Keyring.empty)

def adding (key : Key) : StateT VaultKeyring Program (Except KeychainError Unit) := fun v => v.add key

def removing (key : Key) : StateT VaultKeyring Program (Except KeychainError Unit) :=
  fun v => v.remove key

/-- Installs the keys of a chain, saving after each. -/
def install (v : VaultKeyring) (chain : Chain) :
    Program (Except KeychainError Nat × VaultKeyring) :=
  (chain.install adding).run v

/-- Removes the keys of a chain, saving after each. -/
def uninstall (v : VaultKeyring) (chain : Chain) :
    Program (List (KeyId × KeychainError) × VaultKeyring) :=
  (chain.uninstall removing).run v

end VaultKeyring

end KeyChain
