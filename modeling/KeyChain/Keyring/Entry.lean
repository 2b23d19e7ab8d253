import KeyChain.Json.Text
import KeyChain.Keyring
/-! A keyring as the text of a vault entry: a JSON record of the keys, each with its algorithm and its
   whole secret, and of the bindings. Identifiers and places are not written; they follow from the
   secrets and from the order. -/
namespace KeyChain

/-- What an entry says before it is checked. -/
structure KeyringEntry where
  /-- Names of algorithms and base64 secrets. -/
  keys : List (String × String)
  /-- Paths and identifiers. -/
  paths : List (Path × String)

namespace KeyringEntry

def fieldNames : List String := ["keys", "paths"]

def keyFieldNames : List String := ["algorithm", "secret"]

def keyOfJson? (v : Json) : Option (String × String) := do
  match ← v.record? keyFieldNames with
  | [algorithm, secret] => return (← algorithm.text?, ← secret.text?)
  | _ => none

def pathOfJson? (v : Json) : Option (Path × String) := do
  match ← v.items? with
  | [path, id] => return (⟨← path.text?⟩, ← id.text?)
  | _ => none

def ofJson? (v : Json) : Option KeyringEntry := do
  match ← v.record? fieldNames with
  | [keys, paths] =>
    let keys ← (← keys.items?).mapM keyOfJson?
    let paths ← (← paths.items?).mapM pathOfJson?
    return ⟨keys, paths⟩
  | _ => none

def ofText? (text : String) : Option KeyringEntry := (Json.read? (Bytes.utf8 text)).bind ofJson?

/-- What is said of a text that is no entry. -/
def complaint : String := "not a keyring entry"

/-- The key that an entry's item spells. -/
def readKey (stored : String × String) : Except KeychainError Key :=
  match Algorithm.ofName? stored.1 with
  | none => .error (.keyring (.unknownAlgorithm stored.1))
  | some algorithm =>
    match Base64.decode stored.2 with
    | .error fault => .error (.keyring (.badSecret fault))
    | .ok bytes =>
      match FixedBytes.ofBytes? secretSize bytes with
      | none => .error (.keyring .secretLength)
      | some secret => .ok (Key.ofSecret algorithm secret)

/-- Adds the keys of an entry. -/
def restoreKeys (r : Keyring) : List (String × String) → Except KeychainError Keyring
  | [] => .ok r
  | stored :: rest =>
    match readKey stored with
    | .error e => .error e
    | .ok key =>
      match r.add key with
      | .error e => .error e
      | .ok r => restoreKeys r rest

/-- Adds the bindings of an entry. One to a key that is not installed is passed over. -/
def restorePaths (r : Keyring) : List (Path × String) → Except KeychainError Keyring
  | [] => .ok r
  | (path, text) :: rest =>
    match KeyId.ofHex? text with
    | none => .error (.keyring (.badBinding path))
    | some id =>
      match r.find? id with
      | none => restorePaths r rest
      | some key =>
        match r.bindPath path key with
        | .error e => .error e
        | .ok r => restorePaths r rest

/-- The keyring of an entry. -/
def restore (entry : KeyringEntry) : Except KeychainError Keyring :=
  match restoreKeys Keyring.empty entry.keys with
  | .error e => .error e
  | .ok r => restorePaths r entry.paths

def keyText (key : Key) : String :=
  "\x7b\"algorithm\":" ++ Json.quote key.algorithm.name ++
    ",\"secret\":" ++ Json.quote (Base64.encode key.secret.bytes) ++ "\x7d"

def pathText (binding : Path × KeyId) : String :=
  "[" ++ Json.quote binding.1.text ++ "," ++ Json.quote binding.2.toHex ++ "]"

/-- The text that keeps a keyring. -/
def text (r : Keyring) : String :=
  "\x7b\"keys\":[" ++ ",".intercalate (r.keys.map keyText) ++
    "],\"paths\":[" ++ ",".intercalate (r.boundPaths.map pathText) ++ "]\x7d"

end KeyringEntry

end KeyChain
