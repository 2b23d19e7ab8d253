import KeyChain.Json.Text
import KeyChain.Store
/-! The store file: a JSON record of a format version and a map from identifiers to base64 records.
   It is written with one link a line in ascending order. Reading is strict about what it knows: a
   document that is no such record, another version, and then the entries one by one in the order
   of their names: the name, the base64, and the length of the record. Two spellings of one
   identifier are one slot, which the later name fills. -/
namespace KeyChain

/-- A store document as it is written, its entries by name. -/
structure StoreDocument where
  version : Nat
  entries : OrderedMap String String

namespace StoreDocument

/-- The one version there is. -/
def currentVersion : Nat := 1

def fieldNames : List String := ["version", "links"]

def ofJson? (v : Json) : Option StoreDocument := do
  match ← v.record? fieldNames with
  | [version, links] =>
    let version ← version.natural? UInt32.size
    let entries ← links.textEntries?
    return ⟨version, OrderedMap.ofList entries⟩
  | _ => none

def ofBytes? (b : Bytes) : Option StoreDocument := (Json.read? b).bind ofJson?

/-- The link that one entry spells. -/
def readEntry (entry : String × String) : Except KeychainError (KeyId × Record) :=
  match KeyId.ofHex? entry.1 with
  | none => .error (.corrupted (.badIdentifier entry.1))
  | some id =>
    match Base64.decode entry.2 with
    | .error fault => .error (.corrupted (.badBase64 id fault))
    | .ok bytes =>
      match Record.ofBytes id bytes with
      | .error e => .error e
      | .ok record => .ok (id, record)

/-- The links that entries spell, or the first fault. -/
def readEntries : List (String × String) → Except KeychainError (List (KeyId × Record))
  | [] => .ok []
  | entry :: rest =>
    match readEntry entry with
    | .error e => .error e
    | .ok link =>
      match readEntries rest with
      | .error e => .error e
      | .ok links => .ok (link :: links)

/-- What is said of a file that holds no store document. -/
def complaint : String := "not a key chain store"

/-- The links in the content of a store file; the path is for messages. -/
def readLinks (path : Path) (content : Bytes) : Except KeychainError Links :=
  match ofBytes? content with
  | none => .error (.corrupted (.malformed path complaint))
  | some doc =>
    if doc.version ≠ currentVersion then
      .error (.corrupted (.unsupportedVersion path doc.version))
    else
      match readEntries doc.entries.entries with
      | .error e => .error e
      | .ok links => .ok (OrderedMap.ofList links)

/-- One link as it stands in the file. -/
def writeEntry (link : KeyId × Record) : String :=
  "    " ++ Json.quote link.1.toHex ++ ": " ++ Json.quote (Base64.encode link.2.bytes)

/-- The text of a store file. -/
def text (links : Links) : String :=
  let map :=
    match links.entries with
    | [] => "\x7b\x7d"
    | entries => "\x7b\n" ++ ",\n".intercalate (entries.map writeEntry) ++ "\n  \x7d"
  "\x7b\n  \"version\": 1,\n  \"links\": " ++ map ++ "\n\x7d"

/-- The content of a store file. -/
def content (links : Links) : Bytes := Bytes.utf8 (text links)

end StoreDocument

end KeyChain
