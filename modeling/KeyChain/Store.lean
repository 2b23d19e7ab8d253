import KeyChain.Link
import KeyChain.OrderedMap
import KeyChain.Program
/-! The store of a root while it is open: the links by the identifier of the key that opens them, and
   whether they differ from the file. A slot is written once: `insert` refuses one that is
   occupied, so a link is only ever replaced by removing it first. A store that is open for
   look-ups refuses every change (`insert_shared`, `remove_shared`). -/
namespace KeyChain

abbrev Links := OrderedMap KeyId Record

structure Store where
  /-- The store file, as messages show it. -/
  path : Path
  links : Links
  /-- Whether there are changes that the file does not have. -/
  dirty : Bool
  mode : LockMode
  lock : Option LockId

/-- The record that bytes spell, to be filed under an identifier. -/
def Record.ofBytes (parent : KeyId) (b : Bytes) : Except KeychainError Record :=
  match FixedBytes.ofBytes? recordSize b with
  | some record => .ok record
  | none => .error (.corrupted (.recordLength parent b.length))

namespace Store

def fileName : String := ".kcfs-keychain"

/-- The store file of a root. -/
def pathFor (root : Path) : Path := root.join fileName

/-- The lock file of a root. Every opening makes it, so it marks a directory as a root. -/
def lockPathFor (root : Path) : Path := (pathFor root).withEnding ".lock"

/-- The file that new content is written to before it takes the place of the old. -/
def draftPath (s : Store) : Path := s.path.withEnding ".tmp"

def lookup? (s : Store) (id : KeyId) : Option Record := s.links.get? id

/-- The identifiers of all keys that own a link, ascending. -/
def parents (s : Store) : List KeyId := s.links.keys

def size (s : Store) : Nat := s.links.size

def ensureWritable (s : Store) : Except KeychainError Unit :=
  match s.mode with
  | .exclusive => .ok ()
  | .shared => .error (.usage (.readOnlyStore s.path))

/-- Fills an empty slot. An occupied slot is left alone, and the answer is `false`. -/
def insert (s : Store) (id : KeyId) (record : Record) : Except KeychainError (Bool × Store) :=
  match s.ensureWritable with
  | .error e => .error e
  | .ok () =>
    match s.lookup? id with
    | some _ => .ok (false, s)
    | none => .ok (true, { s with links := s.links.insert id record, dirty := true })

/-- Empties a slot, and gives what was in it. -/
def remove (s : Store) (id : KeyId) : Except KeychainError (Option Record × Store) :=
  match s.ensureWritable with
  | .error e => .error e
  | .ok () =>
    match s.lookup? id with
    | none => .ok (none, s)
    | some record => .ok (some record, { s with links := s.links.erase id, dirty := true })

/-- Fills an empty slot in place. A store that refuses stays as it is. -/
def insertOn (s : Store) (id : KeyId) (record : Record) : Except KeychainError Bool × Store :=
  match s.insert id record with
  | .ok (filled, s) => (.ok filled, s)
  | .error e => (.error e, s)

/-- Empties a slot in place. -/
def removeOn (s : Store) (id : KeyId) : Except KeychainError (Option Record) × Store :=
  match s.remove id with
  | .ok (found, s) => (.ok found, s)
  | .error e => (.error e, s)

theorem insert_shared {s : Store} (h : s.mode = .shared) (id : KeyId) (record : Record) :
    s.insert id record = .error (.usage (.readOnlyStore s.path)) := by
  simp [insert, ensureWritable, h]

theorem remove_shared {s : Store} (h : s.mode = .shared) (id : KeyId) :
    s.remove id = .error (.usage (.readOnlyStore s.path)) := by
  simp [remove, ensureWritable, h]

end Store

end KeyChain
