import KeyChain.Keyring.Vault
import KeyChain.Store
/-! Upward searches. A file belongs to the nearest directory above it that holds a store or its lock
   file, and its key is the one bound to it or to the nearest directory above it within that
   root. -/
namespace KeyChain

/-- Whether a directory holds a store or the lock file of one. -/
def holdsStore (l : Location) : Program Bool := do
  if ← Program.isPresent (Store.lockPathFor l.path) then return true
  else Program.isPresent (Store.pathFor l.path)

/-- The first of some locations that holds a store. -/
def firstStore : List Location → Program (Option Location)
  | [] => return none
  | l :: rest => do
    if ← holdsStore l then return some l else firstStore rest

/-- The root that a file belongs to. Without a store above it, a directory is its own root, and a file
    belongs to the directory it is in. -/
def findRoot (l : Location) : Program Location := do
  match ← firstStore l.ancestors with
  | some root => return root
  | none => return if ← Program.isDirectory l.path then l else l.parent

/-- The key bound to the first of some locations that has one, up to the root. -/
def Keyring.nearest (r : Keyring) (root : Location) : List Location → Option Key
  | [] => none
  | l :: rest =>
    match r.pathKey? l.path with
    | some key => some key
    | none => if l = root then none else nearest r root rest

/-- The key of a file under a root. -/
def Keyring.nodeKey (r : Keyring) (root l : Location) : Option Key := r.nearest root l.ancestors

end KeyChain
