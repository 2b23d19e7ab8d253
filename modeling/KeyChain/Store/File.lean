import KeyChain.Store.Document
/-! Opening, flushing and closing a store. An open store holds a lock on the lock file of its root:
   shared for look-ups, exclusive for changes. The whole file is read on opening; flushing writes
   a draft and moves it into place, so that a reader finds the old content or the new. Closing
   flushes what is not yet flushed and then lets the lock go; a failure of that flush is silent. -/
namespace KeyChain.Store

/-- The lock of a root. Where the lock file cannot be made, nothing can be written either, and a
    store is opened for look-ups without a lock. -/
def acquire (path : Path) (mode : LockMode) : Program (Except KeychainError (Option LockId)) := do
  match ← Program.lock path mode with
  | .ok lock => return .ok (some lock)
  | .error cause =>
    if mode = .shared ∧ cause.barsWriting then return .ok none
    else return .error (.store path cause)

/-- The links in a store file; a file that is not there holds none. -/
def load (path : Path) : Program (Except KeychainError Links) := do
  match ← Program.read path with
  | .ok content => return StoreDocument.readLinks path content
  | .error .noSuchFile => return .ok OrderedMap.empty
  | .error cause => return .error (.store path cause)

/-- Lets a lock go, if there is one. -/
def release : Option LockId → Program Unit
  | none => return ()
  | some lock => Program.unlock lock

/-- Locks and reads the store of a root. -/
def openAt (root : Path) (mode : LockMode) : Program (Except KeychainError Store) := do
  match ← acquire (lockPathFor root) mode with
  | .error e => return .error e
  | .ok lock =>
    match ← load (pathFor root) with
    | .error e =>
      release lock
      return .error e
    | .ok links => return .ok ⟨pathFor root, links, false, mode, lock⟩

/-- Writes the draft and moves it into place. -/
def save (s : Store) : Program (Except KeychainError Unit) := do
  match ← Program.create s.draftPath with
  | .error cause => return .error (.store s.draftPath cause)
  | .ok () =>
    match ← Program.write s.draftPath (StoreDocument.content s.links) with
    | .error cause => return .error (.store s.draftPath cause)
    | .ok () =>
      match ← Program.rename s.draftPath s.path with
      | .error cause => return .error (.store s.path cause)
      | .ok () => return .ok ()

/-- Writes the changes to the file. A store without changes touches no file; if writing fails, the
    changes stay to be written. -/
def flush (s : Store) : Program (Except KeychainError Unit × Store) := do
  if s.dirty then
    match ← s.save with
    | .error e => return (.error e, s)
    | .ok () => return (.ok (), { s with dirty := false })
  else return (.ok (), s)

/-- Flushes what is left and lets the lock go. -/
def close (s : Store) : Program Unit := do
  let _ ← s.flush
  release s.lock

end KeyChain.Store
