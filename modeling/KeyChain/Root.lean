import KeyChain.Decoy
import KeyChain.Store.File
/-! The key chains of a filesystem root. Each operation opens the store with the lock it needs and
   lets it go when it is done, so a root can be kept without holding its store. -/
namespace KeyChain

structure Root where
  path : Path
  deriving DecidableEq, Repr

namespace Root

/-- The chain that starts at a key. -/
def get (root : Root) (key : Key) (mode : ChainMode) : Program (Except KeychainError Chain) := do
  match ← Store.openAt root.path .shared with
  | .error e => return .error e
  | .ok store =>
    store.close
    return Chain.resolve store.links key mode

/-- The number of links, decoys among them. -/
def linkCount (root : Root) : Program (Except KeychainError Nat) := do
  match ← Store.openAt root.path .shared with
  | .error e => return .error e
  | .ok store =>
    store.close
    return .ok store.size

/-- Writes an edited store, unless the edit failed, and closes it. -/
def finish {α : Type} (store : Store) (result : Except KeychainError α) :
    Program (Except KeychainError α) := do
  match result with
  | .error e =>
    store.close
    return .error e
  | .ok a =>
    let (flushed, store) ← store.flush
    store.close
    return flushed.map fun () => a

/-- Links a parent to a target. -/
def set (root : Root) (parent : Key) (target : LinkTarget) (source : RandomSource) :
    Program (Except KeychainError Unit × RandomSource) := do
  match ← Store.openAt root.path .exclusive with
  | .error e => return (.error e, source)
  | .ok store =>
    match store.addLink parent target source with
    | (.error e, source) => return (← finish store (.error e), source)
    | (.ok store, source) => return (← finish store (.ok ()), source)

/-- Deletes the chain of a key, which must own a link. Links that were removed before a failure are
    written out as well. -/
def delete (root : Root) (key : Key) (scope : DeleteScope) :
    Program (Except KeychainError (List RemovedLink)) := do
  match ← Store.openAt root.path .exclusive with
  | .error e => return .error e
  | .ok store =>
    match Chain.resolve store.links key .use with
    | .error e => finish store (.error e)
    | .ok chain =>
      let (result, store) := store.deleteChain chain scope
      match ← finish store (.ok ()) with
      | .error e => return .error e
      | .ok () => return result

/-- Adds decoys. Those that were added before a failure are written out on closing. -/
def inject (root : Root) (count : Nat) (source : RandomSource) :
    Program (Except KeychainError (List (KeyId × KeyId)) × RandomSource) := do
  match ← Store.openAt root.path .exclusive with
  | .error e => return (.error e, source)
  | .ok store =>
    let (result, store, source) := store.inject count source
    return (← finish store result, source)

/-- Adds a number of decoys drawn from a range. -/
def injectIn (root : Root) (range : DecoyRange) (source : RandomSource) :
    Program (Except KeychainError (List (KeyId × KeyId)) × RandomSource) :=
  match range.pick source with
  | (.error e, source) => return (.error e, source)
  | (.ok count, source) => root.inject count source

end Root

end KeyChain
