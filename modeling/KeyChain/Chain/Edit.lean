import KeyChain.Chain
/-! Changes to the chains of a store: adding, sealing and deleting links. A link goes into the empty
   slot of its parent, and a parent that is sealed or leads somewhere keeps its link. Deleting a
   chain goes from the first key on and stops at the first fault; what was removed by then stays
   removed.

   `insertLinkOn`, `addLinkOn` and `deleteLinkOn` change a store in place and give it back whether they
   succeed or fail; `insertLink`, `addLink` and `deleteLink` give it back only if they succeed. -/
namespace KeyChain

/-- What a new link leads to. -/
inductive LinkTarget where
  | key (child : Key)
  /-- Nothing: the link closes the chain. -/
  | terminal
  deriving DecidableEq

/-- How much of a chain is deleted. -/
inductive DeleteScope where
  /-- The link of the first key; the rest of the chain stays, with nothing that leads to it. -/
  | first
  /-- Every link. -/
  | full
  deriving DecidableEq, Repr

/-- A link that was removed; the last key of a chain led to none. -/
structure RemovedLink where
  parent : KeyId
  child : Option KeyId
  deriving DecidableEq, Repr

namespace Store

/-- Links two keys without a look at any chain; only an occupied slot is refused. The nonce is drawn
    before the slot is looked at. -/
def insertLinkOn (s : Store) (parent child : Key) (source : RandomSource) :
    Except KeychainError Unit × Store × RandomSource :=
  let (record, source) := Link.encrypt parent child source
  match s.insertOn parent.id record with
  | (.ok true, s) => (.ok (), s, source)
  | (.ok false, s) => (.error (.chainExists parent.id child.id), s, source)
  | (.error e, s) => (.error e, s, source)

/-- The store in which two keys were linked. -/
def insertLink (s : Store) (parent child : Key) (source : RandomSource) :
    Except KeychainError Store × RandomSource :=
  match s.insertLinkOn parent child source with
  | (.ok (), s, source) => (.ok s, source)
  | (.error e, _, source) => (.error e, source)

/-- The child that a target stands for. A key that is already in the parent's chain is refused; a
    fresh terminal key closes the chain. -/
def chooseChild (chain : Chain) (target : LinkTarget) (source : RandomSource) :
    Except KeychainError Key × RandomSource :=
  match target with
  | .key child =>
    match chain.includes child with
    | .error e => (.error e, source)
    | .ok true => (.error (.chainExists chain.root.id child.id), source)
    | .ok false => (.ok child, source)
  | .terminal =>
    let (child, source) := Key.terminal source
    (.ok child, source)

/-- Links a parent to a target. -/
def addLinkOn (s : Store) (parent : Key) (target : LinkTarget) (source : RandomSource) :
    Except KeychainError Unit × Store × RandomSource :=
  match Chain.resolve s.links parent .ignoreMissing with
  | .error e => (.error e, s, source)
  | .ok chain =>
    match chooseChild chain target source with
    | (.error e, source) => (.error e, s, source)
    | (.ok child, source) =>
      match chain.rest with
      | second :: _ => (.error (.chainExists parent.id second.id), s, source)
      | [] => s.insertLinkOn parent child source

/-- The store in which a parent was linked to a target. -/
def addLink (s : Store) (parent : Key) (target : LinkTarget) (source : RandomSource) :
    Except KeychainError Store × RandomSource :=
  match s.addLinkOn parent target source with
  | (.ok (), s, source) => (.ok s, source)
  | (.error e, _, source) => (.error e, source)

/-- Removes the link of a key, and says whether there was one. -/
def deleteLinkOn (s : Store) (parent : Key) (required : Bool) : Except KeychainError Bool × Store :=
  match s.removeOn parent.id with
  | (.ok (some _), s) => (.ok true, s)
  | (.ok none, s) => if required then (.error (.notFound parent.id), s) else (.ok false, s)
  | (.error e, s) => (.error e, s)

/-- The store in which the link of a key was removed, and whether there was one. -/
def deleteLink (s : Store) (parent : Key) (required : Bool) : Except KeychainError (Bool × Store) :=
  match s.deleteLinkOn parent required with
  | (.ok found, s) => .ok (found, s)
  | (.error e, _) => .error e

/-- Removes the links of keys that lead to each other. All but the last must own one. -/
def deleteLinks (scope : DeleteScope) (s : Store) :
    List Key → Except KeychainError (List RemovedLink) × Store
  | [] => (.ok [], s)
  | key :: rest =>
    let next := rest.head?.map Key.id
    match s.deleteLink key next.isSome with
    | .error e => (.error e, s)
    | .ok (_, s) =>
      match scope with
      | .first => (.ok [⟨key.id, next⟩], s)
      | .full =>
        match deleteLinks scope s rest with
        | (.error e, s) => (.error e, s)
        | (.ok removed, s) => (.ok (⟨key.id, next⟩ :: removed), s)

/-- Deletes a chain, and lists the links in its order. -/
def deleteChain (s : Store) (chain : Chain) (scope : DeleteScope) :
    Except KeychainError (List RemovedLink) × Store :=
  s.deleteLinks scope chain.keys

/-! Linking and removing step by step, from what the slot answers. -/

theorem insertLink_eq (s : Store) (parent child : Key) (source : RandomSource) :
    s.insertLink parent child source =
      match s.insert parent.id (Link.encrypt parent child source).1 with
      | .error e => (.error e, (Link.encrypt parent child source).2)
      | .ok (true, s) => (.ok s, (Link.encrypt parent child source).2)
      | .ok (false, _) => (.error (.chainExists parent.id child.id), (Link.encrypt parent child source).2) := by
  unfold insertLink insertLinkOn insertOn
  cases hinsert : s.insert parent.id (Link.encrypt parent child source).1 with
  | error e => simp only [hinsert]
  | ok outcome =>
    obtain ⟨filled, s'⟩ := outcome
    cases filled <;> simp only [hinsert]

theorem addLink_eq (s : Store) (parent : Key) (target : LinkTarget) (source : RandomSource) :
    s.addLink parent target source =
      match Chain.resolve s.links parent .ignoreMissing with
      | .error e => (.error e, source)
      | .ok chain =>
        match chooseChild chain target source with
        | (.error e, source) => (.error e, source)
        | (.ok child, source) =>
          match chain.rest with
          | second :: _ => (.error (.chainExists parent.id second.id), source)
          | [] => s.insertLink parent child source := by
  unfold addLink addLinkOn
  cases Chain.resolve s.links parent .ignoreMissing with
  | error e => rfl
  | ok chain =>
    cases hchoose : chooseChild chain target source with
    | mk chosen source' =>
      cases chosen with
      | error e => simp only [hchoose]
      | ok child => cases hrest : chain.rest <;> simp only [hchoose, hrest, insertLink]

theorem deleteLink_eq (s : Store) (parent : Key) (required : Bool) :
    s.deleteLink parent required =
      match s.remove parent.id with
      | .error e => .error e
      | .ok (some _, s) => .ok (true, s)
      | .ok (none, s) => if required then .error (.notFound parent.id) else .ok (false, s) := by
  unfold deleteLink deleteLinkOn removeOn
  cases s.remove parent.id with
  | error e => rfl
  | ok outcome =>
    obtain ⟨found, s'⟩ := outcome
    cases found with
    | some record => rfl
    | none => cases required <;> rfl

end Store

end KeyChain
