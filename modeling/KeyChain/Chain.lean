import KeyChain.ChainMode
import KeyChain.Store
/-! Chains: the keys that a first key leads to, one decryption a hop. The walk goes on while the slot
   of the last key is occupied and the child is a real key that is not yet on it. Each hop uses up
   a slot, so there are no more hops than links, and the recursion is on the links that are left:
   a slot that was used is never looked up again, since its owner is on the walk. -/
namespace KeyChain

/-- Keys in the order they lead to each other; there is always a first. -/
structure Chain where
  root : Key
  rest : List Key
  deriving DecidableEq

namespace Chain

/-- The chain of one key. -/
def single (root : Key) : Chain := ⟨root, []⟩

def keys (c : Chain) : List Key := c.root :: c.rest

def length (c : Chain) : Nat := c.keys.length

/-- Whether the first key leads to another. -/
def hasSuccessor (c : Chain) : Bool := !c.rest.isEmpty

/-- The keys behind `tail`. The identifiers in `visited` are those of the walk so far. -/
def follow (links : Links) (visited : List KeyId) (tail : Key) : Except KeychainError (List Key) :=
  match _h : links.get? tail.id with
  | none => .ok []
  | some record =>
    match Link.decrypt tail record.bytes with
    | .error e => .error e
    | .ok child =>
      if child.isTerminal then .ok []
      else if child.id ∈ visited then .error (.corrupted (.loop tail.id child.id))
      else
        match follow (links.erase tail.id) (child.id :: visited) child with
        | .error e => .error e
        | .ok rest => .ok (child :: rest)
termination_by links.size
decreasing_by exact OrderedMap.size_erase_lt ‹_›

/-- The chain that starts at a key. The mode matters only for a first key without a link. -/
def resolve (links : Links) (root : Key) (mode : ChainMode) : Except KeychainError Chain :=
  if links.get? root.id = none ∧ mode = .use then .error (.notFound root.id)
  else
    match follow links [root.id] root with
    | .error e => .error e
    | .ok rest => .ok ⟨root, rest⟩

/-- Whether a key is in a chain, compared key by key from the first on. -/
def includesIn (key : Key) : List Key → Except KeychainError Bool
  | [] => .ok false
  | k :: rest =>
    match k.isSame key with
    | .error e => .error e
    | .ok true => .ok true
    | .ok false => includesIn key rest

def includes (c : Chain) (key : Key) : Except KeychainError Bool := includesIn key c.keys

end Chain

end KeyChain
