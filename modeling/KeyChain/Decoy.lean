import KeyChain.Chain.Edit
/-! Decoys: links between two random keys that name no cipher. Their records look like any other, so
   a file does not show how many of its links lead somewhere. A decoy whose slot is occupied is
   drawn again, eight times in one call. -/
namespace KeyChain

/-- Bounds for a number of keys to spend on decoys. -/
structure DecoyRange where
  min : UInt32
  max : UInt32
  positive : 0 < min
  ordered : min < max

namespace DecoyRange

/-- A bound that 32 bits hold and that is not zero. -/
def bound (which : Bound) (value : Int) : Except KeychainError UInt32 :=
  if 0 < value ∧ value < UInt32.size then .ok (UInt32.ofNat value.toNat)
  else .error (.usage (.bound which value))

/-- The range from `min` up to `max`, which does not belong to it. -/
def ofBounds (min max : Int) : Except KeychainError DecoyRange := do
  let min ← bound .lower min
  let max ← bound .upper max
  if h : 0 < min ∧ min < max then return ⟨min, max, h.1, h.2⟩
  else throw (.usage (.crossedBounds min.toNat max.toNat))

/-- A number of decoys: half of a number of keys drawn from the range, and at least one. The failure stands
    for a draw that does not end. -/
def pick (r : DecoyRange) (source : RandomSource) : Except KeychainError Nat × RandomSource :=
  match RandomSource.wordBelow? (r.max - r.min) source with
  | some (word, source) => (.ok (Nat.max ((r.min + word).toNat / 2) 1), source)
  | none => (.error (.crypto .randomExhausted), source)

end DecoyRange

namespace Store

/-- Occupied slots that are tolerated in one call. -/
def maxCollisions : Nat := 8

/-- Adds `count` decoys while no more than `spare` of them are drawn for an occupied slot. The decoys
    that were added before a failure stay. -/
def addDecoys (count spare : Nat) (s : Store) (source : RandomSource) :
    Except KeychainError (List (KeyId × KeyId)) × Store × RandomSource :=
  match count with
  | 0 => (.ok [], s, source)
  | count + 1 =>
    let (parent, source) := Key.random .invalid source
    let (child, source) := Key.random .invalid source
    match s.insertLink parent child source with
    | (.ok s, source) =>
      match addDecoys count spare s source with
      | (.error e, s, source) => (.error e, s, source)
      | (.ok added, s, source) => (.ok ((parent.id, child.id) :: added), s, source)
    | (.error (.chainExists p c), source) =>
      match spare with
      | 0 => (.error (.chainExists p c), s, source)
      | spare + 1 => addDecoys (count + 1) spare s source
    | (.error e, source) => (.error e, s, source)
termination_by (count, spare)

/-- Adds decoys, and lists them in the order they were drawn. -/
def inject (s : Store) (count : Nat) (source : RandomSource) :
    Except KeychainError (List (KeyId × KeyId)) × Store × RandomSource :=
  if count = 0 then (.error (.usage .noDecoys), s, source)
  else addDecoys count maxCollisions s source

end Store

end KeyChain
