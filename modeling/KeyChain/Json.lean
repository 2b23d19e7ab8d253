import KeyChain.Bytes
/-! JSON values as the documents of this library use them: records, maps, lists, texts and natural
   numbers. A value keeps what a reader needs to be strict about the fields it knows and lenient
   about the others: a string that is well written but spells no text has no text, and a number has
   a value only if it is written with digits alone. -/
namespace KeyChain

inductive Json where
  | null
  | bool (value : Bool)
  /-- The value is there for a number written with digits alone. -/
  | number (natural : Option Nat)
  /-- The text is missing if an escape is half of a pair or a byte is no UTF-8. -/
  | string (text : Option String)
  | array (items : List Json)
  | object (fields : List (Option String × Json))

namespace Json

/-- The texts of the names in an object, all of which must spell one. -/
def named? : List (Option String × Json) → Option (List (String × Json))
  | [] => some []
  | (none, _) :: _ => none
  | (some name, v) :: rest => do
    let named ← named? rest
    return (name, v) :: named

/-- The value of a name that stands exactly once among the fields. -/
def once? (named : List (String × Json)) (name : String) : Option Json :=
  match named.filter fun f => f.1 == name with
  | [(_, v)] => some v
  | _ => none

/-- The values of a record's fields, in the order of `names`. A record is written as an object, where
    each name stands once and other names do not count, or as an array of just these values. -/
def record? (names : List String) : Json → Option (List Json)
  | array items => if items.length = names.length then some items else none
  | object fields => do
    let named ← named? fields
    names.mapM (once? named)
  | _ => none

def text? : Json → Option String
  | string text => text
  | _ => none

def items? : Json → Option (List Json)
  | array items => some items
  | _ => none

/-- A natural number below `limit`. -/
def natural? (limit : Nat) : Json → Option Nat
  | number (some n) => if n < limit then some n else none
  | _ => none

/-- The entries of a map from texts to texts, in the order they are written. -/
def textEntries? : Json → Option (List (String × String))
  | object fields => do
    let named ← named? fields
    named.mapM fun (name, v) => v.text?.map (name, ·)
  | _ => none

end Json

end KeyChain
