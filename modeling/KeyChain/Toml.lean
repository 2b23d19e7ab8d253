/-! TOML documents as trees. A document is a list of statements: table headers, headers of arrays of
   tables, and pairs of a dotted key and a value. `Toml.build` carries them out in order and refuses
   whatever would define something twice. How a table came to be decides what may still be added to
   it: a header may claim a table that longer headers implied, a dotted key may extend a table made
   by dotted keys, and a table written in braces is closed. -/
namespace KeyChain

/-- How a table came to be. -/
inductive TableKind where
  /-- By a header of its own. -/
  | header
  /-- By a longer header. -/
  | implied
  /-- By a dotted key. -/
  | dotted
  /-- Written in braces. -/
  | closed
  deriving DecidableEq, Repr

inductive Toml where
  | string (text : String)
  | integer (value : Int)
  | boolean (value : Bool)
  | float
  | date
  | array (items : List Toml)
  | table (kind : TableKind) (entries : List (String × Toml))
  /-- The tables under headers in double brackets. -/
  | tables (items : List (List (String × Toml)))

namespace Toml

/-- The entries of a table, in the order they were made. -/
abbrev Entries := List (String × Toml)

def lookup? (key : String) : Entries → Option Toml
  | [] => none
  | (k, v) :: rest => if k = key then some v else lookup? key rest

/-- Puts a value in place of one that is there, or at the end. -/
def place (key : String) (v : Toml) : Entries → Entries
  | [] => [(key, v)]
  | (k, v') :: rest => if k = key then (key, v) :: rest else (k, v') :: place key v rest

/-- Changes the table at a path of headers, making those that are missing; of an array of tables the
    last counts. -/
def changeAt (change : Entries → Option Entries) : List String → Entries → Option Entries
  | [], es => change es
  | key :: path, es =>
    match lookup? key es with
    | none => do
      let inner ← changeAt change path []
      return place key (table .implied inner) es
    | some (table kind inner) =>
      if kind = .closed then none
      else do
        let inner ← changeAt change path inner
        return place key (table kind inner) es
    | some (tables items) =>
      match items.getLast? with
      | none => none
      | some last => do
        let last ← changeAt change path last
        return place key (tables (items.dropLast ++ [last])) es
    | some _ => none

/-- Makes the table of a header, or claims one that longer headers implied. -/
def openTable (key : String) (es : Entries) : Option Entries :=
  match lookup? key es with
  | none => some (place key (table .header []) es)
  | some (table .implied inner) => some (place key (table .header inner) es)
  | some _ => none

/-- Begins another table of an array of tables. -/
def openNext (key : String) (es : Entries) : Option Entries :=
  match lookup? key es with
  | none => some (place key (tables [[]]) es)
  | some (tables items) => some (place key (tables (items ++ [[]])) es)
  | some _ => none

/-- Adds a value under a dotted key. Tables on the way may be made by dotted keys; one that is
    implied by a header or stands in an array of tables may be passed but not added to. -/
def addPair (key : String) (v : Toml) : List String → Entries → Option Entries
  | [], es =>
    match lookup? key es with
    | none => some (place key v es)
    | some _ => none
  | step :: path, es =>
    match lookup? step es with
    | none => do
      let inner ← addPair key v path []
      return place step (table .dotted inner) es
    | some (table .dotted inner) => do
      let inner ← addPair key v path inner
      return place step (table .dotted inner) es
    | some (table .implied inner) =>
      if path = [] then none
      else do
        let inner ← addPair key v path inner
        return place step (table .implied inner) es
    | some (tables items) =>
      match path, items.getLast? with
      | _ :: _, some last => do
        let last ← addPair key v path last
        return place step (tables (items.dropLast ++ [last])) es
      | _, _ => none
    | some _ => none

/-- A dotted key: the tables on the way, and the name in the last of them. -/
structure DottedKey where
  path : List String
  name : String

/-- One line of a document. -/
inductive Statement where
  | header (key : DottedKey)
  | nextHeader (key : DottedKey)
  | pair (key : DottedKey) (value : Toml)

/-- Carries out statements under the header at `here`. -/
def carryOut (here : List String) (es : Entries) : List Statement → Option Entries
  | [] => some es
  | .header key :: rest => do
    let es ← changeAt (openTable key.name) key.path es
    carryOut (key.path ++ [key.name]) es rest
  | .nextHeader key :: rest => do
    let es ← changeAt (openNext key.name) key.path es
    carryOut (key.path ++ [key.name]) es rest
  | .pair key v :: rest => do
    let es ← changeAt (addPair key.name v key.path) here es
    carryOut here es rest

/-- The document of statements, if they define nothing twice. -/
def build (statements : List Statement) : Option Toml :=
  (carryOut [] [] statements).map (table .header)

/-- A table in braces, from its pairs. -/
def ofPairs (pairs : List (DottedKey × Toml)) : Option Toml :=
  (pairs.foldlM (fun es pair => addPair pair.1.name pair.2 pair.1.path es) []).map (table .closed)

/-! Reading records. -/

/-- The values of a record's fields, in the order of `names`, where they are given. A record is a
    table, in which other names do not count, or an array of the values in order; a date is taken
    for a record of which no field is given. -/
def record? (names : List String) : Toml → Option (List (Option Toml))
  | table _ entries => some (names.map fun name => lookup? name entries)
  | array items => some ((List.range names.length).map fun i => items[i]?)
  | tables items =>
    some ((List.range names.length).map fun i => (items[i]?).map (table .header))
  | date => some (names.map fun _ => none)
  | _ => none

def text? : Toml → Option String
  | string text => some text
  | _ => none

def integer? : Toml → Option Int
  | integer value => some value
  | _ => none

def boolean? : Toml → Option Bool
  | boolean value => some value
  | _ => none

/-- An integer that 32 bits hold. -/
def word? (v : Toml) : Option UInt32 := do
  let n ← v.integer?
  if 0 ≤ n ∧ n < UInt32.size then some (UInt32.ofNat n.toNat) else none

/-- Whether a value is an array or a table with nothing in it. -/
def isVoid : Toml → Bool
  | array items => items.isEmpty
  | table _ entries => entries.isEmpty
  | tables items => items.isEmpty
  | _ => false

/-- The name of a choice: a text, or the one name in a table with nothing under it. -/
def choice? : Toml → Option String
  | string text => some text
  | table _ [(name, v)] => if v.isVoid then some name else none
  | _ => none

end Toml

end KeyChain
