import KeyChain.Json
/-! JSON text. `read?` accepts a byte string that is one value with blanks around it, and nothing
   else: no byte order mark, comment, trailing comma, or control character in a string. `quote`
   writes a string that `read?` reads back, with the shortest escapes there are. -/
namespace KeyChain.Json

/-- What is left behind blanks. -/
def skipBlank : Bytes → Bytes
  | [] => []
  | b :: rest => if b = 0x20 ∨ b = 0x09 ∨ b = 0x0A ∨ b = 0x0D then skipBlank rest else b :: rest

/-! Strings. -/

def hexByte? (b : UInt8) : Option Nat := Bytes.hexValue? (Char.ofNat b.toNat)

/-- The number that four digits spell. -/
def unit? (a b c d : UInt8) : Option Nat := do
  let a ← hexByte? a
  let b ← hexByte? b
  let c ← hexByte? c
  let d ← hexByte? d
  return 4096 * a + 256 * b + 16 * c + d

/-- The byte that an escape of one letter stands for. -/
def escaped? (b : UInt8) : Option UInt8 :=
  if b = 0x22 ∨ b = 0x5C ∨ b = 0x2F then some b
  else if b = 0x62 then some 0x08
  else if b = 0x66 then some 0x0C
  else if b = 0x6E then some 0x0A
  else if b = 0x72 then some 0x0D
  else if b = 0x74 then some 0x09
  else none

def isLeading (unit : Nat) : Bool := 0xD800 ≤ unit && unit < 0xDC00
def isTrailing (unit : Nat) : Bool := 0xDC00 ≤ unit && unit < 0xE000

/-- The second half of a pair, if an escape for one comes next. -/
def trailing? : Bytes → Option Nat
  | 0x5C :: 0x75 :: a :: b :: c :: d :: _ => (unit? a b c d).filter isTrailing
  | _ => none

/-- Reads a string behind its opening quote. `read` holds the bytes so far, last one first, as long
    as they may spell a text; `low` is the second half of a pair whose first half has been read. -/
def stringOnto (read : Option Bytes) : Bytes → Option (Option String × Bytes)
  | [] => none
  | 0x22 :: rest => some (read.bind fun bytes => Bytes.text? bytes.reverse, rest)
  | 0x5C :: 0x75 :: a :: b :: c :: d :: rest =>
    match unit? a b c d with
    | none => none
    | some unit =>
      if isLeading unit then
        match trailing? rest with
        | some low =>
          let char := Char.ofNat (0x10000 + 0x400 * (unit - 0xD800) + (low - 0xDC00))
          stringOnto (read.map fun bytes => (Bytes.ofChar char).reverse ++ bytes) (rest.drop 6)
        | none => stringOnto none rest
      else if isTrailing unit then stringOnto none rest
      else stringOnto (read.map fun bytes => (Bytes.ofChar (Char.ofNat unit)).reverse ++ bytes) rest
  | 0x5C :: e :: rest =>
    match escaped? e with
    | none => none
    | some b => stringOnto (read.map (b :: ·)) rest
  | b :: rest => if b < 0x20 ∨ b = 0x5C then none else stringOnto (read.map (b :: ·)) rest
termination_by b => b.length
decreasing_by all_goals (simp only [List.length_cons, List.length_drop]; omega)

/-! Numbers. -/

def isDigit (b : UInt8) : Bool := 0x30 ≤ b && b ≤ 0x39

/-- The number that digits spell. -/
def decimal (digits : Bytes) : Nat := digits.foldl (fun n b => 10 * n + (b.toNat - 0x30)) 0

/-- The digits in front, at least one, and what follows them. -/
def digits? (b : Bytes) : Option (Bytes × Bytes) :=
  match b.span isDigit with
  | ([], _) => none
  | (digits, rest) => some (digits, rest)

/-- A fraction, if a point comes next; the flag says whether it did. -/
def fraction? : Bytes → Option (Bool × Bytes)
  | 0x2E :: rest => (digits? rest).map fun (_, rest) => (true, rest)
  | rest => some (false, rest)

/-- An exponent, if its letter comes next; the flag says whether it did. -/
def exponent? : Bytes → Option (Bool × Bytes)
  | [] => some (false, [])
  | e :: rest =>
    if e = 0x65 ∨ e = 0x45 then
      let unsigned :=
        match rest with
        | sign :: rest => if sign = 0x2B ∨ sign = 0x2D then rest else sign :: rest
        | [] => []
      (digits? unsigned).map fun (_, rest) => (true, rest)
    else some (false, e :: rest)

/-- A number without its sign. -/
def unsigned? (b : Bytes) : Option (Json × Bytes) := do
  let (digits, rest) ← digits? b
  if digits.head? = some 0x30 ∧ digits.length ≠ 1 then none
  else
    let (hasFraction, rest) ← fraction? rest
    let (hasExponent, rest) ← exponent? rest
    return (number (if hasFraction || hasExponent then none else some (decimal digits)), rest)

/-- A number; one with a sign has no natural value. -/
def number? : Bytes → Option (Json × Bytes)
  | 0x2D :: rest => (unsigned? rest).map fun (_, rest) => (number none, rest)
  | b => unsigned? b

/-! Values. -/

/-- What is left behind a given word. -/
def dropWord? (word : String) (b : Bytes) : Option Bytes :=
  let w := Bytes.utf8 word
  if w.isPrefixOf b then some (b.drop w.length) else none

mutual

/-- A value and what follows it. Every step takes at least one byte, so as much fuel as there are
    bytes is enough. -/
def value? : Nat → Bytes → Option (Json × Bytes)
  | 0, _ => none
  | fuel + 1, b =>
    match skipBlank b with
    | [] => none
    | 0x22 :: rest => (stringOnto (some []) rest).map fun (text, rest) => (string text, rest)
    | 0x5B :: rest =>
      match skipBlank rest with
      | 0x5D :: rest => some (array [], rest)
      | rest => (elements? fuel rest).map fun (items, rest) => (array items, rest)
    | 0x7B :: rest =>
      match skipBlank rest with
      | 0x7D :: rest => some (object [], rest)
      | rest => (members? fuel rest).map fun (fields, rest) => (object fields, rest)
    | 0x6E :: rest => (dropWord? "ull" rest).map (null, ·)
    | 0x74 :: rest => (dropWord? "rue" rest).map (bool true, ·)
    | 0x66 :: rest => (dropWord? "alse" rest).map (bool false, ·)
    | rest => number? rest

/-- The values of an array up to its closing bracket. -/
def elements? : Nat → Bytes → Option (List Json × Bytes)
  | 0, _ => none
  | fuel + 1, b => do
    let (v, rest) ← value? fuel b
    match skipBlank rest with
    | 0x2C :: rest =>
      let (items, rest) ← elements? fuel rest
      return (v :: items, rest)
    | 0x5D :: rest => return ([v], rest)
    | _ => none

/-- The fields of an object up to its closing brace. -/
def members? : Nat → Bytes → Option (List (Option String × Json) × Bytes)
  | 0, _ => none
  | fuel + 1, b =>
    match skipBlank b with
    | 0x22 :: rest => do
      let (name, rest) ← stringOnto (some []) rest
      match skipBlank rest with
      | 0x3A :: rest =>
        let (v, rest) ← value? fuel rest
        match skipBlank rest with
        | 0x2C :: rest =>
          let (fields, rest) ← members? fuel rest
          return ((name, v) :: fields, rest)
        | 0x7D :: rest => return ([(name, v)], rest)
        | _ => none
      | _ => none
    | _ => none

end

/-- The value that a byte string writes. -/
def read? (b : Bytes) : Option Json :=
  match value? (2 * b.length + 2) b with
  | some (v, rest) => if skipBlank rest = [] then some v else none
  | none => none

/-! Writing strings. -/

/-- How a character is written in a string. -/
def quotedChar (c : Char) : List Char :=
  if c = '"' then ['\\', '"']
  else if c = '\\' then ['\\', '\\']
  else if c = '\n' then ['\\', 'n']
  else if c = '\r' then ['\\', 'r']
  else if c = '\t' then ['\\', 't']
  else if c = '\x08' then ['\\', 'b']
  else if c = '\x0c' then ['\\', 'f']
  else if c.toNat < 0x20 then
    ['\\', 'u', '0', '0', Bytes.hexDigit (c.toNat / 16), Bytes.hexDigit (c.toNat % 16)]
  else [c]

/-- A text between quotes. -/
def quote (s : String) : String := String.ofList ('"' :: s.toList.flatMap quotedChar ++ ['"'])

end KeyChain.Json
