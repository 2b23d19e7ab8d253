import KeyChain.Bytes
import KeyChain.Toml
/-! TOML text. `read?` accepts a document of version 1.0, one statement a line; a byte order mark in
   front is skipped. Arrays and tables in braces nest less than eighty deep, and a dotted key has
   fewer than eighty parts. Integers are held in 64 bits, and a float that is rounded to infinity is
   refused. -/
namespace KeyChain.Toml

/-- A reader takes characters from the front and leaves the rest. -/
abbrev Reader (α : Type) := List Char → Option (α × List Char)

/-! Characters. -/

def isBlank (c : Char) : Bool := c = ' ' || c = '\t'

/-- Characters that may stand in a comment. -/
def isPlain (c : Char) : Bool := c = '\t' || (0x20 ≤ c.toNat && c.toNat ≠ 0x7F)

def isKeyChar (c : Char) : Bool := c.isAlphanum || c = '-' || c = '_'

def isBinary (c : Char) : Bool := c = '0' || c = '1'
def isOctal (c : Char) : Bool := '0' ≤ c && c ≤ '7'
def isHex (c : Char) : Bool := (Bytes.hexValue? c).isSome

def dropBlanks (cs : List Char) : List Char := cs.dropWhile isBlank

/-- What follows a given character. -/
def expect? (c : Char) : List Char → Option (List Char)
  | [] => none
  | c' :: rest => if c' = c then some rest else none

/-- What follows given characters. -/
def dropText? (text : List Char) (cs : List Char) : Option (List Char) :=
  if text.isPrefixOf cs then some (cs.drop text.length) else none

/-- What follows the end of a line: a line feed, with or without a carriage return. -/
def newline? : List Char → Option (List Char)
  | '\n' :: rest => some rest
  | '\r' :: '\n' :: rest => some rest
  | _ => none

/-- What follows the rest of a line: blanks, a comment, and its end or that of the text. -/
def endLine? (cs : List Char) : Option (List Char) :=
  let rest :=
    match dropBlanks cs with
    | '#' :: rest => rest.dropWhile isPlain
    | rest => rest
  if rest = [] then some [] else newline? rest

/-- What follows blanks, comments and line ends in an array. A comment must end in its line. -/
def skipLines? : Nat → List Char → Option (List Char)
  | 0, cs => some cs
  | fuel + 1, cs =>
    match dropBlanks cs with
    | '#' :: rest => (newline? (rest.dropWhile isPlain)).bind (skipLines? fuel)
    | '\n' :: rest => skipLines? fuel rest
    | '\r' :: rest => (expect? '\n' rest).bind (skipLines? fuel)
    | rest => some rest

/-! Strings. -/

/-- The character that `count` digits spell. -/
def codePoint? (count : Nat) (cs : List Char) : Option (Char × List Char) := do
  let digits := cs.take count
  if digits.length ≠ count then none
  else
    let values ← digits.mapM Bytes.hexValue?
    let n := values.foldl (fun n v => 16 * n + v) 0
    if n.isValidChar then some (Char.ofNat n, cs.drop count) else none

/-- The character of an escape, behind the backslash. -/
def escape? : Reader Char
  | 'b' :: rest => some ('\x08', rest)
  | 't' :: rest => some ('\t', rest)
  | 'n' :: rest => some ('\n', rest)
  | 'f' :: rest => some ('\x0c', rest)
  | 'r' :: rest => some ('\r', rest)
  | '"' :: rest => some ('"', rest)
  | '\\' :: rest => some ('\\', rest)
  | 'u' :: rest => codePoint? 4 rest
  | 'U' :: rest => codePoint? 8 rest
  | _ => none

/-- A string on one line, behind its opening quote. -/
def basicOnto : Nat → List Char → Reader String
  | 0, _, _ => none
  | _ + 1, _, [] => none
  | _ + 1, read, '"' :: rest => some (String.ofList read.reverse, rest)
  | fuel + 1, read, '\\' :: rest => do
    let (c, rest) ← escape? rest
    basicOnto fuel (c :: read) rest
  | fuel + 1, read, c :: rest => if isPlain c then basicOnto fuel (c :: read) rest else none

/-- A string without escapes, behind its opening quote. -/
def literal? (cs : List Char) : Option (String × List Char) := do
  let text := cs.takeWhile fun c => c ≠ '\'' && isPlain c
  let rest ← expect? '\'' (cs.drop text.length)
  return (String.ofList text, rest)

/-- What follows a backslash at the end of a line: all blanks and line ends up to the next
    character. -/
def continueLine? (cs : List Char) : Option (List Char) := do
  let rest ← newline? (dropBlanks cs)
  return dropSpace (rest.length + 1) rest
where
  /-- Drops blanks and line ends. -/
  dropSpace : Nat → List Char → List Char
    | 0, cs => cs
    | fuel + 1, cs =>
      match newline? (dropBlanks cs) with
      | some rest => dropSpace fuel rest
      | none => dropBlanks cs

/-- The quotes that close a string of several lines, if there are at least three of them. Up to two
    in front of the last three belong to the string. -/
def closing? (quote : Char) (cs : List Char) : Option (Nat × List Char) :=
  let count := (cs.take 5).takeWhile (· = quote) |>.length
  if 3 ≤ count then some (count - 3, cs.drop count) else none

/-- A string of several lines, behind its opening quotes. A line end is read as a line feed. -/
def manyLinesOnto (quote : Char) (escapes : Bool) : Nat → List Char → Reader String
  | 0, _, _ => none
  | fuel + 1, read, cs =>
    match closing? quote cs with
    | some (count, rest) =>
      some (String.ofList (read.reverse ++ List.replicate count quote), rest)
    | none =>
      match newline? cs with
      | some rest => manyLinesOnto quote escapes fuel ('\n' :: read) rest
      | none =>
        match cs with
        | [] => none
        | c :: rest =>
          if escapes && c = '\\' then
            match continueLine? rest with
            | some rest => manyLinesOnto quote escapes fuel read rest
            | none => do
              let (c, rest) ← escape? rest
              manyLinesOnto quote escapes fuel (c :: read) rest
          else if isPlain c then manyLinesOnto quote escapes fuel (c :: read) rest
          else none

/-- A string of several lines; a line end right behind the opening quotes does not count. -/
def manyLines? (quote : Char) (escapes : Bool) (cs : List Char) : Option (String × List Char) :=
  let body := (newline? cs).getD cs
  manyLinesOnto quote escapes (body.length + 1) [] body

/-- A string of any form. -/
def string? : Reader String
  | '"' :: '"' :: '"' :: rest => manyLines? '"' true rest
  | '"' :: rest => basicOnto (rest.length + 1) [] rest
  | '\'' :: '\'' :: '\'' :: rest => manyLines? '\'' false rest
  | '\'' :: rest => literal? rest
  | _ => none

/-! Keys. -/

/-- One part of a key. -/
def simpleKey? : Reader String
  | '"' :: rest => basicOnto (rest.length + 1) [] rest
  | '\'' :: rest => literal? rest
  | cs =>
    match cs.span isKeyChar with
    | ([], _) => none
    | (name, rest) => some (String.ofList name, rest)

/-- The parts of a key, with points between them and blanks around them. -/
def keyParts? : Nat → Reader (List String)
  | 0, _ => none
  | fuel + 1, cs => do
    let (part, rest) ← simpleKey? (dropBlanks cs)
    match dropBlanks rest with
    | '.' :: rest =>
      let (parts, rest) ← keyParts? fuel rest
      return (part :: parts, rest)
    | rest => return ([part], rest)

/-- Bound on how deep a document nests. -/
def depthLimit : Nat := 80

def key? (cs : List Char) : Option (DottedKey × List Char) := do
  let (parts, rest) ← keyParts? (cs.length + 1) cs
  if depthLimit ≤ parts.length then none
  else return (⟨parts.dropLast, parts.getLast?.getD ""⟩, rest)

/-! Numbers and dates. -/

/-- Digits of a base with single underscores between them. -/
def digits? (isDigit : Char → Bool) : Reader (List Char)
  | [] => none
  | c :: rest => if isDigit c then some (more [c] rest) else none
where
  /-- Goes on behind the digits read so far, the last one first. -/
  more (read : List Char) : List Char → List Char × List Char
    | [] => (read.reverse, [])
    | [c] => if isDigit c then ((c :: read).reverse, []) else (read.reverse, [c])
    | c :: d :: rest =>
      if isDigit c then more (c :: read) (d :: rest)
      else if c = '_' && isDigit d then more (d :: read) rest
      else (read.reverse, c :: d :: rest)

/-- The number that digits of a base spell. -/
def numeral (base : Nat) (digits : List Char) : Nat :=
  digits.foldl (fun n c => base * n + (Bytes.hexValue? c).getD 0) 0

/-- Decimal digits without a zero in front of others. -/
def decimal? (cs : List Char) : Option (List Char × List Char) := do
  let (digits, rest) ← digits? Char.isDigit cs
  if digits.head? = some '0' ∧ digits.length ≠ 1 then none else return (digits, rest)

/-- A sign, if there is one; the flag says whether it is negative. -/
def sign : List Char → Bool × List Char
  | '-' :: rest => (true, rest)
  | '+' :: rest => (false, rest)
  | rest => (false, rest)

/-- An integer that 64 bits hold. -/
def signed? (negative : Bool) (n : Nat) : Option Toml :=
  let value : Int := if negative then -n else n
  if Int64.minValue.toInt ≤ value ∧ value ≤ Int64.maxValue.toInt then some (integer value) else none

/-- Whether `digits · 10 ^ exponent` is rounded to infinity, that is, whether it is at least
    `2 ^ 1024 - 2 ^ 970`. A power of ten is between the powers of eight and of sixteen, which
    settles all but the close cases. -/
def overflows (digits : Nat) (exponent : Int) : Bool :=
  let size := (Nat.log2 digits : Int)
  let (below, above) := if 0 ≤ exponent then (3 * exponent, 4 * exponent) else (4 * exponent, 3 * exponent)
  if digits = 0 then false
  else if size + below > 1100 then true
  else if size + above < 1000 then false
  else
    let bound := Nat.pow 2 1024 - Nat.pow 2 970
    if 0 ≤ exponent then bound ≤ digits * Nat.pow 10 exponent.toNat
    else bound * Nat.pow 10 (-exponent).toNat ≤ digits

/-- The digits behind a point, if there is one. -/
def fraction? : Reader (Option (List Char))
  | '.' :: rest => (digits? Char.isDigit rest).map fun (digits, rest) => (some digits, rest)
  | rest => some (none, rest)

/-- The exponent behind its letter, if there is one. -/
def exponent? : Reader (Option Int)
  | [] => some (none, [])
  | e :: rest =>
    if e = 'e' || e = 'E' then do
      let (negative, rest) := sign rest
      let (digits, rest) ← digits? Char.isDigit rest
      let n : Int := numeral 10 digits
      return (some (if negative then -n else n), rest)
    else some (none, e :: rest)

/-- A decimal integer or a float. -/
def decimalNumber? (cs : List Char) : Option (Toml × List Char) := do
  let (negative, rest) := sign cs
  let (whole, rest) ← decimal? rest
  let (fraction, rest) ← fraction? rest
  let (exponent, rest) ← exponent? rest
  match fraction, exponent with
  | none, none => do
    let v ← signed? negative (numeral 10 whole)
    return (v, rest)
  | _, _ =>
    let places := fraction.getD []
    let tooLarge := overflows (numeral 10 (whole ++ places)) (exponent.getD 0 - places.length)
    if tooLarge && !negative then none else return (float, rest)

/-- A number in base 2, 8 or 16, or a decimal one. -/
def number? : Reader Toml
  | '0' :: 'x' :: rest => based 16 isHex rest
  | '0' :: 'o' :: rest => based 8 isOctal rest
  | '0' :: 'b' :: rest => based 2 isBinary rest
  | cs =>
    let rest := (sign cs).2
    match dropText? "inf".toList rest, dropText? "nan".toList rest with
    | some rest, _ => some (float, rest)
    | _, some rest => some (float, rest)
    | none, none => decimalNumber? cs
where
  /-- Digits of a base, behind its letter. -/
  based (base : Nat) (isDigit : Char → Bool) (cs : List Char) : Option (Toml × List Char) := do
    let (digits, rest) ← digits? isDigit cs
    let v ← signed? false (numeral base digits)
    return (v, rest)

/-- A number of exactly `count` decimal digits. -/
def fixed? (count : Nat) (cs : List Char) : Option (Nat × List Char) :=
  let digits := cs.take count
  if digits.length = count && digits.all Char.isDigit then some (numeral 10 digits, cs.drop count)
  else none

def daysInMonth (year month : Nat) : Nat :=
  if month = 2 then
    if year % 4 = 0 ∧ (year % 100 ≠ 0 ∨ year % 400 = 0) then 29 else 28
  else if month = 4 ∨ month = 6 ∨ month = 9 ∨ month = 11 then 30
  else 31

/-- What follows a day of the calendar. -/
def day? (cs : List Char) : Option (List Char) := do
  let (year, rest) ← fixed? 4 cs
  let rest ← expect? '-' rest
  let (month, rest) ← fixed? 2 rest
  let rest ← expect? '-' rest
  let (day, rest) ← fixed? 2 rest
  if 1 ≤ month ∧ month ≤ 12 ∧ 1 ≤ day ∧ day ≤ daysInMonth year month then some rest else none

/-- What follows an hour and a minute. -/
def hourMinute? (cs : List Char) : Option (List Char) := do
  let (hour, rest) ← fixed? 2 cs
  let rest ← expect? ':' rest
  let (minute, rest) ← fixed? 2 rest
  if hour ≤ 23 ∧ minute ≤ 59 then some rest else none

/-- What follows a time of day. -/
def time? (cs : List Char) : Option (List Char) := do
  let rest ← hourMinute? cs
  let rest ← expect? ':' rest
  let (second, rest) ← fixed? 2 rest
  if 60 < second then none
  else
    match rest with
    | '.' :: d :: rest => if d.isDigit then some (rest.dropWhile Char.isDigit) else none
    | '.' :: [] => none
    | rest => some rest

/-- What follows an offset from universal time, if there is one. -/
def offset? : List Char → Option (List Char)
  | [] => some []
  | c :: rest =>
    if c = 'Z' || c = 'z' then some rest
    else if c = '+' || c = '-' then hourMinute? rest
    else some (c :: rest)

/-- Whether a time of day comes next, to judge by its first three characters. -/
def timeAhead (cs : List Char) : Bool :=
  match fixed? 2 cs with
  | some (hour, ':' :: _) => hour ≤ 23
  | _ => false

/-- What follows a date, a time, or both. -/
def date? (cs : List Char) : Option (List Char) :=
  match fixed? 4 cs with
  | some (_, '-' :: _) =>
    match day? cs with
    | none => none
    | some [] => some []
    | some (c :: rest) =>
      if (c = 'T' || c = 't' || c = ' ') && timeAhead rest then (time? rest).bind offset?
      else some (c :: rest)
  | _ => time? cs

/-! Values. -/

mutual

/-- A value; `depth` counts the arrays and tables around it. -/
def value? : Nat → Nat → Reader Toml
  | 0, _, _ => none
  | fuel + 1, depth, cs =>
    match cs with
    | [] => none
    | '[' :: rest =>
      if depthLimit ≤ depth + 1 then none
      else do
        let rest ← skipLines? rest.length rest
        match rest with
        | ']' :: rest => return (array [], rest)
        | rest =>
          let (items, rest) ← items? fuel (depth + 1) rest
          return (array items, rest)
    | '\x7b' :: rest =>
      if depthLimit ≤ depth + 1 then none
      else
        match dropBlanks rest with
        | '\x7d' :: rest => some (table .closed [], rest)
        | rest => do
          let (pairs, rest) ← pairs? fuel (depth + 1) rest
          let v ← ofPairs pairs
          return (v, rest)
    | 't' :: rest => (dropText? "rue".toList rest).map (boolean true, ·)
    | 'f' :: rest => (dropText? "alse".toList rest).map (boolean false, ·)
    | c :: rest =>
      if c = '"' || c = '\'' then (string? (c :: rest)).map fun (text, rest) => (string text, rest)
      else
        match date? (c :: rest) with
        | some rest => some (date, rest)
        | none => number? (c :: rest)

/-- The items of an array up to its closing bracket, with a comma behind the last or not. -/
def items? : Nat → Nat → Reader (List Toml)
  | 0, _, _ => none
  | fuel + 1, depth, cs => do
    let (v, rest) ← value? fuel depth cs
    match ← skipLines? rest.length rest with
    | ']' :: rest => return ([v], rest)
    | ',' :: rest =>
      match ← skipLines? rest.length rest with
      | ']' :: rest => return ([v], rest)
      | rest =>
        let (items, rest) ← items? fuel depth rest
        return (v :: items, rest)
    | _ => none

/-- The pairs of a table in braces, on one line and with no comma behind the last. -/
def pairs? : Nat → Nat → Reader (List (DottedKey × Toml))
  | 0, _, _ => none
  | fuel + 1, depth, cs => do
    let (key, rest) ← key? cs
    let rest ← expect? '=' rest
    let (v, rest) ← value? fuel depth (dropBlanks rest)
    match dropBlanks rest with
    | '\x7d' :: rest => return ([(key, v)], rest)
    | ',' :: rest =>
      let (pairs, rest) ← pairs? fuel depth rest
      return ((key, v) :: pairs, rest)
    | _ => none

end

/-! Documents. -/

/-- One statement with its line. -/
def statement? : Reader Statement
  | '[' :: '[' :: rest => do
    let (key, rest) ← key? rest
    let rest ← dropText? "]]".toList rest
    let rest ← endLine? rest
    return (.nextHeader key, rest)
  | '[' :: rest => do
    let (key, rest) ← key? rest
    let rest ← expect? ']' rest
    let rest ← endLine? rest
    return (.header key, rest)
  | cs => do
    let (key, rest) ← key? cs
    let rest ← expect? '=' rest
    let rest := dropBlanks rest
    let (v, rest) ← value? (2 * rest.length + 2) 0 rest
    let rest ← endLine? rest
    return (.pair key v, rest)

/-- The statements of a text. -/
def statements? : Nat → List Char → Option (List Statement)
  | 0, _ => none
  | fuel + 1, cs =>
    match dropBlanks cs with
    | [] => some []
    | c :: rest =>
      if c = '#' || c = '\n' || c = '\r' then (endLine? (c :: rest)).bind (statements? fuel)
      else do
        let (statement, rest) ← statement? (c :: rest)
        let statements ← statements? fuel rest
        return statement :: statements

/-- The document that a text writes. -/
def read? (text : String) : Option Toml :=
  let cs :=
    match text.toList with
    | '\uFEFF' :: rest => rest
    | cs => cs
  (statements? (cs.length + 1) cs).bind build

end KeyChain.Toml
