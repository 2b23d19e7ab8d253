import KeyChain.Bytes
/-! Writing TOML strings. The form is the first that needs no escapes: between double quotes, between
   single quotes, and each of these over several lines; failing that, escapes are written, over
   several lines if the text has any. -/
namespace KeyChain.Toml

/-- The forms of a string. -/
inductive StringForm where
  | basic
  | literal
  | basicLines
  | literalLines
  deriving DecidableEq, Repr

/-- The length of the longest run of a character. -/
def longestRun (c : Char) (cs : List Char) : Nat :=
  (cs.foldl (fun (run, longest) d =>
    let run := if d = c then run + 1 else 0
    (run, Nat.max run longest)) (0, 0)).2

/-- Whether a character can only be written as an escape. -/
def needsCode (c : Char) : Bool := (c.toNat < 0x20 && c ≠ '\t' && c ≠ '\n') || c.toNat = 0x7F

/-- The form that a text is written in. -/
def formOf (cs : List Char) : StringForm :=
  let codes := cs.any needsCode
  let backslash := cs.contains '\\'
  let lines := cs.contains '\n'
  let double := longestRun '"' cs
  let single := longestRun '\'' cs
  if !codes && !backslash && double = 0 && !lines then .basic
  else if !codes && single = 0 && !lines then .literal
  else if !codes && !backslash && double ≤ 2 then .basicLines
  else if !codes && single ≤ 2 then .literalLines
  else if lines then .basicLines
  else .basic

/-- Four upper-case hexadecimal digits. -/
def codeDigits (n : Nat) : List Char :=
  let digit (n : Nat) : Char := if n < 10 then Char.ofNat (48 + n) else Char.ofNat (55 + n)
  [digit (n / 4096 % 16), digit (n / 256 % 16), digit (n / 16 % 16), digit (n % 16)]

/-- Writes the characters of a string in double quotes. Up to `room` quotes may stand in a row, of
    which `run` have just been written; line feeds stand for themselves if `lines` says so. -/
def escapeChars (lines : Bool) (room : Nat) : Nat → List Char → List Char
  | _, [] => []
  | run, c :: rest =>
    if c = '"' then
      if run < room then c :: escapeChars lines room (run + 1) rest
      else '\\' :: '"' :: escapeChars lines room 0 rest
    else
      let written :=
        if c = '\x08' then ['\\', 'b']
        else if c = '\t' then ['\\', 't']
        else if c = '\n' then if lines then [c] else ['\\', 'n']
        else if c = '\x0c' then ['\\', 'f']
        else if c = '\r' then ['\\', 'r']
        else if c = '\\' then ['\\', '\\']
        else if needsCode c then '\\' :: 'u' :: codeDigits c.toNat
        else [c]
      written ++ escapeChars lines room 0 rest

/-- A text as a TOML string. A text of several lines begins on a line of its own: the line feed right
    behind the opening quotes does not count. -/
def quote (text : String) : String :=
  let cs := text.toList
  let start : List Char := if cs.contains '\n' then ['\n'] else []
  String.ofList <|
    match formOf cs with
    | .basic => '"' :: escapeChars false 0 0 cs ++ ['"']
    | .literal => '\'' :: cs ++ ['\'']
    | .basicLines => ['"', '"', '"'] ++ start ++ escapeChars true 2 0 cs ++ ['"', '"', '"']
    | .literalLines => ['\'', '\'', '\''] ++ start ++ cs ++ ['\'', '\'', '\'']

end KeyChain.Toml
