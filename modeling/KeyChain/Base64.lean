import KeyChain.Bytes
/-! Standard base64 with padding. `encode` writes four symbols for three bytes; `decode` reads back
   exactly what `encode` writes and names the first fault of any other text. Faults are looked for
   in this order: a foreign byte at the end of a text that is one byte too long, foreign bytes in
   the leading groups of four, then in the last group its symbols, its length, its padding, and
   unused bits that are set. Offsets count bytes. -/
namespace KeyChain.Base64

/-- Why a text is not base64. -/
inductive Fault where
  | symbol (byte : UInt8) (offset : Nat)
  | length (count : Nat)
  | lastSymbol (byte : UInt8) (offset : Nat)
  | padding
  deriving DecidableEq, Repr

def Fault.message : Fault → String
  | .symbol byte offset => s!"Invalid symbol {byte.toNat}, offset {offset}."
  | .length count => s!"Invalid input length: {count}"
  | .lastSymbol byte offset => s!"Invalid last symbol {byte.toNat}, offset {offset}."
  | .padding => "Invalid padding"

/-- The equals sign. -/
def pad : UInt8 := 61

/-- The symbol of a number below 64. -/
def symbol (n : Nat) : UInt8 :=
  UInt8.ofNat <|
    if n < 26 then 65 + n else if n < 52 then 71 + n else if n < 62 then n - 4
    else if n = 62 then 43 else 47

/-- The number of a symbol. -/
def value? (b : UInt8) : Option Nat :=
  let n := b.toNat
  if 65 ≤ n ∧ n ≤ 90 then some (n - 65)
  else if 97 ≤ n ∧ n ≤ 122 then some (n - 71)
  else if 48 ≤ n ∧ n ≤ 57 then some (n + 4)
  else if n = 43 then some 62
  else if n = 47 then some 63
  else none

/-- Four symbols for each three bytes; one or two bytes at the end are padded. -/
def encodeBytes : Bytes → Bytes
  | a :: b :: c :: rest =>
    let n := 65536 * a.toNat + 256 * b.toNat + c.toNat
    symbol (n / 262144) :: symbol (n / 4096 % 64) :: symbol (n / 64 % 64) :: symbol (n % 64) ::
      encodeBytes rest
  | [a, b] =>
    let n := 256 * a.toNat + b.toNat
    [symbol (n / 1024), symbol (n / 16 % 64), symbol (n % 16 * 4), pad]
  | [a] => [symbol (a.toNat / 4), symbol (a.toNat % 4 * 16), pad, pad]
  | [] => []

/-- Base64 text of a byte string. -/
def encode (b : Bytes) : String :=
  String.ofList ((encodeBytes b).map fun s => Char.ofNat s.toNat)

/-- The value of the symbol at an offset. -/
def valueAt (b : UInt8) (offset : Nat) : Except Fault Nat :=
  match value? b with
  | some v => .ok v
  | none => .error (.symbol b offset)

/-- The three bytes of four symbol values. -/
def quad (w x y z : Nat) : Bytes :=
  let n := 262144 * w + 4096 * x + 64 * y + z
  [UInt8.ofNat (n / 65536), UInt8.ofNat (n / 256), UInt8.ofNat n]

/-- Symbols, padding signs, and the place of the first of them, as a group is read from the left. -/
structure Group where
  values : List Nat
  padding : Nat
  firstPad : Nat

/-- Reads the last group from place `i` on; `start` is the offset of the group. -/
def readGroup (start : Nat) : Nat → Group → Bytes → Except Fault Group
  | _, g, [] => .ok g
  | i, g, b :: rest =>
    if b = pad then
      if i < 2 then .error (.symbol pad (start + i))
      else
        let firstPad := if g.padding = 0 then i else g.firstPad
        readGroup start (i + 1) { g with padding := g.padding + 1, firstPad := firstPad } rest
    else if g.padding ≠ 0 then .error (.symbol pad (start + g.firstPad))
    else do
      let v ← valueAt b (start + i)
      readGroup start (i + 1) { g with values := g.values ++ [v] } rest

/-- The bytes of the last group, which has at most four bytes. -/
def decodeGroup (start : Nat) (group : Bytes) : Except Fault Bytes := do
  let g ← readGroup start 0 ⟨[], 0, 0⟩ group
  let last (n : Nat) : UInt8 := group.getD n 0
  match g.values with
  | [] => if group.isEmpty then return [] else throw (.length start)
  | [_] => throw (.length (start + 1))
  | [w, x] =>
    if g.padding ≠ 2 then throw .padding
    else if x % 16 ≠ 0 then throw (.lastSymbol (last 1) (start + 1))
    else return (quad w x 0 0).take 1
  | [w, x, y] =>
    if g.padding ≠ 1 then throw .padding
    else if y % 4 ≠ 0 then throw (.lastSymbol (last 2) (start + 2))
    else return (quad w x y 0).take 2
  | w :: x :: y :: z :: _ => return quad w x y z

/-- Reads the groups from offset `start` on; all but the last have no padding. -/
def decodeGroups (start : Nat) : Bytes → Except Fault Bytes
  | a :: b :: c :: d :: e :: rest => do
    let w ← valueAt a start
    let x ← valueAt b (start + 1)
    let y ← valueAt c (start + 2)
    let z ← valueAt d (start + 3)
    let tail ← decodeGroups (start + 4) (e :: rest)
    return quad w x y z ++ tail
  | group => decodeGroup start group

/-- A foreign byte at the end of a text that is one byte longer than whole groups. -/
def strayLast? (b : Bytes) : Option Fault :=
  if b.length % 4 = 1 then
    match b.getLast? with
    | some x => if x ≠ pad ∧ value? x = none then some (.symbol x (b.length - 1)) else none
    | none => none
  else none

/-- The bytes that a base64 text stands for. -/
def decode (text : String) : Except Fault Bytes :=
  let b := Bytes.utf8 text
  match strayLast? b with
  | some fault => .error fault
  | none => decodeGroups 0 b

end KeyChain.Base64
