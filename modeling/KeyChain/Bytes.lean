/-! Byte strings: words in either byte order, hexadecimal text, UTF-8 text, and strings of a
   fixed length.

   1. `ofNatLE` and `ofNatBE` write a number in a given count of bytes, `toNatLE` and `toNatBE`
      read it back (`toNatLE_ofNatLE`, `toNatBE_ofNatBE`);
   2. `toHex` writes two lower-case digits a byte, `ofHex?` reads digits of either case;
   3. `utf8` and `text?` pass between text and its UTF-8 bytes;
   4. `FixedBytes n` is a byte string that is known to hold `n` bytes. -/
namespace KeyChain

/-- A byte string. -/
abbrev Bytes := List UInt8

namespace Bytes

/-! Words. -/

/-- The `width` low bytes of a number, least significant first. -/
def ofNatLE : Nat → Nat → Bytes
  | 0, _ => []
  | width + 1, n => UInt8.ofNat n :: ofNatLE width (n / 256)

/-- The number whose bytes are given least significant first. -/
def toNatLE : Bytes → Nat
  | [] => 0
  | b :: rest => b.toNat + 256 * toNatLE rest

/-- The `width` low bytes of a number, most significant first. -/
def ofNatBE (width n : Nat) : Bytes := (ofNatLE width n).reverse

/-- The number whose bytes are given most significant first. -/
def toNatBE (b : Bytes) : Nat := toNatLE b.reverse

@[simp] theorem length_ofNatLE (width n : Nat) : (ofNatLE width n).length = width := by
  induction width generalizing n with
  | zero => rfl
  | succ w ih => simp [ofNatLE, ih]

@[simp] theorem length_ofNatBE (width n : Nat) : (ofNatBE width n).length = width := by
  simp [ofNatBE]

/-- Reading a written word gives the number modulo the range of the width. -/
theorem toNatLE_ofNatLE (width n : Nat) : toNatLE (ofNatLE width n) = n % Nat.pow 256 width := by
  induction width generalizing n with
  | zero => simp [ofNatLE, toNatLE, Nat.mod_one]
  | succ w ih =>
    have byte : (UInt8.ofNat n).toNat = n % 256 := by simp
    have step : Nat.pow 256 (w + 1) = 256 * Nat.pow 256 w := Nat.mul_comm _ _
    rw [step]
    simp only [ofNatLE, toNatLE, ih, byte]
    rw [Nat.mod_mul]

theorem toNatBE_ofNatBE (width n : Nat) : toNatBE (ofNatBE width n) = n % Nat.pow 256 width := by
  simp [toNatBE, ofNatBE, toNatLE_ofNatLE]

/-- Writing what was read from `b` in its own width gives `b`. -/
theorem ofNatLE_toNatLE (b : Bytes) : ofNatLE b.length (toNatLE b) = b := by
  induction b with
  | nil => rfl
  | cons x rest ih =>
    have hx : x.toNat < 256 := x.toNat_lt
    simp only [List.length_cons, ofNatLE, toNatLE]
    rw [show (x.toNat + 256 * toNatLE rest) / 256 = toNatLE rest by omega, ih]
    congr 1
    apply UInt8.toNat_inj.1
    rw [UInt8.toNat_ofNat']
    omega

theorem ofNatBE_toNatBE (b : Bytes) : ofNatBE b.length (toNatBE b) = b := by
  have h := ofNatLE_toNatLE b.reverse
  rw [List.length_reverse] at h
  rw [ofNatBE, toNatBE, h, List.reverse_reverse]

/-! Pointwise exclusive or. -/

/-- Exclusive or of two byte strings, as long as the shorter one. -/
def xor (a b : Bytes) : Bytes := List.zipWith (· ^^^ ·) a b

theorem length_xor (a b : Bytes) : (xor a b).length = min a.length b.length := by
  simp [xor]

/-- Applying a key stream that is long enough twice changes nothing. -/
theorem xor_xor_cancel (a k : Bytes) (h : a.length ≤ k.length) : xor (xor a k) k = a := by
  induction a generalizing k with
  | nil => rfl
  | cons x rest ih =>
    cases k with
    | nil => simp at h
    | cons y ys =>
      have : xor rest ys = List.zipWith (· ^^^ ·) rest ys := rfl
      simp only [xor, List.zipWith_cons_cons]
      rw [← this, UInt8.xor_assoc, UInt8.xor_self, UInt8.xor_zero]
      congr 1
      exact ih ys (by simpa using h)

/-! Hexadecimal text. -/

/-- The lower-case digit of a number below sixteen. -/
def hexDigit (n : Nat) : Char := Char.ofNat (if n < 10 then 48 + n else 87 + n)

/-- The value of a hexadecimal digit of either case. -/
def hexValue? (c : Char) : Option Nat :=
  if '0' ≤ c ∧ c ≤ '9' then some (c.toNat - 48)
  else if 'a' ≤ c ∧ c ≤ 'f' then some (c.toNat - 87)
  else if 'A' ≤ c ∧ c ≤ 'F' then some (c.toNat - 55)
  else none

/-- Two digits a byte, high half first. -/
def hexChars : Bytes → List Char
  | [] => []
  | b :: rest => hexDigit (b.toNat / 16) :: hexDigit (b.toNat % 16) :: hexChars rest

/-- The bytes that pairs of digits spell; a lone digit or another character is refused. -/
def ofHexChars? : List Char → Option Bytes
  | [] => some []
  | hi :: lo :: rest => do
    let h ← hexValue? hi
    let l ← hexValue? lo
    let tail ← ofHexChars? rest
    return UInt8.ofNat (16 * h + l) :: tail
  | [_] => none

def toHex (b : Bytes) : String := String.ofList (hexChars b)

def ofHex? (s : String) : Option Bytes := ofHexChars? s.toList

/-! Text. -/

/-- The bytes of one character: 7 bits in one byte, 11 in two, 16 in three, 21 in four. -/
def ofChar (c : Char) : Bytes :=
  let n := c.toNat
  if n < 0x80 then [UInt8.ofNat n]
  else if n < 0x800 then [UInt8.ofNat (0xC0 + n / 64), UInt8.ofNat (0x80 + n % 64)]
  else if n < 0x10000 then
    [UInt8.ofNat (0xE0 + n / 4096), UInt8.ofNat (0x80 + n / 64 % 64), UInt8.ofNat (0x80 + n % 64)]
  else
    [UInt8.ofNat (0xF0 + n / 262144), UInt8.ofNat (0x80 + n / 4096 % 64),
      UInt8.ofNat (0x80 + n / 64 % 64), UInt8.ofNat (0x80 + n % 64)]

def ofChars (cs : List Char) : Bytes := cs.flatMap ofChar

/-- UTF-8 bytes of a text. -/
def utf8 (s : String) : Bytes := ofChars s.toList

/-- The payload of a continuation byte. -/
def continuation? (b : UInt8) : Option Nat :=
  if 0x80 ≤ b ∧ b ≤ 0xBF then some (b.toNat - 0x80) else none

/-- The character with a given scalar value, if it is at least `least` and no surrogate:
    a longer encoding than needed is refused. -/
def scalar? (least n : Nat) : Option Char :=
  if h : least ≤ n ∧ n.isValidChar then some (Char.ofNatAux n h.2) else none

/-- The first character that a byte string encodes, and what follows it. -/
def nextChar? : Bytes → Option (Char × Bytes)
  | [] => none
  | a :: rest =>
    if a < 0x80 then some (Char.ofNat a.toNat, rest)
    else if a < 0xE0 then
      match rest with
      | b :: rest => do
        let x ← continuation? b
        let c ← if 0xC0 ≤ a then scalar? 0x80 (64 * (a.toNat - 0xC0) + x) else none
        return (c, rest)
      | _ => none
    else if a < 0xF0 then
      match rest with
      | b :: d :: rest => do
        let x ← continuation? b
        let y ← continuation? d
        let c ← scalar? 0x800 (4096 * (a.toNat - 0xE0) + 64 * x + y)
        return (c, rest)
      | _ => none
    else
      match rest with
      | b :: d :: e :: rest => do
        let x ← continuation? b
        let y ← continuation? d
        let z ← continuation? e
        let c ← scalar? 0x10000 (262144 * (a.toNat - 0xF0) + 4096 * x + 64 * y + z)
        return (c, rest)
      | _ => none

/-- Decodes up to `count` characters behind those already read, last one first. -/
def charsOnto? : Nat → List Char → Bytes → Option (List Char)
  | _, read, [] => some read.reverse
  | 0, _, _ :: _ => none
  | count + 1, read, b =>
    match nextChar? b with
    | some (c, rest) => charsOnto? count (c :: read) rest
    | none => none

/-- The characters that a byte string encodes, if it is well-formed UTF-8. Every character takes
    at least one byte, so their number is no more than the length. -/
def chars? (b : Bytes) : Option (List Char) := charsOnto? b.length [] b

/-- The text that a byte string encodes, if it is well-formed UTF-8. -/
def text? (b : Bytes) : Option String := (chars? b).map String.ofList

end Bytes

/-- A byte string of exactly `n` bytes. -/
structure FixedBytes (n : Nat) where
  bytes : Bytes
  length_eq : bytes.length = n
  deriving DecidableEq

namespace FixedBytes

@[ext] theorem ext {n : Nat} {a b : FixedBytes n} (h : a.bytes = b.bytes) : a = b := by
  cases a; cases b; simp_all

/-- The bytes as a string of length `n`, if that is their number. -/
def ofBytes? (n : Nat) (b : Bytes) : Option (FixedBytes n) :=
  if h : b.length = n then some ⟨b, h⟩ else none

/-- The string of `n` zero bytes. -/
def zero (n : Nat) : FixedBytes n := ⟨List.replicate n 0, List.length_replicate⟩

/-- All bytes from position `keep` on are cleared. -/
def clearFrom {n : Nat} (keep : Nat) (b : FixedBytes n) : FixedBytes n :=
  ⟨b.bytes.take keep ++ List.replicate (n - keep) 0, by
    simp only [List.length_append, List.length_take, b.length_eq, List.length_replicate]; omega⟩

theorem ofBytes?_bytes {n : Nat} (b : FixedBytes n) : ofBytes? n b.bytes = some b := by
  simp [ofBytes?, b.length_eq]

theorem bytes_of_ofBytes? {n : Nat} {b : Bytes} {x : FixedBytes n} (h : ofBytes? n b = some x) :
    x.bytes = b := by
  unfold ofBytes? at h
  split at h <;> cases h
  rfl

/-- Clearing twice from the same place is clearing once. -/
theorem clearFrom_clearFrom {n : Nat} (keep : Nat) (b : FixedBytes n) :
    (b.clearFrom keep).clearFrom keep = b.clearFrom keep := by
  apply FixedBytes.ext
  simp only [clearFrom]
  congr 1
  rw [List.take_append, List.take_take, Nat.min_self, List.length_take, b.length_eq]
  simp [show keep - min keep n = 0 ∨ n - keep = 0 by omega]

end FixedBytes

end KeyChain
