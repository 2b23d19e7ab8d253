/-! The ciphers that a key can be meant for, and the tag `invalid` of keys that close a chain or
   stand in a decoy. -/
namespace KeyChain

inductive Algorithm where
  | invalid
  | aes128Xts
  | aes256Xts
  | camellia128Xts
  | camellia256Xts
  deriving DecidableEq, Repr

namespace Algorithm

/-- The ciphers a passphrase can be turned into a key for, in display order. -/
def supported : List Algorithm := [aes128Xts, aes256Xts, camellia128Xts, camellia256Xts]

def name : Algorithm → String
  | invalid => "<invalid algorithm>"
  | aes128Xts => "aes128-xts"
  | aes256Xts => "aes256-xts"
  | camellia128Xts => "camellia128-xts"
  | camellia256Xts => "camellia256-xts"

/-- Size of the whole key, which is two cipher keys. -/
def keyBits : Algorithm → Nat
  | invalid => 0
  | aes128Xts | camellia128Xts => 256
  | aes256Xts | camellia256Xts => 512

/-- Bytes of the whole key. -/
def keyLength (a : Algorithm) : Nat := a.keyBits / 8

def isValid (a : Algorithm) : Bool := a != invalid

/-- The supported cipher of a name. -/
def ofName? (name : String) : Option Algorithm := supported.find? fun a => a.name == name

/-- The tag that stands for an algorithm in a link. -/
def tag : Algorithm → UInt8
  | invalid => 0
  | aes128Xts => 1
  | aes256Xts => 2
  | camellia128Xts => 3
  | camellia256Xts => 4

def ofTag? (t : UInt8) : Option Algorithm :=
  [invalid, aes128Xts, aes256Xts, camellia128Xts, camellia256Xts].find? fun a => a.tag == t

theorem ofTag?_tag (a : Algorithm) : ofTag? a.tag = some a := by cases a <;> rfl

theorem ofName?_name (a : Algorithm) (h : a.isValid = true) : ofName? a.name = some a := by
  cases a <;> first | rfl | cases h

end Algorithm

end KeyChain
