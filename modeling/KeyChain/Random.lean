import KeyChain.Bytes
/-! Random bytes as data: an endless stream and a place in it. A drawing operation takes the source
   and returns it moved on, so the order and amount of draws are part of every statement. Whole
   numbers below a range are drawn without bias: words that would make some numbers likelier than
   others are drawn again, however often that takes (`wordBelow?`). -/
namespace KeyChain

/-- An endless stream of bytes and how many were drawn. -/
structure RandomSource where
  byteAt : Nat → UInt8
  position : Nat

namespace RandomSource

/-- The next `n` bytes. -/
def draw (n : Nat) (s : RandomSource) : FixedBytes n × RandomSource :=
  (⟨(List.range n).map fun i => s.byteAt (s.position + i), by simp⟩,
    { s with position := s.position + n })

/-- The largest low half that a word may leave behind: one less than the range shifted up as far as
    32 bits hold it. -/
def zone (range : UInt32) : UInt32 := (range <<< UInt32.ofNat (31 - range.toNat.log2)) - 1

/-- The number below `range` that a word selects, if the word is not to be redrawn: the high half of
    its product with the range. -/
def select? (range word : UInt32) : Option UInt32 :=
  let product := word.toUInt64 * range.toUInt64
  if product.toUInt32 ≤ zone range then some (product >>> 32).toUInt32 else none

/-- A number below `range`: words are drawn until one is not to be redrawn. If there is none, the draw does not
    end, and gives no number. -/
def wordBelow? (range : UInt32) (s : RandomSource) : Option (UInt32 × RandomSource) :=
  let (bytes, s) := s.draw 4
  match select? range (UInt32.ofNat (Bytes.toNatLE bytes.bytes)) with
  | some word => some (word, s)
  | none => s |>.wordBelow? range
partial_fixpoint

/-- Word `index` of the reproducible stream of a seed: a counter stepped by the golden ratio and
    scrambled by two multiplications. -/
def splitMix (seed : UInt64) (index : Nat) : UInt64 :=
  let z := seed + 0x9E3779B97F4A7C15 * UInt64.ofNat (index + 1)
  let z := (z ^^^ (z >>> 30)) * 0xBF58476D1CE4E5B9
  let z := (z ^^^ (z >>> 27)) * 0x94D049BB133111EB
  z ^^^ (z >>> 31)

/-- Byte `index` of the reproducible stream of a seed, words least significant byte first. -/
def splitMixByte (seed : UInt64) (index : Nat) : UInt8 :=
  (splitMix seed (index / 8) >>> UInt64.ofNat (8 * (index % 8))).toUInt8

/-- The source that gives the bytes `lead` and then the stream of a seed from byte `skip` on. -/
def rehearsed (lead : Bytes) (seed : UInt64) (skip : Nat) : RandomSource :=
  let lead := lead.toArray
  ⟨fun i => if h : i < lead.size then lead[i] else splitMixByte seed (skip + (i - lead.size)), 0⟩

end RandomSource

end KeyChain
