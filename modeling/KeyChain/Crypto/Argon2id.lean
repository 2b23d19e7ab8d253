import KeyChain.Crypto.Blake2b
import KeyChain.Crypto.Mixing
/-! Argon2id, version 1.3, without secret and associated data. Memory is a matrix of blocks of
   1024 bytes, one row a lane and four slices a row; each block is compressed from its predecessor
   and a block elsewhere in what is already filled. In the first half of the first pass the other
   block is chosen by a counter, later by the predecessor. The result has the length asked for,
   which is at most 64 bytes (`length_hash`). -/
namespace KeyChain.Argon2id

/-- 1024 bytes as words. -/
abbrev Block := Vector UInt64 128

/-- The costs of a run: passes over the memory, memory in blocks of 1024 bytes, and lanes. -/
structure Cost where
  time : Nat
  memory : Nat
  lanes : Nat
  deriving DecidableEq

namespace Cost

/-- Blocks in one of the four slices of a lane. -/
def segment (c : Cost) : Nat := c.memory / (4 * c.lanes)

/-- Blocks in a lane. -/
def lane (c : Cost) : Nat := 4 * c.segment

/-- Blocks in use. -/
def blocks (c : Cost) : Nat := c.lanes * c.lane

end Cost

def version : Nat := 0x13
def variantTag : Nat := 2

/-! Compression. -/

@[inline] def rotr (x : UInt64) (n : UInt64) : UInt64 := (x >>> n) ||| (x <<< (64 - n))

/-- Addition with twice the product of the low halves. -/
@[inline] def addMul (x y : UInt64) : UInt64 :=
  x + y + 2 * (x &&& 0xffffffff) * (y &&& 0xffffffff)

/-- Mixes four words. -/
@[inline] def mix (a b c d : UInt64) : UInt64 × UInt64 × UInt64 × UInt64 :=
  let a := addMul a b
  let d := rotr (d ^^^ a) 32
  let c := addMul c d
  let b := rotr (b ^^^ c) 24
  let a := addMul a b
  let d := rotr (d ^^^ a) 16
  let c := addMul c d
  let b := rotr (b ^^^ c) 63
  (a, b, c, d)

/-- Mixes sixteen words, given by their places. -/
def permute (v : Block) (p : Fin 16 → Fin 128) : Block :=
  Mixing.columnsAndDiagonals (fun _ i j k l v => Mixing.mixAt mix v (p i) (p j) (p k) (p l)) v

/-- Row `r` of the eight rows of sixteen words. -/
def rowPlace (r : Fin 8) (i : Fin 16) : Fin 128 := ⟨16 * r.val + i.val, by omega⟩

/-- Column `c` of the eight columns of pairs of words. -/
def columnPlace (c : Fin 8) (i : Fin 16) : Fin 128 := ⟨2 * c.val + 16 * (i.val / 2) + i.val % 2, by omega⟩

def xorBlocks (a b : Block) : Block := Vector.zipWith (· ^^^ ·) a b

/-- One block from two: their exclusive or, mixed by rows and by columns, plus itself unmixed. -/
def compress (a b : Block) : Block :=
  let start := xorBlocks a b
  let rows := (List.finRange 8).foldl (fun v r => permute v (rowPlace r)) start
  let mixed := (List.finRange 8).foldl (fun v c => permute v (columnPlace c)) rows
  xorBlocks mixed start

def zeroBlock : Block := Vector.replicate 128 0

/-! Bytes and blocks. -/

def blockBytes (b : Block) : Bytes := b.toList.flatMap fun w => Bytes.ofNatLE 8 w.toNat

def blockOfBytes (b : Bytes) : Block := ⟨(Blake2b.words 128 b).toArray, by simp⟩

/-- `count` half digests, each of the digest before it, and a last digest of `rest` bytes. -/
def digestChain : Nat → Nat → Bytes → Bytes
  | 0, rest, digest => Blake2b.hash rest digest
  | count + 1, rest, digest =>
    let next := Blake2b.hash 64 digest
    next.take 32 ++ digestChain count rest next

/-- The variable-length hash: one digest up to 64 bytes, else a chain that gives 32 bytes a link. -/
def longHash (n : Nat) (message : Bytes) : Bytes :=
  let framed := Bytes.ofNatLE 4 n ++ message
  if n ≤ 64 then Blake2b.hash n framed
  else
    let links := (n + 31) / 32 - 2
    let first := Blake2b.hash 64 framed
    first.take 32 ++ digestChain (links - 1) (n - 32 * links) first

/-- The digest of the inputs that all blocks start from. -/
def seedDigest (c : Cost) (outLength : Nat) (password salt : Bytes) : Bytes :=
  Blake2b.hash 64 <|
    Bytes.ofNatLE 4 c.lanes ++ Bytes.ofNatLE 4 outLength ++ Bytes.ofNatLE 4 c.memory ++
    Bytes.ofNatLE 4 c.time ++ Bytes.ofNatLE 4 version ++ Bytes.ofNatLE 4 variantTag ++
    Bytes.ofNatLE 4 password.length ++ password ++ Bytes.ofNatLE 4 salt.length ++ salt ++
    Bytes.ofNatLE 4 0 ++ Bytes.ofNatLE 4 0

/-! Filling the memory. -/

/-- Where a block is: its pass, lane, slice, and place in the slice. -/
structure Place where
  pass : Nat
  lane : Nat
  slice : Nat
  index : Nat

/-- Whether the other block is chosen by a counter. -/
def Place.byCounter (p : Place) : Bool := p.pass == 0 && p.slice < 2

/-- The `number`-th block of 128 choices of a segment, counted from one. -/
def addressBlock (c : Cost) (p : Place) (number : Nat) : Block :=
  let input : Block := ⟨#[UInt64.ofNat p.pass, UInt64.ofNat p.lane, UInt64.ofNat p.slice,
    UInt64.ofNat c.blocks, UInt64.ofNat c.time, UInt64.ofNat variantTag, UInt64.ofNat number] ++
    Array.replicate 121 0, by simp⟩
  compress zeroBlock (compress zeroBlock input)

/-- The index of the other block, for a choice word. The low half picks a block, late ones more
    often; the high half picks a lane, which in the first slice of all is the own one. -/
def otherIndex (c : Cost) (p : Place) (word : UInt64) : Nat :=
  let low := word.toNat % UInt32.size
  let high := word.toNat / UInt32.size
  let lane := if p.pass = 0 ∧ p.slice = 0 then p.lane else high % c.lanes
  let filled := if p.pass = 0 then p.slice * c.segment else c.lane - c.segment
  let size :=
    if lane = p.lane then filled + p.index - 1
    else if p.index = 0 then filled - 1 else filled
  let skewed := size * (low * low / UInt32.size) / UInt32.size
  let start := if p.pass = 0 ∨ p.slice = 3 then 0 else (p.slice + 1) * c.segment
  lane * c.lane + (start + (size - 1 - skewed)) % c.lane

/-- Fills one block; `addresses` holds the current choices by counter. -/
def fillBlock (c : Cost) (p : Place) (addresses : Block) (memory : Array Block) : Array Block :=
  let column := p.slice * c.segment + p.index
  let previous := memory.getD (p.lane * c.lane + (column + c.lane - 1) % c.lane) zeroBlock
  let word := if p.byCounter then addresses.toArray.getD (p.index % 128) 0 else previous[0]
  let other := memory.getD (otherIndex c p word) zeroBlock
  let fresh := compress previous other
  let here := p.lane * c.lane + column
  if p.pass = 0 then memory.setIfInBounds here fresh
  else memory.modify here (xorBlocks fresh)

/-- Fills `count` blocks of a segment from `p.index` on. -/
def fillBlocks (c : Cost) : Nat → Place → Block → Array Block → Array Block
  | 0, _, _, memory => memory
  | count + 1, p, addresses, memory =>
    let addresses :=
      if p.byCounter && p.index % 128 == 0 then addressBlock c p (p.index / 128 + 1) else addresses
    fillBlocks c count { p with index := p.index + 1 } addresses (fillBlock c p addresses memory)

/-- Fills a segment. The first two blocks of a lane are given before the first pass. -/
def fillSegment (c : Cost) (memory : Array Block) (p : Place) : Array Block :=
  if p.pass = 0 ∧ p.slice = 0 then
    fillBlocks c (c.segment - 2) { p with index := 2 } (addressBlock c p 1) memory
  else fillBlocks c c.segment p zeroBlock memory

/-- All segments of one pass: slice by slice, in each slice lane by lane. -/
def fillPass (c : Cost) (memory : Array Block) (pass : Nat) : Array Block :=
  (List.range 4).foldl (fun memory slice =>
    (List.range c.lanes).foldl (fun memory lane => fillSegment c memory ⟨pass, lane, slice, 0⟩)
      memory) memory

/-- The memory before the first pass: two blocks at the start of each lane, zeros elsewhere. -/
def startMemory (c : Cost) (seed : Bytes) : Array Block :=
  (List.range c.lanes).foldl (fun memory lane =>
    let first (i : Nat) := blockOfBytes (longHash 1024 (seed ++ Bytes.ofNatLE 4 i ++ Bytes.ofNatLE 4 lane))
    (memory.setIfInBounds (lane * c.lane) (first 0)).setIfInBounds (lane * c.lane + 1) (first 1))
    (Array.replicate c.blocks zeroBlock)

/-- The exclusive or of the last blocks of all lanes. -/
def lastColumn (c : Cost) (memory : Array Block) : Block :=
  (List.range c.lanes).foldl (fun acc lane =>
    xorBlocks acc (memory.getD (lane * c.lane + (c.lane - 1)) zeroBlock)) zeroBlock

/-- `n` bytes from a password and a salt at a given cost. -/
def hash (c : Cost) (n : Nat) (password salt : Bytes) : Bytes :=
  let start := startMemory c (seedDigest c n password salt)
  longHash n (blockBytes (lastColumn c ((List.range c.time).foldl (fillPass c) start)))

theorem length_hash (c : Cost) (n : Nat) (password salt : Bytes) (h : n ≤ 64) :
    (hash c n password salt).length = n := by
  simp only [hash, longHash, if_pos h]
  exact Blake2b.length_hash n _ h

end KeyChain.Argon2id
