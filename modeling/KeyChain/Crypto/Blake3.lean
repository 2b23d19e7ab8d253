import KeyChain.Bytes
import KeyChain.Crypto.Mixing
/-! BLAKE3 with digests of 32 bytes. A message is cut into chunks of 1024 bytes, each chunk is
   folded block by block, and the chaining values of neighbouring subtrees are joined in pairs,
   level by level, an odd one at the end going up unchanged. The last compression of a tree is
   marked as the root, so every node is kept open until its place is known. -/
namespace KeyChain.Blake3

def iv : List UInt32 :=
  [0x6A09E667, 0xBB67AE85, 0x3C6EF372, 0xA54FF53A, 0x510E527F, 0x9B05688C, 0x1F83D9AB, 0x5BE0CD19]

def chunkStart : UInt32 := 1
def chunkEnd : UInt32 := 2
def parentFlag : UInt32 := 4
def rootFlag : UInt32 := 8

@[inline] def rotr (x : UInt32) (n : UInt32) : UInt32 := (x >>> n) ||| (x <<< (32 - n))

/-- Mixes two message words into four words. -/
@[inline] def mix (x y a b c d : UInt32) : UInt32 × UInt32 × UInt32 × UInt32 :=
  let a := a + b + x
  let d := rotr (d ^^^ a) 16
  let c := c + d
  let b := rotr (b ^^^ c) 12
  let a := a + b + y
  let d := rotr (d ^^^ a) 8
  let c := c + d
  let b := rotr (b ^^^ c) 7
  (a, b, c, d)

/-- One round, which takes the message words two at a time. -/
def round (v : WordMatrix UInt32) (m : Array UInt32) : WordMatrix UInt32 :=
  Mixing.columnsAndDiagonals
    (fun n i j k l v => Mixing.mixAt (mix (m.getD (2 * n) 0) (m.getD (2 * n + 1) 0)) v i j k l) v

/-- Where the message words of the next round are in this one. -/
def order : Array Nat := #[2, 6, 3, 10, 7, 0, 4, 13, 1, 11, 12, 5, 9, 14, 15, 8]

/-- `n` rounds. -/
def rounds : Nat → WordMatrix UInt32 → Array UInt32 → WordMatrix UInt32
  | 0, v, _ => v
  | n + 1, v, m => rounds n (round v m) (order.map fun i => m.getD i 0)

/-- A compression that has still to learn whether it is the root. -/
structure Node where
  /-- The eight chaining words put in. -/
  input : List UInt32
  /-- The sixteen message words. -/
  block : List UInt32
  counter : Nat
  length : Nat
  flags : UInt32

/-- The words of a byte string, least significant byte first. -/
def words : Bytes → List UInt32
  | a :: b :: c :: d :: rest => UInt32.ofNat (Bytes.toNatLE [a, b, c, d]) :: words rest
  | _ => []

/-- The eight words that a node puts out under additional flags. -/
def Node.output (n : Node) (extra : UInt32) : List UInt32 :=
  let word (ws : List UInt32) (i : Nat) : UInt32 := ws.getD i 0
  let start : WordMatrix UInt32 := Vector.ofFn fun i =>
    if i.val < 8 then word n.input i.val
    else if i.val < 12 then word iv (i.val - 8)
    else word [UInt32.ofNat n.counter, UInt32.ofNat (n.counter / UInt32.size), UInt32.ofNat n.length,
      n.flags ||| extra] (i.val - 12)
  let v := rounds 7 start n.block.toArray
  (List.range 8).map fun i => v.toArray.getD i 0 ^^^ v.toArray.getD (i + 8) 0

/-- Folds `count` blocks of chunk number `counter` and leaves the one after them open. -/
def chunkNode (counter : Nat) : Nat → List UInt32 → UInt32 → Bytes → Node
  | 0, cv, flags, b =>
    ⟨cv, words (b ++ List.replicate (64 - b.length) 0), counter, b.length, flags ||| chunkEnd⟩
  | count + 1, cv, flags, b =>
    chunkNode counter count ((Node.mk cv (words (b.take 64)) counter 64 flags).output 0) 0 (b.drop 64)

/-- The nodes of `count` chunks and of the one after them, numbered from `counter`. -/
def chunkNodes : Nat → Nat → Bytes → List Node
  | 0, counter, b => [chunkNode counter ((b.length - 1) / 64) iv chunkStart b]
  | count + 1, counter, b =>
    chunkNode counter 15 iv chunkStart (b.take 1024) :: chunkNodes count (counter + 1) (b.drop 1024)

/-- The node above two nodes. -/
def parent (left right : Node) : Node :=
  ⟨iv, left.output 0 ++ right.output 0, 0, 64, parentFlag⟩

/-- Joins neighbours in pairs. -/
def joinPairs : List Node → List Node
  | left :: right :: rest => parent left right :: joinPairs rest
  | nodes => nodes

/-- Joins a level `n` times. -/
def joinLevels : Nat → List Node → List Node
  | 0, nodes => nodes
  | n + 1, nodes => joinLevels n (joinPairs nodes)

/-- The root words over the nodes of the chunks: as many levels as there are chunks suffice. -/
def rootWords (nodes : List Node) : List UInt32 :=
  match joinLevels nodes.length.log2.succ nodes with
  | root :: _ => root.output rootFlag
  | [] => []

def hash (message : Bytes) : Bytes :=
  (rootWords (chunkNodes ((message.length - 1) / 1024) 0 message)).flatMap fun w =>
    Bytes.ofNatLE 4 w.toNat

end KeyChain.Blake3
