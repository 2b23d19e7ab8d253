import KeyChain.Bytes
import KeyChain.Crypto.Mixing
/-! The ChaCha20 block function, its key stream, and HChaCha20, which turns a key and sixteen
   nonce bytes into a fresh key. -/
namespace KeyChain.ChaCha20

@[inline] def rotl (x : UInt32) (n : UInt32) : UInt32 := (x <<< n) ||| (x >>> (32 - n))

/-- Mixes four words. -/
@[inline] def mix (a b c d : UInt32) : UInt32 × UInt32 × UInt32 × UInt32 :=
  let a := a + b
  let d := rotl (d ^^^ a) 16
  let c := c + d
  let b := rotl (b ^^^ c) 12
  let a := a + b
  let d := rotl (d ^^^ a) 8
  let c := c + d
  let b := rotl (b ^^^ c) 7
  (a, b, c, d)

/-- A round over the columns, then one over the diagonals. -/
def doubleRound (s : WordMatrix UInt32) : WordMatrix UInt32 :=
  Mixing.columnsAndDiagonals (fun _ i j k l s => Mixing.mixAt mix s i j k l) s

/-- `n` double rounds. -/
def rounds : Nat → WordMatrix UInt32 → WordMatrix UInt32
  | 0, s => s
  | n + 1, s => rounds n (doubleRound s)

/-- The word at index `i` of a byte string, least significant byte first. -/
def wordAt (b : Bytes) (i : Nat) : UInt32 := UInt32.ofNat (Bytes.toNatLE ((b.drop (4 * i)).take 4))

/-- Four constant words, eight key words, and four words of counter and nonce. -/
def setup (key : FixedBytes 32) (tail : Bytes) : WordMatrix UInt32 :=
  Vector.ofFn fun i =>
    if i.val < 4 then (#[0x61707865, 0x3320646e, 0x79622d32, 0x6b206574] : Array UInt32).getD i.val 0
    else if i.val < 12 then wordAt key.bytes (i.val - 4)
    else wordAt tail (i.val - 12)

def wordBytes (w : UInt32) : Bytes := Bytes.ofNatLE 4 w.toNat

@[simp] theorem length_wordBytes (w : UInt32) : (wordBytes w).length = 4 := by simp [wordBytes]

/-- The 64 bytes of one block of key stream. -/
def block (key : FixedBytes 32) (counter : Nat) (nonce : FixedBytes 12) : Bytes :=
  let start := setup key (Bytes.ofNatLE 4 counter ++ nonce.bytes)
  (Vector.zipWith (· + ·) (rounds 10 start) start).toList.flatMap wordBytes

theorem length_flatMap_wordBytes (ws : List UInt32) :
    (ws.flatMap wordBytes).length = 4 * ws.length := by
  induction ws with
  | nil => rfl
  | cons w rest ih => simp only [List.flatMap_cons, List.length_append, length_wordBytes, ih,
      List.length_cons]; omega

@[simp] theorem length_block (key : FixedBytes 32) (counter : Nat) (nonce : FixedBytes 12) :
    (block key counter nonce).length = 64 := by
  rw [block, length_flatMap_wordBytes]; simp

/-- `count` blocks of key stream, numbered from `counter`. -/
def blocks (key : FixedBytes 32) (nonce : FixedBytes 12) : Nat → Nat → Bytes
  | 0, _ => []
  | count + 1, counter => block key counter nonce ++ blocks key nonce count (counter + 1)

theorem length_blocks (key : FixedBytes 32) (nonce : FixedBytes 12) (count counter : Nat) :
    (blocks key nonce count counter).length = 64 * count := by
  induction count generalizing counter with
  | zero => rfl
  | succ n ih => simp only [blocks, List.length_append, length_block, ih]; omega

/-- Key stream from block `counter` on that covers `length` bytes. -/
def keyStream (key : FixedBytes 32) (nonce : FixedBytes 12) (counter length : Nat) : Bytes :=
  blocks key nonce ((length + 63) / 64) counter

theorem length_le_keyStream (key : FixedBytes 32) (nonce : FixedBytes 12) (counter length : Nat) :
    length ≤ (keyStream key nonce counter length).length := by
  rw [keyStream, length_blocks]; omega

/-- A key derived from a key and sixteen nonce bytes: the first and last row after the rounds,
    the start state not added. -/
def subkey (key : FixedBytes 32) (nonce : FixedBytes 16) : FixedBytes 32 :=
  let words := (rounds 10 (setup key nonce.bytes)).toList
  ⟨(words.take 4 ++ words.drop 12).flatMap wordBytes, by
    rw [length_flatMap_wordBytes]; simp [words]⟩

end KeyChain.ChaCha20
