import KeyChain.Bytes
import KeyChain.Crypto.Mixing
/-! BLAKE2b without a key, with digests of one to 64 bytes. -/
namespace KeyChain.Blake2b

def iv : Vector UInt64 8 :=
  #v[0x6a09e667f3bcc908, 0xbb67ae8584caa73b, 0x3c6ef372fe94f82b, 0xa54ff53a5f1d36f1,
     0x510e527fade682d1, 0x9b05688c2b3e6c1f, 0x1f83d9abfb41bd6b, 0x5be0cd19137e2179]

/-- The order in which each of the first ten rounds takes the message words; rounds ten and
    eleven repeat the first two. -/
def orders : List (Array Nat) :=
  [#[0, 1, 2, 3, 4, 5, 6, 7, 8, 9, 10, 11, 12, 13, 14, 15],
   #[14, 10, 4, 8, 9, 15, 13, 6, 1, 12, 0, 2, 11, 7, 5, 3],
   #[11, 8, 12, 0, 5, 2, 15, 13, 10, 14, 3, 6, 7, 1, 9, 4],
   #[7, 9, 3, 1, 13, 12, 11, 14, 2, 6, 5, 10, 4, 0, 15, 8],
   #[9, 0, 5, 7, 2, 4, 10, 15, 14, 1, 11, 12, 6, 8, 3, 13],
   #[2, 12, 6, 10, 0, 11, 8, 3, 4, 13, 7, 5, 15, 14, 1, 9],
   #[12, 5, 1, 15, 14, 13, 4, 10, 0, 7, 6, 3, 9, 2, 8, 11],
   #[13, 11, 7, 14, 12, 1, 3, 9, 5, 0, 15, 4, 8, 6, 2, 10],
   #[6, 15, 14, 9, 11, 3, 0, 8, 12, 2, 13, 7, 1, 4, 10, 5],
   #[10, 2, 8, 4, 7, 6, 1, 5, 15, 11, 9, 14, 3, 12, 13, 0],
   #[0, 1, 2, 3, 4, 5, 6, 7, 8, 9, 10, 11, 12, 13, 14, 15],
   #[14, 10, 4, 8, 9, 15, 13, 6, 1, 12, 0, 2, 11, 7, 5, 3]]

@[inline] def rotr (x : UInt64) (n : UInt64) : UInt64 := (x >>> n) ||| (x <<< (64 - n))

/-- Mixes two message words into four words. -/
@[inline] def mix (x y a b c d : UInt64) : UInt64 × UInt64 × UInt64 × UInt64 :=
  let a := a + b + x
  let d := rotr (d ^^^ a) 32
  let c := c + d
  let b := rotr (b ^^^ c) 24
  let a := a + b + y
  let d := rotr (d ^^^ a) 16
  let c := c + d
  let b := rotr (b ^^^ c) 63
  (a, b, c, d)

/-- One round, which takes the message words in the given order, two at a time. -/
def round (m : Array UInt64) (v : WordMatrix UInt64) (order : Array Nat) : WordMatrix UInt64 :=
  let word (i : Nat) : UInt64 := m.getD (order.getD i 0) 0
  Mixing.columnsAndDiagonals
    (fun n i j k l v => Mixing.mixAt (mix (word (2 * n)) (word (2 * n + 1))) v i j k l) v

/-- The words of a byte string of eight `n` bytes, least significant byte first. -/
def words : Nat → Bytes → List UInt64
  | 0, _ => []
  | n + 1, b => UInt64.ofNat (Bytes.toNatLE (b.take 8)) :: words n (b.drop 8)

@[simp] theorem length_words (n : Nat) (b : Bytes) : (words n b).length = n := by
  induction n generalizing b with
  | zero => rfl
  | succ n ih => simp [words, ih]

/-- Folds a block of 128 bytes, `count` message bytes having been taken up to its end. -/
def compress (h : Vector UInt64 8) (block : Bytes) (count : Nat) (last : Bool) : Vector UInt64 8 :=
  let m := (words 16 block).toArray
  let v : WordMatrix UInt64 := h ++ iv
  let v := v.set 12 (v[12] ^^^ UInt64.ofNat count)
  let v := v.set 13 (v[13] ^^^ UInt64.ofNat (count / UInt64.size))
  let v := if last then v.set 14 (~~~v[14]) else v
  let v := orders.foldl (round m) v
  Vector.ofFn fun i : Fin 8 => h[i] ^^^ v[i.val] ^^^ v[i.val + 8]

/-- Folds `count` whole blocks and then the last one, filled up with zeros. -/
def foldBlocks : Nat → Nat → Vector UInt64 8 → Bytes → Vector UInt64 8
  | 0, taken, h, b =>
    compress h (b ++ List.replicate (128 - b.length) 0) (taken + b.length) true
  | count + 1, taken, h, b =>
    foldBlocks count (taken + 128) (compress h (b.take 128) (taken + 128) false) (b.drop 128)

/-- The 64 bytes of the chaining words. -/
def wordBytes (h : Vector UInt64 8) : Bytes := h.toList.flatMap fun w => Bytes.ofNatLE 8 w.toNat

theorem length_wordBytes (h : Vector UInt64 8) : (wordBytes h).length = 64 := by
  have aux : ∀ ws : List UInt64,
      (ws.flatMap fun w => Bytes.ofNatLE 8 w.toNat).length = 8 * ws.length := by
    intro ws
    induction ws with
    | nil => rfl
    | cons w rest ih => simp only [List.flatMap_cons, List.length_append, Bytes.length_ofNatLE, ih,
        List.length_cons]; omega
  rw [wordBytes, aux]; simp

/-- The digest of `n` bytes, `n` at most 64. -/
def hash (n : Nat) (message : Bytes) : Bytes :=
  let start := iv.set 0 (iv[0] ^^^ 0x01010000 ^^^ UInt64.ofNat n)
  (wordBytes (foldBlocks ((message.length - 1) / 128) 0 start message)).take n

theorem length_hash (n : Nat) (message : Bytes) (h : n ≤ 64) : (hash n message).length = n := by
  rw [hash, List.length_take, length_wordBytes]; omega

end KeyChain.Blake2b
