import KeyChain.Crypto.Sha256
/-! HMAC-SHA256 and HKDF-SHA256 with an empty salt. `derive` gives as many bytes as are asked for
   (`derive` is typed by its length), a function of the keying material and the context alone. -/
namespace KeyChain.Hkdf

/-- A key longer than a block is hashed; the key is then filled up with zeros. -/
def hmacKey (key : Bytes) : Bytes :=
  let short := if 64 < key.length then Sha256.hash key else key
  short ++ List.replicate (64 - short.length) 0

def hmac (key message : Bytes) : Bytes :=
  let k := hmacKey key
  Sha256.hash (k.map (· ^^^ 0x5c) ++ Sha256.hash (k.map (· ^^^ 0x36) ++ message))

@[simp] theorem length_hmac (key message : Bytes) : (hmac key message).length = 32 := by
  simp [hmac]

/-- The pseudorandom key of the keying material, the salt being 32 zero bytes. -/
def extract (material : Bytes) : Bytes := hmac (List.replicate 32 0) material

/-- `count` further blocks of output, numbered from `index`, behind the block `last`. -/
def expandFrom (prk context : Bytes) : Nat → Nat → Bytes → Bytes
  | 0, _, _ => []
  | count + 1, index, last =>
    let block := hmac prk (last ++ context ++ [UInt8.ofNat index])
    block ++ expandFrom prk context count (index + 1) block

theorem length_expandFrom (prk context : Bytes) (count index : Nat) (last : Bytes) :
    (expandFrom prk context count index last).length = 32 * count := by
  induction count generalizing index last with
  | zero => rfl
  | succ n ih => simp only [expandFrom, List.length_append, length_hmac, ih]; omega

/-- `n` bytes derived from the keying material for one context. -/
def derive (n : Nat) (material context : Bytes) : FixedBytes n :=
  ⟨(expandFrom (extract material) context ((n + 31) / 32) 1 []).take n, by
    rw [List.length_take, length_expandFrom]; omega⟩

end KeyChain.Hkdf
