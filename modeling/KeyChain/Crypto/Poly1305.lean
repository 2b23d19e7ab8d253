import KeyChain.Bytes
/-! The Poly1305 one-time authenticator: the message read as a polynomial over the integers modulo
   2^130 - 5, evaluated at the clamped first half of the key, plus the second half. -/
namespace KeyChain.Poly1305

/-- Two to the power of 130, less five. -/
def modulus : Nat := 0x3fffffffffffffffffffffffffffffffb

/-- Clears the bits that the evaluation point must not have. -/
def clamp (r : Nat) : Nat := r &&& 0x0ffffffc0ffffffc0ffffffc0fffffff

/-- Adds `count` groups of up to sixteen bytes, each with a one appended, to the evaluation. -/
def evaluate (r : Nat) : Nat → Nat → Bytes → Nat
  | 0, acc, _ => acc
  | count + 1, acc, message =>
    let group := message.take 16
    evaluate r count (((acc + Bytes.toNatLE group + Nat.pow 256 group.length) * r) % modulus)
      (message.drop 16)

/-- The sixteen bytes that authenticate a message under a key used once. -/
def tag (key : FixedBytes 32) (message : Bytes) : Bytes :=
  let r := clamp (Bytes.toNatLE (key.bytes.take 16))
  let s := Bytes.toNatLE (key.bytes.drop 16)
  Bytes.ofNatLE 16 (evaluate r ((message.length + 15) / 16) 0 message + s)

@[simp] theorem length_tag (key : FixedBytes 32) (message : Bytes) : (tag key message).length = 16 := by
  simp [tag]

end KeyChain.Poly1305
