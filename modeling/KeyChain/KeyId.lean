import KeyChain.Bytes
/-! Key identifiers: 64-bit numbers, written as sixteen hexadecimal digits and ordered as numbers.
   An identifier is not secret; it names the slot of a key in a store. -/
namespace KeyChain

structure KeyId where
  value : UInt64
  deriving DecidableEq, Repr

namespace KeyId

instance : Ord KeyId := ⟨compareOn value⟩

instance : Std.TransOrd KeyId := inferInstanceAs (Std.TransCmp (compareOn value))

instance : Std.LawfulEqOrd KeyId where
  compare_self {a} := (Std.ReflCmp.compare_self : compare a.value a.value = .eq)
  eq_of_compare {a b} h := by
    cases a; cases b
    exact congrArg KeyId.mk
      (Std.LawfulEqCmp.eq_of_compare (show compare (_ : UInt64) _ = .eq from h))

/-- Eight bytes, most significant first. -/
def bytes (id : KeyId) : Bytes := Bytes.ofNatBE 8 id.value.toNat

/-- The identifier that eight bytes write. -/
def ofBytes (b : FixedBytes 8) : KeyId := ⟨UInt64.ofNat (Bytes.toNatBE b.bytes)⟩

/-- Sixteen lower-case digits. -/
def toHex (id : KeyId) : String := Bytes.toHex id.bytes

/-- The identifier that exactly sixteen digits of either case spell. -/
def ofHex? (s : String) : Option KeyId :=
  (Bytes.ofHex? s).bind fun b => (FixedBytes.ofBytes? 8 b).map ofBytes

instance : ToString KeyId := ⟨toHex⟩

@[simp] theorem length_bytes (id : KeyId) : id.bytes.length = 8 := by simp [bytes]

theorem ofBytes_bytes (id : KeyId) : ofBytes ⟨id.bytes, id.length_bytes⟩ = id := by
  cases id with
  | mk v =>
    have h := v.toNat_lt
    simp only [ofBytes, bytes, Bytes.toNatBE_ofNatBE]
    rw [Nat.mod_eq_of_lt (by simpa using h), UInt64.ofNat_toNat]

theorem bytes_ofBytes (b : FixedBytes 8) : (ofBytes b).bytes = b.bytes := by
  have hl := b.length_eq
  have hb := Bytes.ofNatBE_toNatBE b.bytes
  have hlt : Bytes.toNatBE b.bytes < Nat.pow 256 8 := by
    have h := congrArg Bytes.toNatBE hb
    rw [Bytes.toNatBE_ofNatBE, hl] at h
    exact h ▸ Nat.mod_lt _ (by decide)
  rw [hl] at hb
  simp only [bytes, ofBytes]
  rw [UInt64.toNat_ofNat', Nat.mod_eq_of_lt (by simpa using hlt), hb]

end KeyId

end KeyChain
