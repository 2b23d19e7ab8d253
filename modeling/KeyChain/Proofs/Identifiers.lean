import KeyChain.Proofs.Canonical
/-! The texts of identifiers. Sixteen hexadecimal digits spell an identifier, in either case, and nothing else does; it is
   the number that the digits write.

   1. `Bytes.hexNumber_of_ofHexChars?`: the bytes that digits spell are those of their number;
   2. `KeyId.ofHex?_eq_some_iff`: what is read as an identifier, and as which;
   3. `KeyId.toHex_of_ofHex?`: the one spelling that is written is the one that was read, in lower case. -/
namespace KeyChain

namespace Bytes

/-- Whether a character is a hexadecimal digit, in either case. -/
def IsHexDigit (c : Char) : Prop := ('0' ≤ c ∧ c ≤ '9') ∨ ('a' ≤ c ∧ c ≤ 'f') ∨ ('A' ≤ c ∧ c ≤ 'F')

instance : DecidablePred IsHexDigit := fun _ => inferInstanceAs (Decidable (_ ∨ _ ∨ _))

/-- The number that digits write, first digit highest. -/
def hexNumber : List Char → Nat
  | [] => 0
  | c :: rest => (hexValue? c).getD 0 * Nat.pow 16 rest.length + hexNumber rest

theorem isSome_hexValue? (c : Char) : (hexValue? c).isSome ↔ IsHexDigit c := by
  unfold hexValue? IsHexDigit
  split
  · simp [*]
  split
  · simp [*]
  split <;> simp [*]

/-- A digit is written again in lower case. -/
theorem hexDigit_of_hexValue? {c : Char} {n : Nat} (h : hexValue? c = some n) : n < 16 ∧ hexDigit n = c.toLower := by
  have hdigits : ∀ k < 128, ∀ v, hexValue? (Char.ofNat k) = some v →
      v < 16 ∧ hexDigit v = (Char.ofNat k).toLower := by decide
  have hascii : c.toNat < 128 := by
    unfold hexValue? at h
    split at h
    · next hdigit => exact Nat.lt_of_le_of_lt hdigit.2 (by decide)
    split at h
    · next hsmall => exact Nat.lt_of_le_of_lt hsmall.2 (by decide)
    split at h
    · next hcapital => exact Nat.lt_of_le_of_lt hcapital.2 (by decide)
    · cases h
  rw [← Char.ofNat_toNat c] at h ⊢
  exact hdigits _ hascii n h

/-- The bytes that digits spell are those of the number that the digits write. -/
theorem hexNumber_of_ofHexChars? : ∀ {cs : List Char} {b : Bytes}, ofHexChars? cs = some b →
    cs.length = 2 * b.length ∧ (∀ c ∈ cs, IsHexDigit c) ∧ hexNumber cs = toNatBE b
  | [], b, h => by
    cases h
    exact ⟨rfl, nofun, rfl⟩
  | [_], b, h => by cases h
  | hi :: lo :: rest, b, h => by
    obtain ⟨x, hx, h⟩ := Option.bind_eq_some_iff.1 h
    obtain ⟨y, hy, h⟩ := Option.bind_eq_some_iff.1 h
    obtain ⟨tail, htail, h⟩ := Option.bind_eq_some_iff.1 h
    cases h
    obtain ⟨hlength, hdigits, hnumber⟩ := hexNumber_of_ofHexChars? htail
    have hxlt := (hexDigit_of_hexValue? hx).1
    have hylt := (hexDigit_of_hexValue? hy).1
    refine ⟨by rw [List.length_cons, List.length_cons, List.length_cons, hlength, Nat.mul_succ], ?_, ?_⟩
    · have hhigh : IsHexDigit hi := (isSome_hexValue? hi).1 (by rw [hx]; rfl)
      have hlow : IsHexDigit lo := (isSome_hexValue? lo).1 (by rw [hy]; rfl)
      exact List.forall_mem_cons.2 ⟨hhigh, List.forall_mem_cons.2 ⟨hlow, hdigits⟩⟩
    · have hbyte : (UInt8.ofNat (16 * x + y)).toNat = 16 * x + y := toNat_ofNat_lt (by omega)
      have hpow : Nat.pow 16 rest.length = Nat.pow 256 tail.length := by
        rw [hlength]
        exact Nat.pow_mul 16 2 _
      have hstep : Nat.pow 16 (rest.length + 1) = Nat.pow 256 tail.length * 16 := by
        rw [← hpow]
        rfl
      rw [hexNumber, hexNumber, hx, hy, toNatBE_cons, hbyte, hnumber, List.length_cons, hstep, hpow]
      simp only [Option.getD_some]
      grind

theorem exists_ofHexChars? : ∀ {cs : List Char} {n : Nat}, cs.length = 2 * n → (∀ c ∈ cs, IsHexDigit c) →
    ∃ b, ofHexChars? cs = some b
  | [], _, _, _ => ⟨[], rfl⟩
  | [_], n, h, _ => by
    rw [List.length_singleton] at h
    omega
  | hi :: lo :: rest, n, h, hdigits => by
    obtain ⟨hhigh, hdigits⟩ := List.forall_mem_cons.1 hdigits
    obtain ⟨hlow, hdigits⟩ := List.forall_mem_cons.1 hdigits
    obtain ⟨x, hx⟩ := Option.isSome_iff_exists.1 ((isSome_hexValue? hi).2 hhigh)
    obtain ⟨y, hy⟩ := Option.isSome_iff_exists.1 ((isSome_hexValue? lo).2 hlow)
    have hlength : rest.length = 2 * (n - 1) := by
      rw [List.length_cons, List.length_cons] at h
      omega
    obtain ⟨tail, htail⟩ := exists_ofHexChars? hlength hdigits
    exact ⟨_, by rw [ofHexChars?, hx, hy, htail]; rfl⟩

theorem hexChars_of_ofHexChars? : ∀ {cs : List Char} {b : Bytes}, ofHexChars? cs = some b →
    hexChars b = cs.map Char.toLower
  | [], b, h => by
    cases h
    rfl
  | [_], b, h => by cases h
  | hi :: lo :: rest, b, h => by
    obtain ⟨x, hx, h⟩ := Option.bind_eq_some_iff.1 h
    obtain ⟨y, hy, h⟩ := Option.bind_eq_some_iff.1 h
    obtain ⟨tail, htail, h⟩ := Option.bind_eq_some_iff.1 h
    cases h
    obtain ⟨hxlt, hxdigit⟩ := hexDigit_of_hexValue? hx
    obtain ⟨hylt, hydigit⟩ := hexDigit_of_hexValue? hy
    have hbyte : (UInt8.ofNat (16 * x + y)).toNat = 16 * x + y := toNat_ofNat_lt (by omega)
    have hhigh : (16 * x + y) / 16 = x := by omega
    have hlow : (16 * x + y) % 16 = y := by omega
    rw [hexChars, hbyte, hhigh, hlow, hxdigit, hydigit, hexChars_of_ofHexChars? htail]
    rfl

end Bytes

namespace KeyId

/-- Whether a name is sixteen digits. -/
def IsName (name : String) : Prop := name.toList.length = 16 ∧ ∀ c ∈ name.toList, Bytes.IsHexDigit c

instance : DecidablePred IsName := fun name =>
  @instDecidableAnd _ _ (instDecidableEqNat _ _) (List.decidableBAll Bytes.IsHexDigit name.toList)

/-- Whether a name is sixteen digits that write the number of an identifier. -/
def SpelledBy (id : KeyId) (name : String) : Prop := IsName name ∧ Bytes.hexNumber name.toList = id.value.toNat

variable {name : String} {id : KeyId}

theorem spelledBy_of_ofHex? (h : ofHex? name = some id) : id.SpelledBy name := by
  obtain ⟨b, hb, h⟩ := Option.bind_eq_some_iff.1 h
  obtain ⟨fixed, hfixed, rfl⟩ := Option.map_eq_some_iff.1 h
  obtain ⟨hlength, hdigits, hnumber⟩ := Bytes.hexNumber_of_ofHexChars? hb
  have hbytes := FixedBytes.bytes_of_ofBytes? hfixed
  rw [← hbytes, fixed.length_eq] at hlength
  refine ⟨⟨hlength, hdigits⟩, ?_⟩
  rw [hnumber, ← hbytes, ← bytes_ofBytes, toNatBE_bytes]

theorem isSome_ofHex? : (ofHex? name).isSome ↔ IsName name := by
  constructor
  · intro h
    obtain ⟨id, hid⟩ := Option.isSome_iff_exists.1 h
    exact (spelledBy_of_ofHex? hid).1
  · rintro ⟨hlength, hdigits⟩
    obtain ⟨b, hb⟩ := Bytes.exists_ofHexChars? (n := 8) hlength hdigits
    have hsize : b.length = 8 := by
      have := (Bytes.hexNumber_of_ofHexChars? hb).1
      omega
    rw [ofHex?, Bytes.ofHex?, hb, Option.bind_some, FixedBytes.ofBytes?, dif_pos hsize]
    rfl

/-- Sixteen digits, and nothing else, are read as an identifier, which is the number that they write. -/
theorem ofHex?_eq_some_iff : ofHex? name = some id ↔ id.SpelledBy name := by
  constructor
  · exact spelledBy_of_ofHex?
  · rintro ⟨hname, hnumber⟩
    obtain ⟨id', hid'⟩ := Option.isSome_iff_exists.1 (isSome_ofHex?.2 hname)
    have hvalue : id'.value = id.value := UInt64.toNat_inj.1 ((spelledBy_of_ofHex? hid').2.symm.trans hnumber)
    exact hid'.trans (congrArg some (congrArg KeyId.mk hvalue))

/-- A name that spells an identifier is written again in lower case. -/
theorem toHex_of_ofHex? {name : String} {id : KeyId} (h : ofHex? name = some id) : id.toHex = name.toLower := by
  obtain ⟨b, hb, h⟩ := Option.bind_eq_some_iff.1 h
  obtain ⟨fixed, hfixed, rfl⟩ := Option.map_eq_some_iff.1 h
  have hlower : name.toLower.toList = name.toList.map Char.toLower := String.toList_map
  rw [toHex, bytes_ofBytes, FixedBytes.bytes_of_ofBytes? hfixed, Bytes.toHex, Bytes.hexChars_of_ofHexChars? hb,
    ← hlower, String.ofList_toList]

end KeyId

end KeyChain
