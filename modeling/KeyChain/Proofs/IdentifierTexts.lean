import KeyChain.Proofs.FileLayout
import KeyChain.Proofs.StoreFormat
/-! Identifiers and their texts. A text says all there is to an identifier, and texts are in the order of their
   identifiers, so a map by identifier and the file that is written from it list the same links in the same order.

   1. `Bytes.digits_iff`: digits can be counted and tested as bytes, since a character of more than one byte is none;
   2. `KeyId.compare_toHex`: the order of texts is that of the numbers;
   3. `KeyId.ofHex?_refuses`: signs, blanks and other characters are not read over;
   4. `KeyId.text_faithful`: an identifier is read back from its text, and a text that is read is written again. -/
namespace KeyChain

namespace Bytes

variable {c : Char} {cs : List Char}

theorem isHexDigit_ascii (h : IsHexDigit c) : c.toNat < 0x80 := by
  rcases h with ⟨-, h⟩ | ⟨-, h⟩ | ⟨-, h⟩
  · exact Nat.lt_of_le_of_lt h (by decide)
  · exact Nat.lt_of_le_of_lt h (by decide)
  · exact Nat.lt_of_le_of_lt h (by decide)

theorem toNat_ofNat_byte (b : UInt8) : (Char.ofNat b.toNat).toNat = b.toNat := by
  have hlt := b.toNat_lt
  have hvalid : b.toNat.isValidChar := .inl (by omega)
  rw [Char.ofNat, dif_pos hvalid]
  rfl

/-- A character of more than one byte has a byte that is no character of its own. -/
theorem ascii_of_ofChar (h : ∀ b ∈ ofChar c, b.toNat < 0x80) : c.toNat < 0x80 := by
  by_contra hlarge
  have hbound := char_toNat_lt c
  unfold ofChar at h
  rw [if_neg hlarge] at h
  -- The lead byte is at least 0xC0, whatever the length.
  have hlead : ∀ n < 64, ¬ (UInt8.ofNat (0xC0 + n)).toNat < 0x80 := by decide
  split at h
  · exact hlead (c.toNat / 64) (by omega) (h _ List.mem_cons_self)
  · split at h
    · have := h _ List.mem_cons_self
      rw [show 0xE0 + c.toNat / 4096 = 0xC0 + (32 + c.toNat / 4096) by omega] at this
      exact hlead _ (by omega) this
    · have := h _ List.mem_cons_self
      rw [show 0xF0 + c.toNat / 262144 = 0xC0 + (48 + c.toNat / 262144) by omega] at this
      exact hlead _ (by omega) this

theorem mem_ofChar_ascii (h : c.toNat < 0x80) {b : UInt8} : b ∈ ofChar c ↔ b.toNat = c.toNat := by
  have hbyte : (UInt8.ofNat c.toNat).toNat = c.toNat := toNat_ofNat_lt (by omega)
  rw [ofChar_ascii h, List.mem_singleton, ← UInt8.toNat_inj, hbyte]

/-- So many digits are so many bytes that are digits. -/
theorem digits_iff (n : Nat) : (cs.length = n ∧ ∀ c ∈ cs, IsHexDigit c) ↔
    (ofChars cs).length = n ∧ ∀ b ∈ ofChars cs, IsHexDigit (Char.ofNat b.toNat) := by
  have hbyte : ∀ b ∈ ofChars cs, ∃ c ∈ cs, b ∈ ofChar c := fun b hb => List.mem_flatMap.1 hb
  constructor
  · rintro ⟨hlength, hdigits⟩
    refine ⟨(length_ofChars_ascii fun c hc => isHexDigit_ascii (hdigits c hc)).trans hlength, fun b hb => ?_⟩
    obtain ⟨c, hc, hb⟩ := hbyte b hb
    rw [(mem_ofChar_ascii (isHexDigit_ascii (hdigits c hc))).1 hb, Char.ofNat_toNat]
    exact hdigits c hc
  · rintro ⟨hlength, hdigits⟩
    have hof : ∀ c ∈ cs, ∀ b ∈ ofChar c, IsHexDigit (Char.ofNat b.toNat) := fun c hc b hb =>
      hdigits b (List.mem_flatMap.2 ⟨c, hc, hb⟩)
    have hascii : ∀ c ∈ cs, c.toNat < 0x80 := fun c hc =>
      ascii_of_ofChar fun b hb => toNat_ofNat_byte b ▸ isHexDigit_ascii (hof c hc b hb)
    refine ⟨(length_ofChars_ascii hascii).symm.trans hlength, fun c hc => ?_⟩
    have hself := hof c hc (UInt8.ofNat c.toNat) (by rw [ofChar_ascii (hascii c hc)]; exact List.mem_singleton_self _)
    rwa [toNat_ofNat_lt (by have := hascii c hc; omega), Char.ofNat_toNat] at hself

end Bytes

namespace KeyId

variable {name : String} {id : KeyId}

theorem isName_iff_bytes : IsName name ↔
    (Bytes.utf8 name).length = 16 ∧ ∀ b ∈ Bytes.utf8 name, Bytes.IsHexDigit (Char.ofNat b.toNat) :=
  Bytes.digits_iff 16

/-- Texts are in the order of their identifiers. -/
theorem compare_toHex (a b : KeyId) : compare a.toHex b.toHex = compare a.value b.value := by
  cases h : compare a.value b.value with
  | lt => exact toHex_lt h
  | eq =>
    obtain rfl : a = b := Std.LawfulEqCmp.eq_of_compare (show compare a b = .eq from h)
    exact Std.ReflCmp.compare_self
  | gt => exact Std.OrientedCmp.gt_iff_lt.2 (toHex_lt (Std.OrientedCmp.gt_iff_lt.1 h))

/-- A name that is read and written again is the name in lower case, and no other identifier is written so. -/
theorem ofHex?_eq_some_iff_toHex : ofHex? name = some id ↔ IsName name ∧ id.toHex = name.toLower := by
  constructor
  · intro h
    exact ⟨isSome_ofHex?.1 (by rw [h]; rfl), toHex_of_ofHex? h⟩
  · rintro ⟨hname, htext⟩
    obtain ⟨id', hid'⟩ := Option.isSome_iff_exists.1 (isSome_ofHex?.2 hname)
    obtain rfl : id' = id := toHex_inj ((toHex_of_ofHex? hid').trans htext.symm)
    exact hid'

/-- A character that is no digit is nowhere read over. -/
theorem ofHex?_refuses {c : Char} (hc : c ∈ name.toList)
    (hother : c = '+' ∨ c = '-' ∨ c.isWhitespace = true ∨ 1 < (Bytes.ofChar c).length) : ofHex? name = none := by
  rw [← Option.not_isSome_iff_eq_none, isSome_ofHex?]
  rintro ⟨-, hdigits⟩
  have hdigit := hdigits c hc
  have hascii := Bytes.isHexDigit_ascii hdigit
  have hplain : ∀ n < 128, Bytes.IsHexDigit (Char.ofNat n) →
      Char.ofNat n ≠ '+' ∧ Char.ofNat n ≠ '-' ∧ (Char.ofNat n).isWhitespace = false := by decide
  have hnone := hplain c.toNat hascii
  rw [Char.ofNat_toNat] at hnone
  obtain ⟨hplus, hminus, hblank⟩ := hnone hdigit
  rcases hother with rfl | rfl | hwhite | hlong
  · exact hplus rfl
  · exact hminus rfl
  · rw [hblank] at hwhite
    cases hwhite
  · rw [Bytes.ofChar_ascii hascii] at hlong
    exact Nat.lt_irrefl 1 hlong

/-- The text of an identifier is read back as the identifier, and two texts, which are compared by their bytes, are in
    the order of the two numbers; so what is filed by text is listed as what is filed by number. A text is read if and
    only if its bytes are sixteen digits of either case, and the identifier is the one whose text is the same in lower
    case and whose number is the one that the digits write. So a text with a sign, a blank or a character of several
    bytes in it is refused, as one with fewer digits or more is. -/
theorem text_faithful :
    (∀ id : KeyId, ofHex? id.toHex = some id) ∧
    (∀ a b : KeyId, compare a.toHex b.toHex = compare a.value b.value ∧
      (Bytes.utf8 a.toHex < Bytes.utf8 b.toHex ↔ a.value < b.value)) ∧
    (∀ links : Links, (OrderedMap.ofList (links.entries.map StoreDocument.entryOf)).entries =
      links.entries.map StoreDocument.entryOf) ∧
    ∀ name : String,
      ((ofHex? name).isSome ↔ IsName name) ∧
      (IsName name ↔
        (Bytes.utf8 name).length = 16 ∧ ∀ b ∈ Bytes.utf8 name, Bytes.IsHexDigit (Char.ofNat b.toNat)) ∧
      (∀ id : KeyId, ofHex? name = some id ↔ IsName name ∧ id.toHex = name.toLower) ∧
      (∀ id : KeyId, ofHex? name = some id ↔ IsName name ∧ Bytes.hexNumber name.toList = id.value.toNat) ∧
      (∀ c ∈ name.toList, c = '+' ∨ c = '-' ∨ c.isWhitespace = true ∨ 1 < (Bytes.ofChar c).length →
        ofHex? name = none) := by
  refine ⟨ofHex?_toHex, fun a b => ⟨compare_toHex a b, ?_⟩, StoreDocument.entries_ofList_map, fun name => ?_⟩
  · rw [Bytes.utf8_lt_iff, compare_toHex, Std.compare_eq_lt]
  · exact ⟨isSome_ofHex?, isName_iff_bytes, fun _ => ofHex?_eq_some_iff_toHex, fun _ => ofHex?_eq_some_iff,
      fun _ hc hother => ofHex?_refuses hc hother⟩

/-- Capitals are read and written small, and a sign is refused also where digits follow up to the length. -/
theorem text_faithful_capitals :
    ofHex? "00FF0000DEADBEEF" = some ⟨0x00FF0000DEADBEEF⟩ ∧
    toHex ⟨0x00FF0000DEADBEEF⟩ = "00ff0000deadbeef" ∧ ofHex? "+000000000000001" = none := by
  obtain ⟨-, -, -, hread⟩ := text_faithful
  obtain ⟨-, -, hlower, hnumber, -⟩ := hread "00FF0000DEADBEEF"
  obtain ⟨-, -, -, -, hrefused⟩ := hread "+000000000000001"
  have hcapitals : ofHex? "00FF0000DEADBEEF" = some ⟨0x00FF0000DEADBEEF⟩ := (hnumber _).2 ⟨by decide, by decide⟩
  have hsmall : "00FF0000DEADBEEF".toLower = "00ff0000deadbeef" :=
    String.toList_inj.1 (String.toList_map.trans (by decide))
  refine ⟨hcapitals, ((hlower _).1 hcapitals).2.trans hsmall, ?_⟩
  exact hrefused '+' (by decide) (.inl rfl)

end KeyId

end KeyChain
