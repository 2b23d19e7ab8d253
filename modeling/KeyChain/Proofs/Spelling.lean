import KeyChain.Base64
import KeyChain.KeyId
/-! Bytes and numbers that are written as text are read back: hexadecimal digits, UTF-8, base64. Each
   reading function is shown to undo what is written for one unit (a byte, a character, a group of
   three bytes), whatever follows it, and then for a whole text by induction on what was written. -/
namespace KeyChain

namespace Bytes

/-! Hexadecimal digits. -/

theorem hexValue?_hexDigit : ∀ n < 16, hexValue? (hexDigit n) = some n := by decide

theorem ofHexChars?_hexChars (b : Bytes) : ofHexChars? (hexChars b) = some b := by
  induction b with
  | nil => rfl
  | cons x rest ih =>
    have hx := x.toNat_lt
    rw [hexChars, ofHexChars?, hexValue?_hexDigit _ (by omega), hexValue?_hexDigit _ (by omega), ih]
    show some (UInt8.ofNat (16 * (x.toNat / 16) + x.toNat % 16) :: rest) = some (x :: rest)
    rw [Nat.div_add_mod, UInt8.ofNat_toNat]

theorem ofHex?_toHex (b : Bytes) : ofHex? (toHex b) = some b := by
  rw [ofHex?, toHex, String.toList_ofList, ofHexChars?_hexChars]

/-! UTF-8. -/

theorem ofChars_append (cs cs' : List Char) : ofChars (cs ++ cs') = ofChars cs ++ ofChars cs' :=
  List.flatMap_append

theorem ofChars_cons (c : Char) (cs : List Char) : ofChars (c :: cs) = ofChar c ++ ofChars cs := rfl

theorem utf8_append (s t : String) : utf8 (s ++ t) = utf8 s ++ utf8 t := by
  rw [utf8, String.toList_append, ofChars_append]
  rfl

theorem utf8_ofList (cs : List Char) : utf8 (String.ofList cs) = ofChars cs := by
  rw [utf8, String.toList_ofList]

theorem toNat_ascii : ∀ n < 0x80, (Char.ofNat n).toNat = n := by decide

/-- A character below 128 is one byte. -/
theorem ofChar_ascii {c : Char} (h : c.toNat < 0x80) : ofChar c = [UInt8.ofNat c.toNat] := by
  rw [ofChar, if_pos h]

theorem length_ofChar_pos (c : Char) : 0 < (ofChar c).length := by
  unfold ofChar
  dsimp only
  split
  · exact Nat.zero_lt_one
  · split
    · exact Nat.zero_lt_two
    · split <;> simp

theorem toNat_ofNat_lt {n : Nat} (h : n < 256) : (UInt8.ofNat n).toNat = n := by
  rw [UInt8.toNat_ofNat', Nat.mod_eq_of_lt (by simpa using h)]

theorem continuation?_ofNat {n : Nat} (h : n < 64) : continuation? (UInt8.ofNat (0x80 + n)) = some n := by
  have hn : (UInt8.ofNat (0x80 + n)).toNat = 0x80 + n := toNat_ofNat_lt (by omega)
  rw [continuation?, if_pos, hn, Nat.add_sub_cancel_left]
  rw [UInt8.le_iff_toNat_le, UInt8.le_iff_toNat_le, hn]
  exact ⟨Nat.le_add_right _ _, by simp; omega⟩

theorem scalar?_toNat {least : Nat} {c : Char} (h : least ≤ c.toNat) : scalar? least c.toNat = some c := by
  have hvalid : c.toNat.isValidChar := c.valid
  rw [scalar?, dif_pos ⟨h, hvalid⟩]
  rfl

theorem char_toNat_lt (c : Char) : c.toNat < 0x110000 := by
  rcases c.valid with h | h
  · exact Nat.lt_trans h (by decide)
  · exact h.2

/-! What is read behind a lead byte. -/

section

variable {a b d e : UInt8} {x y z : Nat} (rest : Bytes)

theorem nextChar?_one (h : a.toNat < 0x80) : nextChar? (a :: rest) = some (Char.ofNat a.toNat, rest) := by
  have h₁ : a < 0x80 := UInt8.lt_iff_toNat_lt.2 h
  unfold nextChar?
  exact if_pos h₁

theorem nextChar?_two (h : 0xC0 ≤ a.toNat ∧ a.toNat < 0xE0) (hb : continuation? b = some x) :
    nextChar? (a :: b :: rest) = (scalar? 0x80 (64 * (a.toNat - 0xC0) + x)).map (·, rest) := by
  have h₁ : ¬ a < 0x80 := fun hlt => absurd (UInt8.lt_iff_toNat_lt.1 hlt) (by simp; omega)
  have h₂ : a < 0xE0 := UInt8.lt_iff_toNat_lt.2 h.2
  have h₃ : (0xC0 : UInt8) ≤ a := UInt8.le_iff_toNat_le.2 h.1
  rw [nextChar?, if_neg h₁, if_pos h₂]
  simp only [hb, if_pos h₃, Option.bind_eq_bind, Option.bind_some]
  cases scalar? 0x80 (64 * (a.toNat - 0xC0) + x) <;> rfl

theorem nextChar?_three (h : 0xE0 ≤ a.toNat ∧ a.toNat < 0xF0) (hb : continuation? b = some x)
    (hd : continuation? d = some y) :
    nextChar? (a :: b :: d :: rest) =
      (scalar? 0x800 (4096 * (a.toNat - 0xE0) + 64 * x + y)).map (·, rest) := by
  have h₁ : ¬ a < 0x80 := fun hlt => absurd (UInt8.lt_iff_toNat_lt.1 hlt) (by simp; omega)
  have h₂ : ¬ a < 0xE0 := fun hlt => absurd (UInt8.lt_iff_toNat_lt.1 hlt) (by simp; omega)
  have h₃ : a < 0xF0 := UInt8.lt_iff_toNat_lt.2 h.2
  rw [nextChar?, if_neg h₁, if_neg h₂, if_pos h₃]
  simp only [hb, hd, Option.bind_eq_bind, Option.bind_some]
  cases scalar? 0x800 (4096 * (a.toNat - 0xE0) + 64 * x + y) <;> rfl

theorem nextChar?_four (h : 0xF0 ≤ a.toNat) (hb : continuation? b = some x) (hd : continuation? d = some y)
    (he : continuation? e = some z) :
    nextChar? (a :: b :: d :: e :: rest) =
      (scalar? 0x10000 (262144 * (a.toNat - 0xF0) + 4096 * x + 64 * y + z)).map (·, rest) := by
  have h₁ : ¬ a < 0x80 := fun hlt => absurd (UInt8.lt_iff_toNat_lt.1 hlt) (by simp; omega)
  have h₂ : ¬ a < 0xE0 := fun hlt => absurd (UInt8.lt_iff_toNat_lt.1 hlt) (by simp; omega)
  have h₃ : ¬ a < 0xF0 := fun hlt => absurd (UInt8.lt_iff_toNat_lt.1 hlt) (by simp; omega)
  rw [nextChar?, if_neg h₁, if_neg h₂, if_neg h₃]
  simp only [hb, hd, he, Option.bind_eq_bind, Option.bind_some]
  cases scalar? 0x10000 (262144 * (a.toNat - 0xF0) + 4096 * x + 64 * y + z) <;> rfl

end

/-- The first character is read back, whatever follows it. -/
theorem nextChar?_ofChar (c : Char) (rest : Bytes) : nextChar? (ofChar c ++ rest) = some (c, rest) := by
  -- One case for each length: the lead byte is in the range of that length, and the digits to base 64 add up.
  have hlt := char_toNat_lt c
  have hlow : ∀ n, continuation? (UInt8.ofNat (0x80 + n % 64)) = some (n % 64) := fun n =>
    continuation?_ofNat (Nat.mod_lt n (by decide))
  unfold ofChar
  dsimp only
  split
  · next h =>
    have ha : (UInt8.ofNat c.toNat).toNat = c.toNat := toNat_ofNat_lt (by omega)
    rw [List.singleton_append, nextChar?_one rest (by omega), ha, Char.ofNat_toNat]
  · split
    · next h₁ h₂ =>
      have ha : (UInt8.ofNat (0xC0 + c.toNat / 64)).toNat = 0xC0 + c.toNat / 64 := toNat_ofNat_lt (by omega)
      have hn : 64 * (0xC0 + c.toNat / 64 - 0xC0) + c.toNat % 64 = c.toNat := by omega
      simp only [List.cons_append, List.nil_append]
      rw [nextChar?_two rest (by omega) (hlow _), ha, hn, scalar?_toNat (by omega)]
      rfl
    · split
      · next h₁ h₂ h₃ =>
        have ha : (UInt8.ofNat (0xE0 + c.toNat / 4096)).toNat = 0xE0 + c.toNat / 4096 :=
          toNat_ofNat_lt (by omega)
        have hn : 4096 * (0xE0 + c.toNat / 4096 - 0xE0) + 64 * (c.toNat / 64 % 64) + c.toNat % 64 =
            c.toNat := by omega
        simp only [List.cons_append, List.nil_append]
        rw [nextChar?_three rest (by omega) (hlow _) (hlow _), ha, hn, scalar?_toNat (by omega)]
        rfl
      · next h₁ h₂ h₃ =>
        have ha : (UInt8.ofNat (0xF0 + c.toNat / 262144)).toNat = 0xF0 + c.toNat / 262144 :=
          toNat_ofNat_lt (by omega)
        have hn : 262144 * (0xF0 + c.toNat / 262144 - 0xF0) + 4096 * (c.toNat / 4096 % 64) +
            64 * (c.toNat / 64 % 64) + c.toNat % 64 = c.toNat := by omega
        simp only [List.cons_append, List.nil_append]
        rw [nextChar?_four rest (by omega) (hlow _) (hlow _) (hlow _), ha, hn, scalar?_toNat (by omega)]
        rfl

theorem charsOnto?_ofChars (cs : List Char) {count : Nat} (read : List Char) (h : cs.length ≤ count) :
    charsOnto? count read (ofChars cs) = some (read.reverse ++ cs) := by
  induction cs generalizing count read with
  | nil => cases count <;> simp [charsOnto?, ofChars]
  | cons c cs ih =>
    cases count with
    | zero => simp at h
    | succ count =>
      obtain ⟨b, bs, hbytes⟩ := List.exists_cons_of_length_pos (length_ofChar_pos c)
      have hnext := nextChar?_ofChar c (ofChars cs)
      rw [hbytes, List.cons_append] at hnext
      rw [ofChars_cons, hbytes, List.cons_append]
      simp only [charsOnto?, hnext]
      rw [ih (c :: read) (by simpa using h), List.reverse_cons, List.append_assoc, List.singleton_append]

theorem length_le_ofChars (cs : List Char) : cs.length ≤ (ofChars cs).length := by
  induction cs with
  | nil => exact Nat.le_refl _
  | cons c cs ih =>
    have hc := length_ofChar_pos c
    rw [ofChars_cons, List.length_append, List.length_cons]
    omega

theorem text?_ofChars (cs : List Char) : text? (ofChars cs) = some (String.ofList cs) := by
  rw [text?, chars?, charsOnto?_ofChars cs [] (length_le_ofChars cs)]
  rfl

theorem text?_utf8 (s : String) : text? (utf8 s) = some s := by
  rw [utf8, text?_ofChars, String.ofList_toList]

end Bytes

theorem KeyId.ofHex?_toHex (id : KeyId) : ofHex? id.toHex = some id := by
  have hbytes : FixedBytes.ofBytes? 8 id.bytes = some ⟨id.bytes, id.length_bytes⟩ := by
    rw [FixedBytes.ofBytes?, dif_pos id.length_bytes]
  rw [ofHex?, toHex, Bytes.ofHex?_toHex, Option.bind_some, hbytes, Option.map_some, ofBytes_bytes]

theorem KeyId.toHex_inj {id id' : KeyId} (h : id.toHex = id'.toHex) : id = id' := by
  have hid := ofHex?_toHex id
  rw [h, ofHex?_toHex] at hid
  exact (Option.some.inj hid).symm

namespace Base64

/-! Base64. -/

theorem value?_symbol : ∀ n < 64, value? (symbol n) = some n := by decide

theorem symbol_ne_pad : ∀ n < 64, symbol n ≠ pad := by decide

theorem symbol_ascii (n : Nat) : (symbol n).toNat < 0x80 := by
  unfold symbol
  repeat' split
  all_goals rw [Bytes.toNat_ofNat_lt (by omega)]; omega

theorem valueAt_symbol {n : Nat} (h : n < 64) (offset : Nat) : valueAt (symbol n) offset = .ok n := by
  rw [valueAt, value?_symbol n h]

/-- What base64 text is written with: symbols of numbers below 64, and padding signs. -/
theorem mem_encodeBytes {b : Bytes} {s : UInt8} (h : s ∈ encodeBytes b) : s = pad ∨ ∃ n < 64, s = symbol n := by
  induction b using encodeBytes.induct with
  | case1 a b c rest ih =>
    have ha := a.toNat_lt
    have hb := b.toNat_lt
    have hc := c.toNat_lt
    simp only [encodeBytes, List.mem_cons] at h
    rcases h with rfl | rfl | rfl | rfl | h
    · exact .inr ⟨_, by omega, rfl⟩
    · exact .inr ⟨_, by omega, rfl⟩
    · exact .inr ⟨_, by omega, rfl⟩
    · exact .inr ⟨_, by omega, rfl⟩
    · exact ih h
  | case2 a b =>
    have ha := a.toNat_lt
    have hb := b.toNat_lt
    simp only [encodeBytes, List.mem_cons, List.not_mem_nil, or_false] at h
    rcases h with rfl | rfl | rfl | rfl
    · exact .inr ⟨_, by omega, rfl⟩
    · exact .inr ⟨_, by omega, rfl⟩
    · exact .inr ⟨_, by omega, rfl⟩
    · exact .inl rfl
  | case3 a =>
    have ha := a.toNat_lt
    simp only [encodeBytes, List.mem_cons, List.not_mem_nil, or_false] at h
    rcases h with rfl | rfl | rfl | rfl
    · exact .inr ⟨_, by omega, rfl⟩
    · exact .inr ⟨_, by omega, rfl⟩
    · exact .inl rfl
    · exact .inl rfl
  | case4 => cases h

theorem encodeBytes_ascii (b : Bytes) : ∀ s ∈ encodeBytes b, s.toNat < 0x80 := by
  intro s hs
  rcases mem_encodeBytes hs with rfl | ⟨n, -, rfl⟩
  · decide
  · exact symbol_ascii n

theorem length_encodeBytes (b : Bytes) : (encodeBytes b).length = (b.length + 2) / 3 * 4 := by
  induction b using encodeBytes.induct with
  | case1 a b c rest ih =>
    simp only [encodeBytes, List.length_cons, ih]
    omega
  | case2 a b => simp [encodeBytes]
  | case3 a => simp [encodeBytes]
  | case4 => rfl

theorem utf8_encode (b : Bytes) : Bytes.utf8 (encode b) = encodeBytes b := by
  rw [encode, Bytes.utf8_ofList]
  have hall := encodeBytes_ascii b
  generalize encodeBytes b = symbols at hall ⊢
  induction symbols with
  | nil => rfl
  | cons s rest ih =>
    have hs : s.toNat < 0x80 := hall s (by simp)
    have hc := Bytes.toNat_ascii s.toNat hs
    rw [List.map_cons, Bytes.ofChars_cons, Bytes.ofChar_ascii (by omega), hc, UInt8.ofNat_toNat,
      ih fun s' hs' => hall s' (List.mem_cons_of_mem _ hs')]
    rfl

/-- Three bytes are read back from their number. -/
theorem quad_digits (a b c : UInt8) {n : Nat} (hn : n = 65536 * a.toNat + 256 * b.toNat + c.toNat) :
    quad (n / 262144) (n / 4096 % 64) (n / 64 % 64) (n % 64) = [a, b, c] := by
  have ha := a.toNat_lt
  have hb := b.toNat_lt
  have hc := c.toNat_lt
  have hsum : 262144 * (n / 262144) + 4096 * (n / 4096 % 64) + 64 * (n / 64 % 64) + n % 64 = n := by omega
  unfold quad
  rw [hsum]
  dsimp only
  have h₁ : UInt8.ofNat (n / 65536) = a := by
    apply UInt8.toNat_inj.1
    rw [UInt8.toNat_ofNat']
    omega
  have h₂ : UInt8.ofNat (n / 256) = b := by
    apply UInt8.toNat_inj.1
    rw [UInt8.toNat_ofNat']
    omega
  have h₃ : UInt8.ofNat n = c := by
    apply UInt8.toNat_inj.1
    rw [UInt8.toNat_ofNat']
    omega
  rw [h₁, h₂, h₃]

theorem readGroup_symbol (start i : Nat) (values : List Nat) {n : Nat} (h : n < 64) (rest : Bytes) :
    readGroup start i ⟨values, 0, 0⟩ (symbol n :: rest) =
      readGroup start (i + 1) ⟨values ++ [n], 0, 0⟩ rest := by
  rw [readGroup, if_neg (symbol_ne_pad n h), if_neg (by simp), valueAt_symbol h]
  rfl

theorem readGroup_pad (start i : Nat) (g : Group) (hi : 2 ≤ i) (rest : Bytes) :
    readGroup start i g (pad :: rest) =
      readGroup start (i + 1) ⟨g.values, g.padding + 1, if g.padding = 0 then i else g.firstPad⟩ rest := by
  rw [readGroup, if_pos rfl, if_neg (by omega)]

/-- The last group, of three bytes or fewer, is read back. -/
theorem decodeGroup_encodeBytes (start : Nat) (b : Bytes) (h : b.length ≤ 3) :
    decodeGroup start (encodeBytes b) = .ok b := by
  match b, h with
  | [], _ => rfl
  | [a], _ =>
    have ha := a.toNat_lt
    have hquad := quad_digits a 0 0 rfl
    rw [show (65536 * a.toNat + 256 * (0 : UInt8).toNat + (0 : UInt8).toNat) = 65536 * a.toNat from rfl,
      show 65536 * a.toNat / 262144 = a.toNat / 4 by omega,
      show 65536 * a.toNat / 4096 % 64 = a.toNat % 4 * 16 by omega,
      show 65536 * a.toNat / 64 % 64 = 0 by omega, show 65536 * a.toNat % 64 = 0 by omega] at hquad
    unfold decodeGroup
    simp only [encodeBytes]
    rw [readGroup_symbol _ _ _ (by omega), readGroup_symbol _ _ _ (by omega), readGroup_pad _ _ _ (by omega),
      readGroup_pad _ _ _ (by omega)]
    simp [readGroup, hquad, Bind.bind, Except.bind, pure, Except.pure]
  | [a, b], _ =>
    have ha := a.toNat_lt
    have hb := b.toNat_lt
    have hquad := quad_digits a b 0 rfl
    generalize hn : 256 * a.toNat + b.toNat = n
    rw [show (65536 * a.toNat + 256 * b.toNat + (0 : UInt8).toNat) = 256 * n by rw [← hn]; simp; omega,
      show 256 * n / 262144 = n / 1024 by omega, show 256 * n / 4096 % 64 = n / 16 % 64 by omega,
      show 256 * n / 64 % 64 = n % 16 * 4 by omega, show 256 * n % 64 = 0 by omega] at hquad
    unfold decodeGroup
    simp only [encodeBytes, hn]
    rw [readGroup_symbol _ _ _ (by omega), readGroup_symbol _ _ _ (by omega),
      readGroup_symbol _ _ _ (by omega), readGroup_pad _ _ _ (by omega)]
    simp [readGroup, hquad, Bind.bind, Except.bind, pure, Except.pure]
  | [a, b, c], _ =>
    have ha := a.toNat_lt
    have hb := b.toNat_lt
    have hc := c.toNat_lt
    have hquad := quad_digits a b c rfl
    unfold decodeGroup
    simp only [encodeBytes]
    rw [readGroup_symbol _ _ _ (by omega), readGroup_symbol _ _ _ (by omega),
      readGroup_symbol _ _ _ (by omega), readGroup_symbol _ _ _ (by omega)]
    simp [readGroup, hquad, Bind.bind, Except.bind, pure, Except.pure]

theorem decodeGroups_encodeBytes (start : Nat) (b : Bytes) :
    decodeGroups start (encodeBytes b) = .ok b := by
  induction b using encodeBytes.induct generalizing start with
  | case1 a b c rest ih =>
    have ha := a.toNat_lt
    have hb := b.toNat_lt
    have hc := c.toNat_lt
    have hquad := quad_digits a b c rfl
    -- A group at the end is read by other rules than one with more behind it.
    by_cases hrest : rest = []
    · subst hrest
      exact decodeGroup_encodeBytes start [a, b, c] (by simp)
    · have hlength : 0 < (encodeBytes rest).length := by
        have := List.length_pos_iff.2 hrest
        rw [length_encodeBytes]
        omega
      obtain ⟨e, tail, htail⟩ := List.exists_cons_of_length_pos hlength
      have hnext := ih (start + 4)
      rw [htail] at hnext
      simp only [encodeBytes, htail, decodeGroups]
      rw [valueAt_symbol (by omega), valueAt_symbol (by omega), valueAt_symbol (by omega),
        valueAt_symbol (by omega), hnext]
      simp only [Bind.bind, Except.bind, pure, Except.pure, hquad]
      rfl
  | case2 a b => exact decodeGroup_encodeBytes start [a, b] (by simp)
  | case3 a => exact decodeGroup_encodeBytes start [a] (by simp)
  | case4 => rfl

theorem decode_encode (b : Bytes) : decode (encode b) = .ok b := by
  have hstray : strayLast? (encodeBytes b) = none := by
    rw [strayLast?, if_neg (by rw [length_encodeBytes]; omega)]
  rw [decode, utf8_encode]
  simp only [hstray]
  exact decodeGroups_encodeBytes 0 b

end Base64
end KeyChain
