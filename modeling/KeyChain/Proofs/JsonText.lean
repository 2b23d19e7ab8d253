import KeyChain.Json.Text
import KeyChain.Proofs.Spelling
/-! JSON text that is written is read back. The characters of a text are taken one by one, each as it is
   quoted (`stringOnto_quotedChar`), so a text between quotes is read to its end whatever is in it
   and behind it (`stringOnto_quote`). An object is read member by member (`members?_member`), an array
   item by item (`elements?_item`). Texts without blanks are put together from texts that spell their
   parts (`Spells`), and two turns of the reader for each byte are enough for them (`Spells.read`). -/
namespace KeyChain.Json

/-! Strings. -/

/-- A byte that stands for itself in a string. -/
theorem stringOnto_plain {b : UInt8} (h : b ≠ 0x22 ∧ b ≠ 0x5C ∧ 0x20 ≤ b.toNat) (read rest : Bytes) :
    stringOnto (some read) (b :: rest) = stringOnto (some (b :: read)) rest := by
  have hlow : ¬ (b < 0x20 ∨ b = 0x5C) := by
    intro h
    rcases h with hlt | heq
    · have := UInt8.lt_iff_toNat_lt.1 hlt
      simp at this
      omega
    · exact h.2.1 heq
  rw [stringOnto, if_neg hlow]
  · rfl
  · exact h.1
  · exact fun _ _ _ _ _ he _ => h.2.1 he
  · exact fun _ _ he _ => h.2.1 he

theorem stringOnto_plain_append {bs : Bytes} (h : ∀ b ∈ bs, b ≠ 0x22 ∧ b ≠ 0x5C ∧ 0x20 ≤ b.toNat)
    (read rest : Bytes) :
    stringOnto (some read) (bs ++ rest) = stringOnto (some (bs.reverse ++ read)) rest := by
  induction bs generalizing read with
  | nil => rfl
  | cons b bs ih =>
    rw [List.cons_append, stringOnto_plain (h b (by simp)), ih fun b' hb' => h b' (List.mem_cons_of_mem _ hb'),
      List.reverse_cons, List.append_assoc]
    rfl

theorem stringOnto_escape {e b : UInt8} (he : escaped? e = some b) (read rest : Bytes) :
    stringOnto (some read) (0x5C :: e :: rest) = stringOnto (some (b :: read)) rest := by
  have hu : e ≠ 0x75 := by
    intro h
    obtain rfl := h
    cases he
  rw [stringOnto, he]
  · rfl
  · exact fun _ _ _ _ _ hu' _ => hu hu'

theorem hexByte?_hexDigit : ∀ n < 16,
    Bytes.ofChar (Bytes.hexDigit n) = [UInt8.ofNat (Bytes.hexDigit n).toNat] ∧
      hexByte? (UInt8.ofNat (Bytes.hexDigit n).toNat) = some n := by decide

/-- A control character that is written by its number. -/
theorem stringOnto_control {c : Char} (hc : c.toNat < 0x20) (read rest : Bytes) :
    stringOnto (some read) (Bytes.ofChars
      ['\\', 'u', '0', '0', Bytes.hexDigit (c.toNat / 16), Bytes.hexDigit (c.toNat % 16)] ++ rest) =
      stringOnto (some ((Bytes.ofChar c).reverse ++ read)) rest := by
  obtain ⟨hhigh, hhigh'⟩ := hexByte?_hexDigit (c.toNat / 16) (by omega)
  obtain ⟨hlow, hlow'⟩ := hexByte?_hexDigit (c.toNat % 16) (by omega)
  generalize UInt8.ofNat (Bytes.hexDigit (c.toNat / 16)).toNat = high at hhigh hhigh'
  generalize UInt8.ofNat (Bytes.hexDigit (c.toNat % 16)).toNat = low at hlow hlow'
  have hunit : unit? 0x30 0x30 high low = some c.toNat := by
    rw [unit?, hhigh', hlow', show hexByte? 0x30 = some 0 from rfl]
    show some (4096 * 0 + 256 * 0 + 16 * (c.toNat / 16) + c.toNat % 16) = some c.toNat
    congr 1
    omega
  -- The number is that of a control character, so it is no half of a pair.
  have hleading : isLeading c.toNat = false := by
    unfold isLeading
    simp
    omega
  have htrailing : isTrailing c.toNat = false := by
    unfold isTrailing
    simp
    omega
  have hbytes : Bytes.ofChars
      ['\\', 'u', '0', '0', Bytes.hexDigit (c.toNat / 16), Bytes.hexDigit (c.toNat % 16)] =
      [0x5C, 0x75, 0x30, 0x30, high, low] := by
    simp only [Bytes.ofChars_cons, hhigh, hlow]
    rfl
  rw [hbytes]
  simp only [List.cons_append, List.nil_append]
  rw [stringOnto, hunit]
  simp only [hleading, htrailing, Bool.false_eq_true, if_false, Char.ofNat_toNat]
  rfl

/-- A character that is written as it is: the bytes of a longer one are all above those of ASCII. -/
theorem plain_ofChar {c : Char} (h : c ≠ '"' ∧ c ≠ '\\' ∧ 0x20 ≤ c.toNat) :
    ∀ b ∈ Bytes.ofChar c, b ≠ 0x22 ∧ b ≠ 0x5C ∧ 0x20 ≤ b.toNat := by
  have hlt := Bytes.char_toNat_lt c
  have hlarge : ∀ n, 0x80 ≤ n → n < 256 →
      UInt8.ofNat n ≠ 0x22 ∧ UInt8.ofNat n ≠ 0x5C ∧ 0x20 ≤ (UInt8.ofNat n).toNat := by
    intro n hn hn'
    have hnat := Bytes.toNat_ofNat_lt hn'
    refine ⟨fun he => ?_, fun he => ?_, by omega⟩
    · rw [he] at hnat
      exact absurd hnat (by simp; omega)
    · rw [he] at hnat
      exact absurd hnat (by simp; omega)
  intro b hb
  unfold Bytes.ofChar at hb
  dsimp only at hb
  split at hb
  · next hascii =>
    obtain rfl := List.mem_singleton.1 hb
    have hnat := Bytes.toNat_ofNat_lt (show c.toNat < 256 by omega)
    refine ⟨fun he => h.1 ?_, fun he => h.2.1 ?_, by omega⟩
    · rw [he] at hnat
      exact Char.toNat_inj.1 hnat.symm
    · rw [he] at hnat
      exact Char.toNat_inj.1 hnat.symm
  split at hb
  · simp only [List.mem_cons, List.not_mem_nil, or_false] at hb
    rcases hb with rfl | rfl
    · exact hlarge _ (by omega) (by omega)
    · exact hlarge _ (by omega) (by omega)
  split at hb
  · simp only [List.mem_cons, List.not_mem_nil, or_false] at hb
    rcases hb with rfl | rfl | rfl
    · exact hlarge _ (by omega) (by omega)
    · exact hlarge _ (by omega) (by omega)
    · exact hlarge _ (by omega) (by omega)
  · simp only [List.mem_cons, List.not_mem_nil, or_false] at hb
    rcases hb with rfl | rfl | rfl | rfl
    · exact hlarge _ (by omega) (by omega)
    · exact hlarge _ (by omega) (by omega)
    · exact hlarge _ (by omega) (by omega)
    · exact hlarge _ (by omega) (by omega)

theorem stringOnto_quotedChar (c : Char) (read rest : Bytes) :
    stringOnto (some read) (Bytes.ofChars (quotedChar c) ++ rest) =
      stringOnto (some ((Bytes.ofChar c).reverse ++ read)) rest := by
  unfold quotedChar
  split
  · next h => subst h; exact stringOnto_escape rfl read rest
  split
  · next h => subst h; exact stringOnto_escape rfl read rest
  split
  · next h => subst h; exact stringOnto_escape rfl read rest
  split
  · next h => subst h; exact stringOnto_escape rfl read rest
  split
  · next h => subst h; exact stringOnto_escape rfl read rest
  split
  · next h => subst h; exact stringOnto_escape rfl read rest
  split
  · next h => subst h; exact stringOnto_escape rfl read rest
  split
  · next h => exact stringOnto_control h read rest
  · next hquote hslash _ _ _ _ _ hlow =>
    rw [Bytes.ofChars_cons, show Bytes.ofChars [] = [] from rfl, List.append_nil]
    exact stringOnto_plain_append (plain_ofChar ⟨hquote, hslash, by omega⟩) read rest

/-- The bytes between the quotes of a text, whatever follows them, are read as that text. -/
theorem stringOnto_quoted (cs : List Char) (read rest : Bytes) :
    stringOnto (some read) (Bytes.ofChars (cs.flatMap quotedChar) ++ 0x22 :: rest) =
      some (Bytes.text? (read.reverse ++ Bytes.ofChars cs), rest) := by
  induction cs generalizing read with
  | nil =>
    rw [List.flatMap_nil, show Bytes.ofChars [] = [] from rfl, List.nil_append, List.append_nil, stringOnto]
    rfl
  | cons c cs ih =>
    rw [List.flatMap_cons, Bytes.ofChars_append, List.append_assoc, stringOnto_quotedChar, ih,
      List.reverse_append, List.reverse_reverse, List.append_assoc, Bytes.ofChars_cons]

/-- The bytes of a text between quotes, behind the first of these. -/
def quoted (s : String) : Bytes := Bytes.ofChars (s.toList.flatMap quotedChar) ++ [0x22]

theorem utf8_quote (s : String) : Bytes.utf8 (quote s) = 0x22 :: quoted s := by
  rw [quote, Bytes.utf8_ofList, List.cons_append, Bytes.ofChars_cons, Bytes.ofChars_append]
  rfl

theorem stringOnto_quote (s : String) (rest : Bytes) :
    stringOnto (some []) (quoted s ++ rest) = some (some s, rest) := by
  rw [quoted, List.append_assoc, List.singleton_append, stringOnto_quoted, List.reverse_nil, List.nil_append]
  show some (Bytes.text? (Bytes.utf8 s), rest) = _
  rw [Bytes.text?_utf8]

/-! Values. -/

/-- A blank in front of a value does not count. -/
theorem value?_blank {fuel : Nat} {b b' : Bytes} (h : skipBlank b = skipBlank b') :
    value? fuel b = value? fuel b' := by
  cases fuel with
  | zero => rw [value?, value?]
  | succ fuel => rw [value?, value?, h]

theorem value?_quote (fuel : Nat) (s : String) (rest : Bytes) :
    value? (fuel + 1) (Bytes.utf8 (quote s) ++ rest) = some (.string (some s), rest) := by
  rw [utf8_quote, value?]
  have hskip : skipBlank (0x22 :: (quoted s ++ rest)) = 0x22 :: (quoted s ++ rest) := by
    simp [skipBlank]
  simp only [List.cons_append, hskip, stringOnto_quote]
  rfl

/-- The number one in front of a comma. -/
theorem value?_one (fuel : Nat) (rest : Bytes) :
    value? (fuel + 1) (0x31 :: 0x2C :: rest) = some (.number (some 1), 0x2C :: rest) := by
  have hskip : skipBlank (0x31 :: 0x2C :: rest) = 0x31 :: 0x2C :: rest := by
    simp [skipBlank]
  have hdigits : digits? (0x31 :: 0x2C :: rest) = some ([0x31], 0x2C :: rest) := rfl
  have hunsigned : unsigned? (0x31 :: 0x2C :: rest) = some (.number (some 1), 0x2C :: rest) := by
    rw [unsigned?, hdigits]
    rfl
  rw [value?]
  simp only [hskip]
  exact hunsigned

/-- An object with a member between its braces. -/
theorem value?_object {fuel : Nat} {b rest body : Bytes} {fields : List (Option String × Json)}
    (hbody : skipBlank b = 0x22 :: body) (hfields : members? fuel (0x22 :: body) = some (fields, rest)) :
    value? (fuel + 1) (0x7B :: b) = some (.object fields, rest) := by
  have hskip : skipBlank (0x7B :: b) = 0x7B :: b := by
    simp [skipBlank]
  rw [value?]
  simp only [hskip, hbody]
  split
  · next h =>
    simp at h
  · rw [hfields]
    rfl

/-- The first member of an object, with what is read behind it. -/
theorem members?_member {fuel : Nat} {b afterName afterColon rest : Bytes} {name : String} {v : Json}
    (hname : skipBlank b = Bytes.utf8 (quote name) ++ afterName)
    (hcolon : skipBlank afterName = 0x3A :: afterColon)
    (hvalue : value? fuel afterColon = some (v, rest)) :
    members? (fuel + 1) b =
      match skipBlank rest with
      | 0x2C :: more => (members? fuel more).map fun (fields, rest) => ((some name, v) :: fields, rest)
      | 0x7D :: more => some ([(some name, v)], more)
      | _ => none := by
  rw [utf8_quote, List.cons_append] at hname
  rw [members?, hname]
  simp only [stringOnto_quote, Option.bind_eq_bind, Option.bind_some, hcolon, hvalue]
  generalize skipBlank rest = after
  cases after with
  | nil => rfl
  | cons c more =>
    by_cases hcomma : c = 0x2C
    · subst hcomma
      show (members? fuel more).bind _ = (members? fuel more).map _
      cases members? fuel more <;> rfl
    · by_cases hbrace : c = 0x7D
      · subst hbrace
        rfl
      · simp [hcomma, hbrace]

/-- The first item of an array, with what is read behind it. -/
theorem elements?_item {fuel : Nat} {b rest : Bytes} {v : Json} (hvalue : value? fuel b = some (v, rest)) :
    elements? (fuel + 1) b =
      match skipBlank rest with
      | 0x2C :: more => (elements? fuel more).map fun (items, rest) => (v :: items, rest)
      | 0x5D :: more => some ([v], more)
      | _ => none := by
  rw [elements?, hvalue]
  simp only [Option.bind_eq_bind, Option.bind_some]
  generalize skipBlank rest = after
  cases after with
  | nil => rfl
  | cons c more =>
    by_cases hcomma : c = 0x2C
    · subst hcomma
      show (elements? fuel more).bind _ = (elements? fuel more).map _
      cases elements? fuel more <;> rfl
    · by_cases hbracket : c = 0x5D
      · subst hbracket
        rfl
      · simp [hcomma, hbracket]

/-! Texts without blanks. -/

/-- Whether a text is read as a value, whatever is behind it, and can be an item of an array. -/
structure Spells (text : String) (v : Json) : Prop where
  value : ∀ fuel rest, 2 * (Bytes.utf8 text).length ≤ fuel →
    value? fuel (Bytes.utf8 text ++ rest) = some (v, rest)
  head : ∃ b body, Bytes.utf8 text = b :: body ∧ b ≠ 0x5D ∧ ∀ rest, skipBlank (b :: rest) = b :: rest

namespace Spells

theorem quote (s : String) : Spells (quote s) (.string (some s)) where
  value fuel rest hfuel := by
    rw [utf8_quote, List.length_cons] at hfuel
    obtain ⟨fuel, rfl⟩ : ∃ n, fuel = n + 1 := ⟨fuel - 1, by omega⟩
    exact value?_quote fuel s rest
  head := ⟨0x22, quoted s, utf8_quote s, by decide, fun _ => by simp [skipBlank]⟩

variable {α : Type} {f : α → String} {v : α → Json}

/-- The items of an array, one behind the other, up to its bracket. -/
theorem elements {xs : List α} (hxs : xs ≠ []) (h : ∀ x ∈ xs, Spells (f x) (v x)) {fuel : Nat}
    (hfuel : 2 * (Bytes.utf8 (",".intercalate (xs.map f))).length < fuel) (rest : Bytes) :
    elements? fuel (Bytes.utf8 (",".intercalate (xs.map f)) ++ 0x5D :: rest) = some (xs.map v, rest) := by
  induction xs generalizing fuel with
  | nil => exact absurd rfl hxs
  | cons x xs ih =>
    obtain ⟨fuel, rfl⟩ : ∃ n, fuel = n + 1 := ⟨fuel - 1, by omega⟩
    have hx := h x (by simp)
    cases xs with
    | nil =>
      rw [List.map_singleton, String.intercalate_singleton] at hfuel ⊢
      rw [elements?_item (hx.value fuel _ (by omega))]
      simp [skipBlank]
    | cons y ys =>
      rw [List.map_cons, List.map_cons, String.intercalate_cons_cons, ← List.map_cons, Bytes.utf8_append,
        Bytes.utf8_append, show Bytes.utf8 "," = [0x2C] from rfl] at hfuel ⊢
      simp only [List.length_append, List.length_singleton] at hfuel
      have hrest := @ih (by simp) (fun x' hx' => h x' (List.mem_cons_of_mem _ hx')) fuel (by omega)
      rw [List.append_assoc, List.append_assoc, elements?_item (hx.value fuel _ (by omega))]
      have hcomma : ∀ more, skipBlank (0x2C :: more) = 0x2C :: more := by simp [skipBlank]
      simp only [List.singleton_append, hcomma, hrest]
      rfl

theorem array {xs : List α} (h : ∀ x ∈ xs, Spells (f x) (v x)) :
    Spells ("[" ++ ",".intercalate (xs.map f) ++ "]") (.array (xs.map v)) := by
  have hutf8 : Bytes.utf8 ("[" ++ ",".intercalate (xs.map f) ++ "]") =
      0x5B :: (Bytes.utf8 (",".intercalate (xs.map f)) ++ [0x5D]) := by
    rw [Bytes.utf8_append, Bytes.utf8_append]
    rfl
  have hopen : ∀ rest, skipBlank (0x5B :: rest) = 0x5B :: rest := by simp [skipBlank]
  refine ⟨fun fuel rest hfuel => ?_, _, _, hutf8, by decide, hopen⟩
  rw [hutf8, List.length_cons, List.length_append, List.length_singleton] at hfuel
  obtain ⟨fuel, rfl⟩ : ∃ n, fuel = n + 1 := ⟨fuel - 1, by omega⟩
  rw [hutf8, List.cons_append, List.append_assoc, value?]
  simp only [hopen, List.singleton_append]
  cases xs with
  | nil =>
    rw [List.map_nil, show Bytes.utf8 (",".intercalate []) = [] from rfl]
    simp [skipBlank]
  | cons x xs =>
    have helements := elements (List.cons_ne_nil x xs) h (show _ < fuel by omega) rest
    -- The first item does not begin like the end of an array.
    obtain ⟨b, body, hhead, hne, hskip⟩ := (h x (by simp)).head
    obtain ⟨body', hbody⟩ : ∃ body', Bytes.utf8 (",".intercalate ((x :: xs).map f)) = b :: body' := by
      cases xs with
      | nil =>
        rw [List.map_singleton, String.intercalate_singleton]
        exact ⟨body, hhead⟩
      | cons y ys =>
        rw [List.map_cons, List.map_cons, String.intercalate_cons_cons, Bytes.utf8_append, Bytes.utf8_append,
          hhead]
        exact ⟨_, rfl⟩
    rw [hbody] at helements ⊢
    rw [List.cons_append] at helements ⊢
    simp only [hskip]
    split
    · next he => exact absurd (List.cons.inj he).1 hne
    · rw [helements]
      rfl

/-- An object of two members. -/
theorem pair {text₁ text₂ : String} {v₁ v₂ : Json} (h₁ : Spells text₁ v₁) (h₂ : Spells text₂ v₂)
    (name₁ name₂ : String) :
    Spells ("\x7b" ++ Json.quote name₁ ++ ":" ++ text₁ ++ "," ++ Json.quote name₂ ++ ":" ++ text₂ ++ "\x7d")
      (.object [(some name₁, v₁), (some name₂, v₂)]) := by
  have hutf8 : Bytes.utf8
      ("\x7b" ++ Json.quote name₁ ++ ":" ++ text₁ ++ "," ++ Json.quote name₂ ++ ":" ++ text₂ ++ "\x7d") =
      0x7B :: (Bytes.utf8 (Json.quote name₁) ++ 0x3A :: (Bytes.utf8 text₁ ++ 0x2C ::
        (Bytes.utf8 (Json.quote name₂) ++ 0x3A :: (Bytes.utf8 text₂ ++ [0x7D])))) := by
    simp only [Bytes.utf8_append, show Bytes.utf8 "\x7b" = [0x7B] from rfl,
      show Bytes.utf8 "\x7d" = [0x7D] from rfl, show Bytes.utf8 ":" = [0x3A] from rfl,
      show Bytes.utf8 "," = [0x2C] from rfl, List.append_assoc, List.cons_append, List.nil_append]
  refine ⟨fun fuel rest hfuel => ?_, _, _, hutf8, by decide, fun _ => by simp [skipBlank]⟩
  rw [hutf8] at hfuel ⊢
  simp only [List.length_cons, List.length_append, List.length_nil] at hfuel
  obtain ⟨fuel, rfl⟩ : ∃ n, fuel = n + 3 := ⟨fuel - 3, by omega⟩
  simp only [List.cons_append, List.append_assoc, List.nil_append]
  have hcolon : ∀ more, skipBlank (0x3A :: more) = 0x3A :: more := by simp [skipBlank]
  have hquote : ∀ name more, skipBlank (Bytes.utf8 (Json.quote name) ++ more) =
      Bytes.utf8 (Json.quote name) ++ more := by
    intro name more
    rw [utf8_quote]
    simp [skipBlank]
  have hlast : members? (fuel + 1) (Bytes.utf8 (Json.quote name₂) ++ 0x3A ::
      (Bytes.utf8 text₂ ++ 0x7D :: rest)) = some ([(some name₂, v₂)], rest) := by
    rw [members?_member (hquote _ _) (hcolon _) (h₂.value fuel _ (by omega))]
    simp [skipBlank]
  have hmembers : members? (fuel + 2) (Bytes.utf8 (Json.quote name₁) ++ 0x3A :: (Bytes.utf8 text₁ ++ 0x2C ::
      (Bytes.utf8 (Json.quote name₂) ++ 0x3A :: (Bytes.utf8 text₂ ++ 0x7D :: rest)))) =
      some ([(some name₁, v₁), (some name₂, v₂)], rest) := by
    rw [members?_member (hquote _ _) (hcolon _) (h₁.value (fuel + 1) _ (by omega))]
    have hcomma : ∀ more, skipBlank (0x2C :: more) = 0x2C :: more := by simp [skipBlank]
    simp only [hcomma, hlast, Option.map_some]
  rw [utf8_quote, List.cons_append] at hmembers ⊢
  exact value?_object (by simp [skipBlank]) hmembers

/-- A text that spells a value is read as that value. -/
theorem read {text : String} {v : Json} (h : Spells text v) : read? (Bytes.utf8 text) = some v := by
  have hvalue := h.value (2 * (Bytes.utf8 text).length + 2) [] (by omega)
  rw [List.append_nil] at hvalue
  rw [read?, hvalue]
  rfl

end Spells

end KeyChain.Json
