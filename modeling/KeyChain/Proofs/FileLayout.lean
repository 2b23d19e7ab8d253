import KeyChain.Proofs.StoreRoundTrip
/-! What a store file shows of its links is how many there are. Every line of the file has the same length and
   the same layout, whatever the link is: identifiers have sixteen digits, and the record of a link, a seal
   or a decoy has as many bytes as any other.

   1. `line_eq`: the parts of a line and their lengths;
   2. `sameBut_content`: files of as many links differ only inside identifiers and records (`Veiled`);
   3. `exists_line`: and what is inside is the identifier and the record of the link of that line;
   4. `Store.flush_veils`: so it is with the files that are flushed. -/
namespace KeyChain

/-- Whether two byte strings have one length and are the same, but for places of a kind. -/
def SameBut (kind : Nat → Prop) (b b' : Bytes) : Prop :=
  b.length = b'.length ∧ ∀ p, ¬ kind p → b[p]? = b'[p]?

namespace SameBut

variable {kind : Nat → Prop} {a a' b b' : Bytes}

theorem refl (kind : Nat → Prop) (b : Bytes) : SameBut kind b b := ⟨rfl, fun _ _ => rfl⟩

theorem append (h : SameBut kind a a') (h' : SameBut (fun p => kind (a.length + p)) b b') :
    SameBut kind (a ++ b) (a' ++ b') := by
  obtain ⟨hlength, hsame⟩ := h
  obtain ⟨hlength', hsame'⟩ := h'
  refine ⟨by rw [List.length_append, List.length_append, hlength, hlength'], fun p hp => ?_⟩
  by_cases hlt : p < a.length
  · rw [List.getElem?_append_left hlt, List.getElem?_append_left (hlength ▸ hlt)]
    exact hsame p hp
  · have hle : a.length ≤ p := Nat.le_of_not_lt hlt
    rw [List.getElem?_append_right hle, List.getElem?_append_right (hlength ▸ hle), ← hlength]
    refine hsame' (p - a.length) fun hkind => hp ?_
    rwa [← Nat.add_sub_cancel' hle]

/-- Nothing is said about bytes at places of the kind. -/
theorem of_forall (hlength : a.length = a'.length) (h : ∀ p, p < a.length → kind p) : SameBut kind a a' := by
  refine ⟨hlength, fun p hp => ?_⟩
  have hle : a.length ≤ p := Nat.le_of_not_lt fun hlt => hp (h p hlt)
  rw [List.getElem?_eq_none hle, List.getElem?_eq_none (hlength ▸ hle)]

end SameBut

/-! Texts without anything to escape. -/

namespace Json

/-- A text without anything to escape stands between the quotes as it is. -/
theorem utf8_quote_of_plain {s : String} (h : ∀ c ∈ s.toList, quotedChar c = [c]) :
    Bytes.utf8 (quote s) = 0x22 :: (Bytes.utf8 s ++ [0x22]) := by
  have hplain : s.toList.flatMap quotedChar = s.toList := by
    rw [List.flatMap_def, List.map_congr_left h, ← List.flatMap_def, List.flatMap_singleton']
  rw [utf8_quote, quoted, hplain]
  rfl

end Json

namespace Bytes

theorem mem_hexChars {b : Bytes} {c : Char} (h : c ∈ hexChars b) : ∃ n < 16, c = hexDigit n := by
  induction b with
  | nil => cases h
  | cons x rest ih =>
    have hx := x.toNat_lt
    rw [hexChars, List.mem_cons, List.mem_cons] at h
    rcases h with rfl | rfl | h
    · exact ⟨_, by omega, rfl⟩
    · exact ⟨_, by omega, rfl⟩
    · exact ih h

theorem length_hexChars (b : Bytes) : (hexChars b).length = 2 * b.length := by
  induction b with
  | nil => rfl
  | cons x rest ih =>
    rw [hexChars, List.length_cons, List.length_cons, ih, List.length_cons]
    omega

theorem length_ofChars_ascii {cs : List Char} (h : ∀ c ∈ cs, c.toNat < 0x80) :
    (ofChars cs).length = cs.length := by
  induction cs with
  | nil => rfl
  | cons c cs ih =>
    rw [ofChars_cons, List.length_append, ofChar_ascii (h c List.mem_cons_self),
      ih fun c' hc' => h c' (List.mem_cons_of_mem _ hc'), List.length_singleton, List.length_cons, Nat.add_comm]

theorem length_utf8_toHex (b : Bytes) : (utf8 (toHex b)).length = 2 * b.length := by
  have hascii : ∀ n < 16, (hexDigit n).toNat < 0x80 := by decide
  rw [toHex, utf8_ofList, length_ofChars_ascii, length_hexChars]
  intro c hc
  obtain ⟨n, hn, rfl⟩ := mem_hexChars hc
  exact hascii n hn

theorem plain_toHex (b : Bytes) : ∀ c ∈ (toHex b).toList, Json.quotedChar c = [c] := by
  have hplain : ∀ n < 16, Json.quotedChar (hexDigit n) = [hexDigit n] := by decide
  intro c hc
  rw [toHex, String.toList_ofList] at hc
  obtain ⟨n, hn, rfl⟩ := mem_hexChars hc
  exact hplain n hn

end Bytes

namespace Base64

theorem plain_encode (b : Bytes) : ∀ c ∈ (encode b).toList, Json.quotedChar c = [c] := by
  have hplain : ∀ n < 64, Json.quotedChar (Char.ofNat (symbol n).toNat) = [Char.ofNat (symbol n).toNat] := by
    decide
  intro c hc
  rw [encode, String.toList_ofList] at hc
  obtain ⟨s, hs, rfl⟩ := List.mem_map.1 hc
  rcases mem_encodeBytes hs with rfl | ⟨n, hn, rfl⟩
  · rfl
  · exact hplain n hn

end Base64

namespace StoreDocument

/-! One line. -/

/-- Bytes of an identifier. -/
def nameLength : Nat := 16

/-- Bytes of the text of a record. -/
def textLength : Nat := 152

theorem length_name (id : KeyId) : (Bytes.utf8 id.toHex).length = nameLength := by
  rw [KeyId.toHex, Bytes.length_utf8_toHex, KeyId.length_bytes]
  rfl

theorem length_text (record : Record) : (Bytes.utf8 (Base64.encode record.bytes)).length = textLength := by
  rw [Base64.utf8_encode, Base64.length_encodeBytes, record.length_eq]
  rfl

/-- The line of a link: blanks, the identifier and the text of the record, both between quotes. -/
theorem line_eq (link : KeyId × Record) :
    Bytes.utf8 (writeEntry link) = [0x20, 0x20, 0x20, 0x20, 0x22] ++ (Bytes.utf8 link.1.toHex ++
      ([0x22, 0x3A, 0x20, 0x22] ++ (Bytes.utf8 (Base64.encode link.2.bytes) ++ [0x22]))) := by
  rw [writeEntry, Bytes.utf8_append, Bytes.utf8_append, Bytes.utf8_append, KeyId.toHex,
    Json.utf8_quote_of_plain (Bytes.plain_toHex _), Json.utf8_quote_of_plain (Base64.plain_encode _),
    show Bytes.utf8 "    " = [0x20, 0x20, 0x20, 0x20] from rfl, show Bytes.utf8 ": " = [0x3A, 0x20] from rfl]
  simp

theorem length_line (link : KeyId × Record) : (Bytes.utf8 (writeEntry link)).length = 178 := by
  rw [line_eq]
  simp only [List.length_append, length_name, length_text, nameLength, textLength, List.length_cons, List.length_nil]

/-- Two lines differ only inside the identifier and the text of the record. -/
theorem sameBut_line {kind : Nat → Prop} (link link' : KeyId × Record)
    (hname : ∀ j < nameLength, kind (5 + j)) (htext : ∀ j < textLength, kind (25 + j)) :
    SameBut kind (Bytes.utf8 (writeEntry link)) (Bytes.utf8 (writeEntry link')) := by
  rw [line_eq, line_eq]
  refine (SameBut.refl _ _).append (.append (.of_forall ?_ fun p hp => ?_)
    ((SameBut.refl _ _).append (.append (.of_forall ?_ fun p hp => ?_) (.refl _ _))))
  · rw [length_name, length_name]
  · rw [length_name] at hp
    exact hname p hp
  · rw [length_text, length_text]
  · rw [length_text] at hp
    rw [length_name]
    have hplace : 5 + (16 + (4 + p)) = 25 + p := by omega
    exact hplace ▸ htext p hp

/-! All lines. -/

/-- The lines of links, with what divides them. -/
def lines (links : List (KeyId × Record)) : Bytes := Bytes.utf8 (",\n".intercalate (links.map writeEntry))

theorem lines_singleton (link : KeyId × Record) : lines [link] = Bytes.utf8 (writeEntry link) := by
  rw [lines, List.map_singleton, String.intercalate_singleton]

theorem lines_cons_cons (link link' : KeyId × Record) (rest : List (KeyId × Record)) :
    lines (link :: link' :: rest) = Bytes.utf8 (writeEntry link) ++ ([0x2C, 0x0A] ++ lines (link' :: rest)) := by
  rw [lines, List.map_cons, List.map_cons, String.intercalate_cons_cons, Bytes.utf8_append, Bytes.utf8_append,
    List.append_assoc]
  rfl

/-- As many lines differ only inside identifiers and records. -/
theorem sameBut_lines {kind : Nat → Prop} {links links' : List (KeyId × Record)}
    (hlength : links.length = links'.length)
    (hname : ∀ i < links.length, ∀ j < nameLength, kind (180 * i + (5 + j)))
    (htext : ∀ i < links.length, ∀ j < textLength, kind (180 * i + (25 + j))) :
    SameBut kind (lines links) (lines links') := by
  induction links generalizing links' kind with
  | nil =>
    obtain rfl := List.length_eq_zero_iff.1 hlength.symm
    exact .refl _ _
  | cons link rest ih =>
    cases links' with
    | nil => cases hlength
    | cons link' rest' =>
      have hrest : rest.length = rest'.length := by simpa using hlength
      have hline : SameBut kind (Bytes.utf8 (writeEntry link)) (Bytes.utf8 (writeEntry link')) := by
        refine sameBut_line link link' (fun j hj => ?_) fun j hj => ?_
        · simpa using hname 0 (Nat.zero_lt_succ _) j hj
        · simpa using htext 0 (Nat.zero_lt_succ _) j hj
      cases rest with
      | nil =>
        obtain rfl := List.length_eq_zero_iff.1 hrest.symm
        rw [lines_singleton, lines_singleton]
        exact hline
      | cons next more =>
        cases rest' with
        | nil => cases hrest
        | cons next' more' =>
          rw [lines_cons_cons, lines_cons_cons]
          -- Behind the first line and what divides it from the others, places count from 180 on.
          refine hline.append ((SameBut.refl _ _).append (ih hrest (fun i hi j hj => ?_) fun i hi j hj => ?_))
          · rw [length_line]
            have hplace : 178 + (2 + (180 * i + (5 + j))) = 180 * (i + 1) + (5 + j) := by omega
            exact hplace ▸ hname (i + 1) (Nat.succ_lt_succ hi) j hj
          · rw [length_line]
            have hplace : 178 + (2 + (180 * i + (25 + j))) = 180 * (i + 1) + (25 + j) := by omega
            exact hplace ▸ htext (i + 1) (Nat.succ_lt_succ hi) j hj

/-- The line of a link stands behind as many lines as there are links in front of it. -/
theorem exists_line {links : List (KeyId × Record)} {i : Nat} {link : KeyId × Record} (h : links[i]? = some link) :
    ∃ before after, lines links = before ++ (Bytes.utf8 (writeEntry link) ++ after) ∧ before.length = 180 * i := by
  induction links generalizing i with
  | nil => cases h
  | cons first rest ih =>
    cases i with
    | zero =>
      obtain rfl := Option.some.inj h
      cases rest with
      | nil => exact ⟨[], [], by rw [lines_singleton, List.nil_append, List.append_nil], List.length_nil⟩
      | cons next more =>
        refine ⟨[], [0x2C, 0x0A] ++ lines (next :: more), ?_, List.length_nil⟩
        rw [lines_cons_cons, List.nil_append]
    | succ i =>
      rw [List.getElem?_cons_succ] at h
      obtain ⟨before, after, hlines, hlength⟩ := ih h
      cases rest with
      | nil => cases h
      | cons next more =>
        refine ⟨Bytes.utf8 (writeEntry first) ++ ([0x2C, 0x0A] ++ before), after, ?_, ?_⟩
        · rw [lines_cons_cons, hlines]
          simp only [List.append_assoc]
        · simp only [List.length_append, length_line, hlength, List.length_cons, List.length_nil]
          omega

/-! The file. -/

/-- What stands in front of the lines. -/
def heading : Bytes := Bytes.utf8 "\x7b\n  \"version\": 1,\n  \"links\": \x7b\n"

/-- What stands behind the lines. -/
def ending : Bytes := Bytes.utf8 "\n  \x7d\n\x7d"

theorem length_heading : heading.length = 31 := by decide

theorem content_of_ne_nil {links : Links} (h : links.entries ≠ []) :
    content links = heading ++ (lines links.entries ++ ending) := by
  have htext : text links = "\x7b\n  \"version\": 1,\n  \"links\": \x7b\n" ++
      (",\n".intercalate (links.entries.map writeEntry) ++ "\n  \x7d\n\x7d") := by
    rw [show "\x7b\n  \"version\": 1,\n  \"links\": \x7b\n" = "\x7b\n  \"version\": 1,\n  \"links\": " ++ "\x7b\n" by
      decide, show "\n  \x7d\n\x7d" = "\n  \x7d" ++ "\n\x7d" by decide]
    unfold text
    cases hentries : links.entries with
    | nil => exact absurd hentries h
    | cons link rest => simp only [String.append_assoc]
  rw [content, htext, Bytes.utf8_append, Bytes.utf8_append]
  rfl

/-- Where the identifier of a line begins. -/
def nameAt (i : Nat) : Nat := 36 + 180 * i

/-- Where the text of the record of a line begins. -/
def textAt (i : Nat) : Nat := 56 + 180 * i

/-- Whether a place in a file of so many links is inside an identifier or inside the text of a record. -/
def Veiled (size p : Nat) : Prop :=
  ∃ i < size, nameAt i ≤ p ∧ p < nameAt i + nameLength ∨ textAt i ≤ p ∧ p < textAt i + textLength

/-- Whether a line carries a link: its identifier and the text of its record, each at its place. -/
def Carries (b : Bytes) (i : Nat) (link : KeyId × Record) : Prop :=
  (b.drop (nameAt i)).take nameLength = Bytes.utf8 link.1.toHex ∧
    (b.drop (textAt i)).take textLength = Bytes.utf8 (Base64.encode link.2.bytes)

/-- Files of as many links differ only inside identifiers and records. -/
theorem sameBut_content {links links' : Links} (h : links.size = links'.size) :
    SameBut (Veiled links.size) (content links) (content links') := by
  have hlength : links.entries.length = links'.entries.length := h
  by_cases hnil : links.entries = []
  · have hnil' : links'.entries = [] := by
      rw [hnil] at hlength
      exact List.length_eq_zero_iff.1 hlength.symm
    rw [OrderedMap.ext (hnil.trans hnil'.symm)]
    exact .refl _ _
  · have hnil' : links'.entries ≠ [] := fun he => hnil (List.length_eq_zero_iff.1 (by rw [hlength, he]; rfl))
    rw [content_of_ne_nil hnil, content_of_ne_nil hnil']
    refine (SameBut.refl _ _).append (.append (sameBut_lines hlength (fun i hi j hj => ?_) fun i hi j hj => ?_)
      (.refl _ _))
    · rw [length_heading]
      exact ⟨i, hi, .inl (by unfold nameAt; omega)⟩
    · rw [length_heading]
      exact ⟨i, hi, .inr (by unfold textAt; omega)⟩

theorem take_drop_middle {front field rest : Bytes} {n k : Nat} (hfront : front.length = n)
    (hfield : field.length = k) : ((front ++ (field ++ rest)).drop n).take k = field := by
  rw [List.drop_left' hfront, List.take_left' hfield]

/-- Inside a line are the identifier and the record of its link. -/
theorem carries_content {links : Links} {i : Nat} {link : KeyId × Record} (h : links.entries[i]? = some link) :
    Carries (content links) i link := by
  have hne : links.entries ≠ [] := fun he => by rw [he] at h; cases h
  obtain ⟨before, after, hlines, hlength⟩ := exists_line h
  have hname : content links = (heading ++ before ++ [0x20, 0x20, 0x20, 0x20, 0x22]) ++
      (Bytes.utf8 link.1.toHex ++ ([0x22, 0x3A, 0x20, 0x22] ++
        (Bytes.utf8 (Base64.encode link.2.bytes) ++ ([0x22] ++ after ++ ending)))) := by
    rw [content_of_ne_nil hne, hlines, line_eq]
    simp only [List.append_assoc]
  have htext : content links = (heading ++ before ++ [0x20, 0x20, 0x20, 0x20, 0x22] ++
      Bytes.utf8 link.1.toHex ++ [0x22, 0x3A, 0x20, 0x22]) ++
        (Bytes.utf8 (Base64.encode link.2.bytes) ++ ([0x22] ++ after ++ ending)) := by
    rw [hname]
    simp only [List.append_assoc]
  constructor
  · rw [hname]
    refine take_drop_middle ?_ (length_name link.1)
    simp only [List.length_append, length_heading, hlength, List.length_cons, List.length_nil, nameAt]
    omega
  · rw [htext]
    refine take_drop_middle ?_ (length_text link.2)
    simp only [List.length_append, length_heading, hlength, length_name, nameLength, List.length_cons,
      List.length_nil, textAt]
    omega

end StoreDocument

namespace Store

open StoreDocument

variable {m m' : Machine} {root root' : Path} {dir dir' : Location} {content content' : Option Bytes}
  {lock lock' : Option LockId} {s s' : Store}

/-- A store file hides what its links are. Two stores with as many links, real ones, seals or decoys in
    whatever mix, are flushed to files of one length which agree but for places inside identifiers and
    inside the texts of records. In both files these stand at the same places, line by line. -/
theorem flush_veils (h : m.Holds root dir content lock) (hfaultless : m.diskFaults = {})
    (hs : s.path = pathFor root) (hdirty : s.dirty = true)
    (h' : m'.Holds root' dir' content' lock') (hfaultless' : m'.diskFaults = {})
    (hs' : s'.path = pathFor root') (hdirty' : s'.dirty = true) (hsize : s.links.size = s'.links.size) :
    ∃ b b' after after',
      s.flush.run m = ((.ok (), { s with dirty := false }), after) ∧
      after.disk.content? (dir.child fileName) = some b ∧
      s'.flush.run m' = ((.ok (), { s' with dirty := false }), after') ∧
      after'.disk.content? (dir'.child fileName) = some b' ∧
      SameBut (Veiled s.links.size) b b' ∧
      (∀ i link, s.links.entries[i]? = some link → Carries b i link) ∧
      ∀ i link, s'.links.entries[i]? = some link → Carries b' i link := by
  obtain ⟨after, hflush, -, hafter⟩ := run_flush_faultless h hfaultless hs hdirty
  obtain ⟨after', hflush', -, hafter'⟩ := run_flush_faultless h' hfaultless' hs' hdirty'
  exact ⟨_, _, after, after', hflush, hafter.content, hflush', hafter'.content, sameBut_content hsize,
    fun _ _ => carries_content, fun _ _ => carries_content⟩

/-- A file with a link and one with a decoy. -/
theorem flush_veils_decoy :
    let parent := Key.ofSecret .aes256Xts (.zero secretSize)
    let linked := Link.encryptWith (.zero 24) parent (Key.ofSecret .camellia128Xts (.zero secretSize))
    let decoy := Link.encryptWith (.zero 24) (Key.ofSecret .invalid (.zero secretSize))
      (Key.ofSecret .invalid (.zero secretSize))
    let holding (id : KeyId) (record : Record) : Store :=
      ⟨pathFor ⟨"/"⟩, OrderedMap.empty.insert id record, true, .exclusive, none⟩
    let s := holding parent.id linked
    let s' := holding ⟨7⟩ decoy
    let m := Machine.new Disk.empty
    m.Holds ⟨"/"⟩ Location.root none none ∧ m.diskFaults = {} ∧ s.path = pathFor ⟨"/"⟩ ∧ s'.path = pathFor ⟨"/"⟩ ∧
      s.dirty = true ∧ s'.dirty = true ∧ s.links.size = s'.links.size ∧
      ∃ b b', (s.flush.run m).2.disk.content? (Location.root.child fileName) = some b ∧
        (s'.flush.run m).2.disk.content? (Location.root.child fileName) = some b' ∧
        SameBut (Veiled 1) b b' ∧ Carries b 0 (parent.id, linked) ∧ Carries b' 0 (⟨7⟩, decoy) := by
  intro parent linked decoy holding s s' m
  -- Said of any identifier and record, so that none is computed.
  have hfirst (id : KeyId) (record : Record) : (holding id record).links.entries[0]? = some (id, record) := rfl
  have hone (id : KeyId) (record : Record) : (holding id record).links.size = 1 := rfl
  have hsize : s.links.size = s'.links.size := (hone _ _).trans (hone _ _).symm
  obtain ⟨b, b', after, after', hflush, hcontent, hflush', hcontent', hsame, hcarries, hcarries'⟩ :=
    @flush_veils m m ⟨"/"⟩ ⟨"/"⟩ _ _ _ _ _ _ s s' holds_new rfl rfl rfl holds_new rfl rfl rfl hsize
  rw [hone] at hsame
  refine ⟨holds_new, rfl, rfl, rfl, rfl, rfl, hsize, b, b', ?_, ?_, hsame, hcarries 0 _ (hfirst _ _),
    hcarries' 0 _ (hfirst _ _)⟩
  · rw [hflush]
    exact hcontent
  · rw [hflush']
    exact hcontent'

end Store

end KeyChain
