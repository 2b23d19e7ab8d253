import KeyChain.Proofs.EntryNames
/-! Which files are stores. A store file is a JSON record of a version and of a map from names to texts; a name must be
   sixteen digits, and a text base64 of the size of a record. What is said of a file that is no store is what is wrong
   with it first: with the record, with its version, or with the first entry that is wrong, where entries are in the
   order of the bytes of their names.

   1. `Bytes.utf8_lt_iff`: texts are in the order of their bytes;
   2. `readEntry_eq_ok_iff`, `readEntry_eq_error_iff`: what an entry spells, and what is wrong with it;
   3. `readEntries_map_eq_error_iff`: of the entries of a map the first that is wrong counts;
   4. `ofBytes?_eq_some_iff`: which contents are documents;
   5. `Store.load_exact`: which files are accepted, what is loaded from them, and what is said of the others. -/
namespace KeyChain

namespace Bytes

/-! The order of texts. -/

theorem cons_ofNat_lt {m n : Nat} (hm : m < 256) (hn : n < 256) {b b' : Bytes} :
    UInt8.ofNat m :: b < UInt8.ofNat n :: b' ↔ m < n ∨ m = n ∧ b < b' := by
  rw [List.cons_lt_cons_iff, UInt8.lt_iff_toNat_lt, ← UInt8.toNat_inj, toNat_ofNat_lt hm, toNat_ofNat_lt hn]

/-- A smaller character has smaller bytes, whatever follows. -/
theorem ofChar_lt {c d : Char} (h : c < d) (b b' : Bytes) : ofChar c ++ b < ofChar d ++ b' := by
  have hlt : c.toNat < d.toNat := h
  have hbound := char_toNat_lt d
  unfold ofChar
  generalize c.toNat = m at hlt
  generalize d.toNat = n at hlt hbound
  dsimp only
  -- The first byte tells how many there are, and of two that are as many the first difference decides.
  split_ifs <;> simp only [List.cons_append] <;>
    simp (disch := omega) only [cons_ofNat_lt] <;> omega

theorem ofChars_lt {cs ds : List Char} (h : cs < ds) : ofChars cs < ofChars ds := by
  induction cs generalizing ds with
  | nil =>
    cases ds with
    | nil => exact absurd h (List.lt_irrefl _)
    | cons d ds =>
      -- Even the zero character, which no character is smaller than, has a byte.
      unfold ofChars ofChar
      rw [List.flatMap_nil, List.flatMap_cons]
      dsimp only
      split_ifs <;> exact List.nil_lt_cons _ _
  | cons c cs ih =>
    cases ds with
    | nil => exact absurd h (List.not_lt_nil _)
    | cons d ds =>
      rcases List.cons_lt_cons_iff.1 h with hlt | ⟨rfl, hlt⟩
      · exact ofChar_lt hlt _ _
      · exact List.append_left_lt (ih hlt)

/-- Texts are in the order of their bytes. -/
theorem utf8_lt_iff {s t : String} : utf8 s < utf8 t ↔ compare s t = .lt := by
  have hlt : ∀ {s t : String}, compare s t = .lt → utf8 s < utf8 t := fun h =>
    ofChars_lt (String.lt_iff.1 (compareOfLessAndEq_eq_lt.1 h))
  constructor
  · intro h
    cases hcompare : compare s t with
    | lt => rfl
    | eq =>
      obtain rfl := Std.LawfulEqCmp.eq_of_compare hcompare
      exact absurd h (List.lt_irrefl _)
    | gt => exact absurd h (List.lt_asymm (hlt (Std.OrientedCmp.gt_iff_lt.1 hcompare)))
  · exact hlt

end Bytes

/-- In a map, what stands before an entry are the entries with smaller keys. -/
theorem OrderedMap.mem_before_iff {κ ν : Type} [Ord κ] [Std.TransOrd κ] [Std.LawfulEqOrd κ] {m : OrderedMap κ ν}
    {before after : List (κ × ν)} {k k' : κ} {v v' : ν} (h : m.entries = before ++ (k, v) :: after) :
    (k', v') ∈ before ↔ m.get? k' = some v' ∧ compare k' k = .lt := by
  have hascending := m.ascending
  rw [h] at hascending
  obtain ⟨-, hafter, hbefore⟩ := List.pairwise_append.1 hascending
  rw [← mem_entries, h]
  constructor
  · exact fun hmem => ⟨List.mem_append_left _ hmem, hbefore _ hmem _ List.mem_cons_self⟩
  · rintro ⟨hmem, hlt⟩
    refine (List.mem_append.1 hmem).resolve_right fun hrest => ?_
    rcases List.mem_cons.1 hrest with he | hrest
    · obtain rfl := congrArg Prod.fst he
      rw [(Std.ReflCmp.compare_self : compare k' k' = .eq)] at hlt
      cases hlt
    · have hgt := (List.pairwise_cons.1 hafter).1 _ hrest
      exact absurd (Std.TransCmp.lt_trans hlt hgt) (by simp)

namespace StoreDocument

section Entries

/-- What is wrong with an entry: its name, or else its text, or else how many bytes the text spells. -/
inductive EntryFault (name text : String) : Corruption → Prop where
  | name (hname : ¬ KeyId.IsName name) : EntryFault name text (.badIdentifier name)
  | text {id : KeyId} {fault : Base64.Fault} (hid : id.SpelledBy name) (htext : Base64.decode text = .error fault) :
      EntryFault name text (.badBase64 id fault)
  | size {id : KeyId} {bytes : Bytes} (hid : id.SpelledBy name) (htext : Base64.decode text = .ok bytes)
      (hsize : bytes.length ≠ 113) : EntryFault name text (.recordLength id bytes.length)

variable {name text : String} {id : KeyId} {record : Record} {e : KeychainError} {entries : List (String × String)}

theorem readEntry_eq_ok_iff :
    readEntry (name, text) = .ok (id, record) ↔ id.SpelledBy name ∧ Base64.decode text = .ok record.bytes := by
  constructor
  · intro h
    obtain ⟨hid, rfl⟩ := readEntry_ok h
    exact ⟨KeyId.ofHex?_eq_some_iff.1 hid, Base64.decode_encode _⟩
  · rintro ⟨hid, htext⟩
    rw [← Base64.encode_of_decode htext]
    exact readEntry_of_spelled (KeyId.ofHex?_eq_some_iff.2 hid) record

theorem readEntry_eq_error_iff :
    readEntry (name, text) = .error e ↔ ∃ what, e = .corrupted what ∧ EntryFault name text what := by
  unfold readEntry
  constructor
  · intro h
    cases hid : KeyId.ofHex? name with
    | none =>
      rw [hid] at h
      cases h
      refine ⟨_, rfl, .name fun hname => ?_⟩
      rw [← KeyId.isSome_ofHex?, hid] at hname
      cases hname
    | some id =>
      rw [hid] at h
      dsimp only at h
      have hid := KeyId.ofHex?_eq_some_iff.1 hid
      cases htext : Base64.decode text with
      | error fault =>
        rw [htext] at h
        cases h
        exact ⟨_, rfl, .text hid htext⟩
      | ok bytes =>
        rw [htext] at h
        dsimp only [Record.ofBytes, FixedBytes.ofBytes?] at h
        by_cases hsize : bytes.length = recordSize
        · rw [dif_pos hsize] at h
          cases h
        · rw [dif_neg hsize] at h
          cases h
          exact ⟨_, rfl, .size hid htext hsize⟩
  · rintro ⟨what, rfl, hfault⟩
    cases hfault with
    | name hname =>
      rw [Option.not_isSome_iff_eq_none.1 (mt KeyId.isSome_ofHex?.1 hname)]
    | text hid htext =>
      rw [KeyId.ofHex?_eq_some_iff.2 hid]
      dsimp only
      rw [htext]
    | size hid htext hsize =>
      rw [KeyId.ofHex?_eq_some_iff.2 hid]
      dsimp only [Record.ofBytes, FixedBytes.ofBytes?]
      rw [htext]
      dsimp only
      rw [dif_neg (show ¬ List.length _ = recordSize from hsize)]

theorem readEntries_cons_eq_error_iff {entry : String × String} : readEntries (entry :: entries) = .error e ↔
    readEntry entry = .error e ∨ (∃ link, readEntry entry = .ok link) ∧ readEntries entries = .error e := by
  rw [readEntries]
  cases readEntry entry with
  | error e' => simp
  | ok link => cases readEntries entries <;> simp

/-- Entries are read one by one, up to the first that is wrong. -/
theorem readEntries_eq_error_iff : readEntries entries = .error e ↔
    ∃ before entry after, entries = before ++ entry :: after ∧ (∀ x ∈ before, ∃ link, readEntry x = .ok link) ∧
      readEntry entry = .error e := by
  induction entries with
  | nil => simp [readEntries]
  | cons first rest ih =>
    rw [readEntries_cons_eq_error_iff, ih]
    constructor
    · rintro (hfirst | ⟨hfirst, before, entry, after, rfl, hread, hentry⟩)
      · exact ⟨[], first, rest, rfl, fun x hx => absurd hx List.not_mem_nil, hfirst⟩
      · exact ⟨first :: before, entry, after, rfl, List.forall_mem_cons.2 ⟨hfirst, hread⟩, hentry⟩
    · rintro ⟨before, entry, after, hentries, hread, hentry⟩
      cases before with
      | nil =>
        cases hentries
        exact .inl hentry
      | cons x before =>
        cases hentries
        obtain ⟨hfirst, hread⟩ := List.forall_mem_cons.1 hread
        exact .inr ⟨hfirst, before, entry, after, rfl, hread, hentry⟩

/-- An entry is sound, or something is wrong with it. -/
theorem readEntry_ok_iff_sound : (∃ link, readEntry (name, text) = .ok link) ↔ ∀ what, ¬ EntryFault name text what := by
  cases hentry : readEntry (name, text) with
  | ok link =>
    refine iff_of_true ⟨link, rfl⟩ fun what hwhat => ?_
    rw [readEntry_eq_error_iff.2 ⟨what, rfl, hwhat⟩] at hentry
    cases hentry
  | error e =>
    obtain ⟨what, -, hwhat⟩ := readEntry_eq_error_iff.1 hentry
    exact iff_of_false (by simp) fun h => h what hwhat

/-- The entries of a map fail with the first that is wrong in the order of the bytes of their names. -/
theorem readEntries_map_eq_error_iff {map : OrderedMap String String} : readEntries map.entries = .error e ↔
    ∃ name text what, map.get? name = some text ∧ e = .corrupted what ∧ EntryFault name text what ∧
      ∀ name' text' what', map.get? name' = some text' → Bytes.utf8 name' < Bytes.utf8 name →
        ¬ EntryFault name' text' what' := by
  rw [readEntries_eq_error_iff]
  constructor
  · rintro ⟨before, ⟨name, text⟩, after, hentries, hread, hentry⟩
    obtain ⟨what, rfl, hwhat⟩ := readEntry_eq_error_iff.1 hentry
    have hget : map.get? name = some text :=
      OrderedMap.mem_entries.1 (hentries ▸ List.mem_append_right _ List.mem_cons_self)
    refine ⟨name, text, what, hget, rfl, hwhat, fun name' text' what' hget' hlt => ?_⟩
    have hbefore := (OrderedMap.mem_before_iff hentries).2 ⟨hget', Bytes.utf8_lt_iff.1 hlt⟩
    exact readEntry_ok_iff_sound.1 (hread _ hbefore) what'
  · rintro ⟨name, text, what, hget, rfl, hwhat, hfirst⟩
    obtain ⟨before, after, hentries⟩ := List.append_of_mem (OrderedMap.mem_entries.2 hget)
    refine ⟨before, (name, text), after, hentries, ?_, readEntry_eq_error_iff.2 ⟨what, rfl, hwhat⟩⟩
    rintro ⟨name', text'⟩ hmem
    obtain ⟨hget', hlt⟩ := (OrderedMap.mem_before_iff hentries).1 hmem
    exact readEntry_ok_iff_sound.2 fun what' => hfirst name' text' what' hget' (Bytes.utf8_lt_iff.2 hlt)

/-- What is read from a map of entries are the links that single entries spell. -/
theorem mem_read_iff {read : List (KeyId × Record)} {map : OrderedMap String String}
    (h : map.entries.map readEntry = read.map Except.ok) : (id, record) ∈ read ↔
      ∃ name text, map.get? name = some text ∧ id.SpelledBy name ∧ Base64.decode text = .ok record.bytes := by
  have hread : (id, record) ∈ read ↔ Except.ok (id, record) ∈ map.entries.map readEntry := by
    rw [h, List.mem_map_of_injective fun _ _ => Except.ok.inj]
  rw [hread, List.mem_map]
  constructor
  · rintro ⟨⟨name, text⟩, hmem, hentry⟩
    exact ⟨name, text, OrderedMap.mem_entries.1 hmem, readEntry_eq_ok_iff.1 hentry⟩
  · rintro ⟨name, text, hget, hentry⟩
    exact ⟨(name, text), OrderedMap.mem_entries.2 hget, readEntry_eq_ok_iff.2 hentry⟩

theorem readEntry_ok_iff : (∃ link, readEntry (name, text) = .ok link) ↔
    KeyId.IsName name ∧ ∃ bytes, Base64.decode text = .ok bytes ∧ bytes.length = 113 := by
  constructor
  · rintro ⟨⟨id, record⟩, hentry⟩
    obtain ⟨hid, htext⟩ := readEntry_eq_ok_iff.1 hentry
    exact ⟨hid.1, record.bytes, htext, record.length_eq⟩
  · rintro ⟨hname, bytes, htext, hsize⟩
    obtain ⟨id, hid⟩ := Option.isSome_iff_exists.1 (KeyId.isSome_ofHex?.2 hname)
    exact ⟨(id, ⟨bytes, hsize⟩), readEntry_eq_ok_iff.2 ⟨KeyId.ofHex?_eq_some_iff.1 hid, htext⟩⟩

theorem readEntries_ok_iff : (∃ links, readEntries entries = .ok links) ↔
    ∀ entry ∈ entries, ∃ link, readEntry entry = .ok link := by
  induction entries with
  | nil => simp [readEntries]
  | cons entry rest ih =>
    rw [List.forall_mem_cons, ← ih, readEntries]
    cases readEntry entry with
    | error e => simp
    | ok link => cases readEntries rest <;> simp

end Entries

/-! Documents. -/

variable {path : Path} {content : Bytes} {doc : StoreDocument} {links : Links} {e : KeychainError}

/-- Whether a document is the JSON record of a version and of a map from texts to texts that a content is. Of entries
    with one name the last one counts. -/
def WrittenIn (doc : StoreDocument) (content : Bytes) : Prop :=
  ∃ v entries, Json.read? content = some v ∧
    v.IsRecord ["version", "links"] [.number (some doc.version), .object (membersOf entries)] ∧
    doc.version < UInt32.size ∧ doc.entries = OrderedMap.ofList entries

theorem ofBytes?_eq_some_iff : ofBytes? content = some doc ↔ doc.WrittenIn content := by
  rw [ofBytes?, Option.bind_eq_some_iff]
  simp only [ofJson?_eq_some_iff]
  constructor
  · rintro ⟨v, hv, entries, h⟩
    exact ⟨v, entries, hv, h⟩
  · rintro ⟨v, entries, hv, h⟩
    exact ⟨v, hv, entries, h⟩

/-- A content is one document at most. -/
theorem WrittenIn.unique {doc' : StoreDocument} (h : doc.WrittenIn content) (h' : doc'.WrittenIn content) : doc = doc' :=
  Option.some.inj ((ofBytes?_eq_some_iff.2 h).symm.trans (ofBytes?_eq_some_iff.2 h'))

theorem WrittenIn.exists_iff (h : doc.WrittenIn content) {P : StoreDocument → Prop} :
    (∃ doc : StoreDocument, doc.WrittenIn content ∧ P doc) ↔ P doc := by
  constructor
  · rintro ⟨doc', h', hP⟩
    exact h.unique h' ▸ hP
  · exact fun hP => ⟨doc, h, hP⟩

/-! Contents. -/

theorem readLinks_of_writtenIn (h : doc.WrittenIn content) : readLinks path content =
    if doc.version = 1 then (readEntries doc.entries.entries).map OrderedMap.ofList
    else .error (.corrupted (.unsupportedVersion path doc.version)) := by
  rw [readLinks, ofBytes?_eq_some_iff.2 h]
  dsimp only
  by_cases hversion : doc.version = 1
  · rw [if_pos hversion, if_neg (show ¬ doc.version ≠ currentVersion from not_not.2 hversion)]
    cases readEntries doc.entries.entries <;> rfl
  · rw [if_neg hversion, if_pos (show doc.version ≠ currentVersion from hversion)]

theorem readLinks_of_unwritten (h : ¬ ∃ doc : StoreDocument, doc.WrittenIn content) :
    readLinks path content = .error (.corrupted (.malformed path complaint)) := by
  have hnone : ofBytes? content = none :=
    Option.eq_none_iff_forall_ne_some.2 fun doc hdoc => h ⟨doc, ofBytes?_eq_some_iff.1 hdoc⟩
  rw [readLinks, hnone]

/-- A content is accepted if it is a document of the one version there is and nothing is wrong with an entry. -/
theorem readLinks_ok_iff : (∃ links, readLinks path content = .ok links) ↔ ∃ doc : StoreDocument,
    doc.WrittenIn content ∧ doc.version = 1 ∧ ∀ name text, doc.entries.get? name = some text →
      KeyId.IsName name ∧ ∃ bytes, Base64.decode text = .ok bytes ∧ bytes.length = 113 := by
  have hentries : ∀ doc : StoreDocument, (∃ links, (readEntries doc.entries.entries).map OrderedMap.ofList =
      (.ok links : Except KeychainError Links)) ↔ ∀ name text, doc.entries.get? name = some text →
        KeyId.IsName name ∧ ∃ bytes, Base64.decode text = .ok bytes ∧ bytes.length = 113 := by
    intro doc
    have hmap : (∃ links, (readEntries doc.entries.entries).map OrderedMap.ofList =
        (.ok links : Except KeychainError Links)) ↔ ∃ read, readEntries doc.entries.entries = .ok read := by
      cases readEntries doc.entries.entries <;> simp [Except.map]
    rw [hmap, readEntries_ok_iff]
    simp only [← OrderedMap.mem_entries, ← readEntry_ok_iff, Prod.forall]
  by_cases hwritten : ∃ doc : StoreDocument, doc.WrittenIn content
  · obtain ⟨doc, hdoc⟩ := hwritten
    rw [readLinks_of_writtenIn hdoc, hdoc.exists_iff]
    by_cases hversion : doc.version = 1
    · rw [if_pos hversion, hentries, and_iff_right hversion]
    · rw [if_neg hversion]
      exact iff_of_false (by simp) fun h => hversion h.1
  · rw [readLinks_of_unwritten hwritten]
    refine iff_of_false (by simp) fun h => hwritten ?_
    obtain ⟨doc, hdoc, -⟩ := h
    exact ⟨doc, hdoc⟩

/-- What is loaded from an accepted content are the links of its entries. -/
theorem links_of_readLinks (h : readLinks path content = .ok links) (hdoc : doc.WrittenIn content) :
    (∀ id, (∃ record, links.get? id = some record) ↔
      ∃ name text, doc.entries.get? name = some text ∧ Bytes.hexNumber name.toList = id.value.toNat) ∧
    ∀ id record, links.get? id = some record → ∃ name text, doc.entries.get? name = some text ∧
      id.SpelledBy name ∧ Base64.decode text = .ok record.bytes := by
  obtain ⟨doc', read, hdoc', hread, rfl⟩ := entries_of_readLinks h
  obtain rfl := hdoc.unique (ofBytes?_eq_some_iff.1 hdoc')
  have hlinks : ∀ id record, (OrderedMap.ofList read).get? id = some record → ∃ name text,
      doc.entries.get? name = some text ∧ id.SpelledBy name ∧ Base64.decode text = .ok record.bytes :=
    fun id record hget => (mem_read_iff hread).1 (OrderedMap.mem_of_get?_ofList hget)
  refine ⟨fun id => ⟨?_, ?_⟩, hlinks⟩
  · rintro ⟨record, hget⟩
    obtain ⟨name, text, hentry, hid, -⟩ := hlinks id record hget
    exact ⟨name, text, hentry, hid.2⟩
  · rintro ⟨name, text, hentry, hnumber⟩
    -- The entry was read, so its name is sixteen digits.
    have hmem : readEntry (name, text) ∈ read.map Except.ok :=
      hread ▸ List.mem_map_of_mem (OrderedMap.mem_entries.2 hentry)
    obtain ⟨⟨id', record⟩, hlink, hok⟩ := List.mem_map.1 hmem
    have hspelled := (readEntry_eq_ok_iff.1 hok.symm).1
    have hid : id' = id := congrArg KeyId.mk (UInt64.toNat_inj.1 (hspelled.2.symm.trans hnumber))
    rw [← hid, ← OrderedMap.mem_keys, OrderedMap.mem_keys_ofList]
    exact List.mem_map_of_mem hlink

/-- What is said of a content that is not accepted: that it is no document, or that there is no such version, or what is
    wrong with the first entry that is wrong, in the order of the bytes of their names. -/
theorem readLinks_error_iff : readLinks path content = .error e ↔
    (e = .corrupted (.malformed path complaint) ∧ ¬ ∃ doc : StoreDocument, doc.WrittenIn content) ∨
    ∃ doc : StoreDocument, doc.WrittenIn content ∧
      (doc.version ≠ 1 ∧ e = .corrupted (.unsupportedVersion path doc.version) ∨
        doc.version = 1 ∧ ∃ name text what, doc.entries.get? name = some text ∧ e = .corrupted what ∧
          EntryFault name text what ∧ ∀ name' text' what', doc.entries.get? name' = some text' →
            Bytes.utf8 name' < Bytes.utf8 name → ¬ EntryFault name' text' what') := by
  by_cases hwritten : ∃ doc : StoreDocument, doc.WrittenIn content
  · rw [or_iff_right fun h => h.2 hwritten]
    obtain ⟨doc, hdoc⟩ := hwritten
    rw [hdoc.exists_iff, readLinks_of_writtenIn hdoc, ← readEntries_map_eq_error_iff]
    by_cases hversion : doc.version = 1
    · rw [if_pos hversion]
      cases readEntries doc.entries.entries <;> simp [hversion, Except.map]
    · rw [if_neg hversion]
      simp [hversion, eq_comm]
  · rw [readLinks_of_unwritten hwritten]
    constructor
    · intro h
      exact .inl ⟨(Except.error.inj h).symm, hwritten⟩
    · rintro (⟨rfl, -⟩ | ⟨doc, hdoc, -⟩)
      · rfl
      · exact absurd ⟨doc, hdoc⟩ hwritten

end StoreDocument

namespace Store

open StoreDocument

variable {m : Machine} {root : Path} {dir : Location}

/-- Which files are stores, and what is loaded from them. A file that is not there is a store without links. A file is
    accepted if and only if it is a JSON record of version 1 and of a map in which every name is sixteen digits and
    every text spells 113 bytes. Then the identifiers that are loaded are the numbers of the names, each with the record
    of a name that spells it. Any other file is corrupted: it is no such record, or else of another version, or else the
    first entry that is wrong, in the order of the bytes of their names, is wrong in its name, or else in its text, or
    else in how many bytes that spells. -/
theorem load_exact (h : m.disk.Hosts root dir) (hread : m.diskFaults.read = none) :
    (m.disk.content? (dir.child fileName) = none → (load (pathFor root)).run m = (.ok OrderedMap.empty, m)) ∧
    ∀ content, m.disk.content? (dir.child fileName) = some content →
      ∃ result, (load (pathFor root)).run m = (result, m) ∧
        ((∃ links, result = .ok links) ↔ ∃ doc : StoreDocument, doc.WrittenIn content ∧ doc.version = 1 ∧
          ∀ name text, doc.entries.get? name = some text →
            KeyId.IsName name ∧ ∃ bytes, Base64.decode text = .ok bytes ∧ bytes.length = 113) ∧
        (∀ (links : Links) (doc : StoreDocument), result = .ok links → doc.WrittenIn content →
          (∀ id, (∃ record, links.get? id = some record) ↔
            ∃ name text, doc.entries.get? name = some text ∧ Bytes.hexNumber name.toList = id.value.toNat) ∧
          ∀ id record, links.get? id = some record → ∃ name text, doc.entries.get? name = some text ∧
            id.SpelledBy name ∧ Base64.decode text = .ok record.bytes) ∧
        ∀ e, result = .error e ↔
          (e = .corrupted (.malformed (pathFor root) complaint) ∧ ¬ ∃ doc : StoreDocument, doc.WrittenIn content) ∨
          ∃ doc : StoreDocument, doc.WrittenIn content ∧
            (doc.version ≠ 1 ∧ e = .corrupted (.unsupportedVersion (pathFor root) doc.version) ∨
              doc.version = 1 ∧ ∃ name text what, doc.entries.get? name = some text ∧ e = .corrupted what ∧
                EntryFault name text what ∧ ∀ name' text' what', doc.entries.get? name' = some text' →
                  Bytes.utf8 name' < Bytes.utf8 name → ¬ EntryFault name' text' what') := by
  have hload : (load (pathFor root)).run m = (spelled (pathFor root) (m.disk.content? (dir.child fileName)), m) := by
    rw [run_load h, loaded, hread]
  refine ⟨fun hnone => by rw [hload, hnone]; rfl, fun content hcontent => ?_⟩
  rw [hcontent] at hload
  exact ⟨_, hload, readLinks_ok_iff, fun _ _ => links_of_readLinks, fun _ => readLinks_error_iff⟩

/-- A file with one identifier in two spellings is accepted, and the identifier is loaded. An empty file is corrupted. -/
theorem load_exact_twice :
    let record : Record := .zero recordSize
    let file (content : Bytes) : Machine := .new (Disk.empty.put (Location.root.child fileName) (.file 0 content))
    (∀ content, (file content).disk.Hosts ⟨"/"⟩ Location.root ∧ (file content).diskFaults.read = none) ∧
      (∃ links record', (load (pathFor ⟨"/"⟩)).run (file (twice record record)) = (.ok links, file (twice record record)) ∧
        links.get? ⟨0xAB⟩ = some record') ∧
      (load (pathFor ⟨"/"⟩)).run (file []) =
        (.error (.corrupted (.malformed (pathFor ⟨"/"⟩) complaint)), file []) := by
  intro record file
  have h : ∀ content, (file content).disk.Hosts ⟨"/"⟩ Location.root := fun content => (holds_file content).hosts
  refine ⟨fun content => ⟨h content, rfl⟩, ?_, ?_⟩
  · obtain ⟨-, hfile⟩ := load_exact (h (twice record record)) rfl
    obtain ⟨result, hrun, hok, hlinks, -⟩ := hfile _ (holds_file _).content
    have hdoc := ofBytes?_eq_some_iff.1 (ofBytes?_twice record record)
    have hentries : ∀ name text, (twiceOf record record).entries.get? name = some text →
        KeyId.IsName name ∧ ∃ bytes, Base64.decode text = .ok bytes ∧ bytes.length = 113 := by
      intro name text hentry
      have hmem := OrderedMap.mem_entries.2 hentry
      rw [entries_twiceOf] at hmem
      simp only [List.mem_cons, Prod.mk.injEq, List.not_mem_nil, or_false] at hmem
      have htext : text = Base64.encode record.bytes := by rcases hmem with ⟨-, h⟩ | ⟨-, h⟩ <;> exact h
      refine ⟨KeyId.isSome_ofHex?.1 ?_, record.bytes, htext ▸ Base64.decode_encode _, record.length_eq⟩
      rcases hmem with ⟨rfl, -⟩ | ⟨rfl, -⟩ <;> decide
    obtain ⟨links, rfl⟩ := hok.2 ⟨_, hdoc, rfl, hentries⟩
    have hname : (twiceOf record record).entries.get? smalls = some (Base64.encode record.bytes) := by
      rw [← OrderedMap.mem_entries, entries_twiceOf]
      simp
    obtain ⟨record', hslot⟩ := ((hlinks links _ rfl hdoc).1 ⟨0xAB⟩).2 ⟨smalls, _, hname, by decide⟩
    exact ⟨links, record', hrun, hslot⟩
  · obtain ⟨-, hfile⟩ := load_exact (h []) rfl
    obtain ⟨result, hrun, -, -, herror⟩ := hfile _ (holds_file _).content
    rw [hrun, (herror _).2 (.inl ⟨rfl, ?_⟩)]
    rintro ⟨doc, v, -, hv, -⟩
    cases hv

end Store

end KeyChain
