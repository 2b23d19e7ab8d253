import KeyChain.Proofs.JsonRecords
import KeyChain.Proofs.JsonText
import KeyChain.Store.Document
/-! What is written to a store file is what is read from it (`readLinks_content`). The text of a file is
   read member by member as the document it was written from (`read?_content`). Names are then read in
   the order of their texts and filed by the order of their numbers; which order they come in makes no
   difference, since a map is determined by its look-ups. -/
namespace KeyChain

namespace OrderedMap

variable {κ ν : Type} [Ord κ] [Std.TransOrd κ] [Std.LawfulEqOrd κ]

theorem mem_entries {m : OrderedMap κ ν} {k : κ} {v : ν} : (k, v) ∈ m.entries ↔ m.get? k = some v :=
  ⟨lookup_of_mem m.ascending, mem_of_lookup⟩

omit [Std.TransOrd κ] in
theorem nodup_keys (m : OrderedMap κ ν) : m.keys.Nodup := by
  refine List.pairwise_map.2 (m.ascending.imp fun {a b} hlt he => ?_)
  rw [he, (Std.ReflCmp.compare_self : compare b.1 b.1 = .eq)] at hlt
  cases hlt

/-- Entries of different keys are all kept, in front of what was there. -/
theorem get?_foldl_insert {l : List (κ × ν)} (hl : (l.map Prod.fst).Nodup) (m : OrderedMap κ ν)
    (k : κ) (v : ν) :
    (l.foldl (fun m e => m.insert e.1 e.2) m).get? k = some v ↔
      (k, v) ∈ l ∨ k ∉ l.map Prod.fst ∧ m.get? k = some v := by
  induction l generalizing m with
  | nil => simp
  | cons e l ih =>
    obtain ⟨k', v'⟩ := e
    rw [List.map_cons, List.nodup_cons] at hl
    rw [List.foldl_cons, ih hl.2, get?_insert]
    simp only [List.mem_cons, List.map_cons, Prod.mk.injEq]
    by_cases hk : k = k'
    · subst hk
      have hmem : (k, v) ∉ l := fun h => hl.1 (List.mem_map.2 ⟨(k, v), h, rfl⟩)
      simp [hmem, hl.1, eq_comm]
    · have hne : ¬ compare k k' = .eq := fun h => hk (Std.LawfulEqCmp.eq_of_compare h)
      simp [hk, hne]

/-- Entries of other keys make no difference. -/
theorem get?_foldl_insert_of_ne {α : Type} (key : α → κ) (value : α → ν) (l : List α) (m : OrderedMap κ ν) {k : κ}
    (h : ∀ a ∈ l, key a ≠ k) : (l.foldl (fun m a => m.insert (key a) (value a)) m).get? k = m.get? k := by
  induction l generalizing m with
  | nil => rfl
  | cons a l ih =>
    rw [List.foldl_cons, ih _ fun a' ha' => h a' (List.mem_cons_of_mem _ ha'), get?_insert, if_neg]
    exact fun he => h a List.mem_cons_self (Std.LawfulEqCmp.eq_of_compare he).symm

theorem get?_ofList {l : List (κ × ν)} (hl : (l.map Prod.fst).Nodup) (k : κ) (v : ν) :
    (ofList l).get? k = some v ↔ (k, v) ∈ l := by
  rw [ofList, get?_foldl_insert hl]
  simp

/-- A map is built again from its entries, whatever their order. -/
theorem ofList_eq {l : List (κ × ν)} {m : OrderedMap κ ν} (hl : (l.map Prod.fst).Nodup)
    (h : ∀ e, e ∈ l ↔ e ∈ m.entries) : ofList l = m := by
  apply ext_get?
  intro k
  apply Option.ext
  intro v
  rw [get?_ofList hl, h, mem_entries]

/-- Entries that are in order are filed as they are. -/
theorem entries_ofList {l : List (κ × ν)} (h : l.Pairwise fun a b => compare a.1 b.1 = .lt) :
    (ofList l).entries = l := by
  have hkeys : (l.map Prod.fst).Nodup := nodup_keys ⟨l, h⟩
  exact congrArg entries (@ofList_eq _ _ _ _ _ l ⟨l, h⟩ hkeys fun _ => Iff.rfl)

end OrderedMap

namespace StoreDocument

/-- A link as the name and the text of its entry. -/
def entryOf (link : KeyId × Record) : String × String := (link.1.toHex, Base64.encode link.2.bytes)

theorem readEntry_of_spelled {name : String} {id : KeyId} (h : KeyId.ofHex? name = some id) (record : Record) :
    readEntry (name, Base64.encode record.bytes) = .ok (id, record) := by
  have hrecord : Record.ofBytes id record.bytes = .ok record := by
    have := FixedBytes.ofBytes?_bytes record
    rw [Record.ofBytes, this]
  rw [readEntry, h]
  simp only [Base64.decode_encode, hrecord]

theorem readEntry_entryOf (link : KeyId × Record) : readEntry (entryOf link) = .ok link :=
  readEntry_of_spelled (KeyId.ofHex?_toHex link.1) link.2

theorem readEntries_map (links : List (KeyId × Record)) :
    readEntries (links.map entryOf) = .ok links := by
  induction links with
  | nil => rfl
  | cons link rest ih => rw [List.map_cons, readEntries, readEntry_entryOf, ih]

theorem entryOf_injective {link link' : KeyId × Record} (h : entryOf link = entryOf link') :
    link = link' := by
  have hread := readEntry_entryOf link
  rw [h, readEntry_entryOf] at hread
  exact (Except.ok.inj hread).symm

theorem nodup_names (links : Links) : ((links.entries.map entryOf).map Prod.fst).Nodup := by
  have hkeys := links.nodup_keys
  rw [OrderedMap.keys] at hkeys
  rw [List.map_map]
  exact List.pairwise_map.2 ((List.pairwise_map.1 hkeys).imp fun hne he => hne (KeyId.toHex_inj he))

theorem exists_eq_map {α β : Type} {f : α → β} {l : List β} (h : ∀ e ∈ l, ∃ a, f a = e) :
    ∃ as : List α, l = as.map f := by
  induction l with
  | nil => exact ⟨[], rfl⟩
  | cons e l ih =>
    obtain ⟨a, ha⟩ := h e (by simp)
    obtain ⟨as, has⟩ := ih fun e' he' => h e' (List.mem_cons_of_mem _ he')
    exact ⟨a :: as, by rw [List.map_cons, ha, has]⟩

/-- The entries of links, filed under their names, are read as these links. -/
theorem readEntries_ofList (links : Links) :
    ∃ read, readEntries (OrderedMap.ofList (links.entries.map entryOf)).entries = .ok read ∧
      OrderedMap.ofList read = links := by
  have hmem : ∀ e, e ∈ (OrderedMap.ofList (links.entries.map entryOf)).entries ↔
      e ∈ links.entries.map entryOf := by
    intro e
    rw [OrderedMap.mem_entries, OrderedMap.get?_ofList (nodup_names links)]
  obtain ⟨read, hread⟩ := @exists_eq_map _ _ entryOf _ fun e he => by
    obtain ⟨link, -, hlink⟩ := List.mem_map.1 ((hmem e).1 he)
    exact ⟨link, hlink⟩
  have hnodup := (OrderedMap.ofList (links.entries.map entryOf)).nodup_keys
  rw [OrderedMap.keys, hread, List.map_map] at hnodup
  -- Filing under names may change the order of the entries, not which there are.
  refine ⟨read, hread ▸ readEntries_map read, OrderedMap.ofList_eq ?_ ?_⟩
  · refine List.pairwise_map.2 ((List.pairwise_map.1 hnodup).imp fun {a b} hne he => hne ?_)
    exact congrArg KeyId.toHex he
  · intro link
    have hlink := hmem (entryOf link)
    rw [hread, List.mem_map, List.mem_map] at hlink
    constructor
    · intro h
      obtain ⟨link', h', he⟩ := hlink.1 ⟨link, h, rfl⟩
      exact entryOf_injective he ▸ h'
    · intro h
      obtain ⟨link', h', he⟩ := hlink.2 ⟨link, h, rfl⟩
      exact entryOf_injective he ▸ h'

/-! The text of a file. -/

/-- A link as a member of the document's map. -/
def memberOf (link : KeyId × Record) : Option String × Json :=
  (some (entryOf link).1, .string (some (entryOf link).2))

theorem utf8_writeEntry (link : KeyId × Record) (rest : Bytes) :
    Json.skipBlank (Bytes.utf8 (writeEntry link) ++ rest) =
      Bytes.utf8 (Json.quote (entryOf link).1) ++
        (0x3A :: 0x20 :: (Bytes.utf8 (Json.quote (entryOf link).2) ++ rest)) := by
  rw [writeEntry, Bytes.utf8_append, Bytes.utf8_append, Bytes.utf8_append,
    show Bytes.utf8 "    " = [0x20, 0x20, 0x20, 0x20] from rfl, show Bytes.utf8 ": " = [0x3A, 0x20] from rfl,
    Json.utf8_quote link.1.toHex]
  simp [Json.skipBlank, entryOf, Json.utf8_quote]

/-- Behind the blanks in front of them, the lines of the entries begin with a quote. -/
theorem skipBlank_entries (link : KeyId × Record) (links : List (KeyId × Record)) (rest : Bytes) :
    ∃ body, Json.skipBlank (Bytes.utf8 (",\n".intercalate ((link :: links).map writeEntry)) ++ rest) =
      0x22 :: body := by
  cases links with
  | nil =>
    rw [List.map_singleton, String.intercalate_singleton, utf8_writeEntry, Json.utf8_quote]
    exact ⟨_, rfl⟩
  | cons link' links =>
    rw [List.map_cons, List.map_cons, String.intercalate_cons_cons, Bytes.utf8_append, Bytes.utf8_append,
      List.append_assoc, List.append_assoc, utf8_writeEntry, Json.utf8_quote]
    exact ⟨_, rfl⟩

/-- The lines of the entries are read up to the brace behind them. -/
theorem members?_entries {links : List (KeyId × Record)} (hlinks : links ≠ []) {fuel : Nat}
    (hfuel : links.length < fuel) (rest : Bytes) {b : Bytes}
    (hb : Json.skipBlank b = Json.skipBlank (Bytes.utf8 (",\n".intercalate (links.map writeEntry)) ++
      0x0A :: 0x20 :: 0x20 :: 0x7D :: rest)) :
    Json.members? fuel b = some (links.map memberOf, rest) := by
  induction links generalizing fuel b with
  | nil => exact absurd rfl hlinks
  | cons link links ih =>
    obtain ⟨fuel, rfl⟩ : ∃ n, fuel = n + 1 + 1 := ⟨fuel - 2, by rw [List.length_cons] at hfuel; omega⟩
    cases links with
    | nil =>
      rw [List.map_singleton, String.intercalate_singleton, utf8_writeEntry] at hb
      have hvalue := Json.value?_quote fuel (entryOf link).2 (0x0A :: 0x20 :: 0x20 :: 0x7D :: rest)
      rw [Json.members?_member hb (by rfl) ((Json.value?_blank (by simp [Json.skipBlank])).trans hvalue)]
      simp [Json.skipBlank, memberOf]
    | cons link' links =>
      rw [List.map_cons, List.map_cons, String.intercalate_cons_cons, Bytes.utf8_append, Bytes.utf8_append,
        List.append_assoc, List.append_assoc, utf8_writeEntry, ← List.map_cons,
        show Bytes.utf8 ",\n" = [0x2C, 0x0A] from rfl] at hb
      -- Behind the comma stand a line feed and the lines that are left.
      have hmore := @ih (by simp) (fuel + 1) (by simpa using hfuel) (0x0A :: (Bytes.utf8
        (",\n".intercalate ((link' :: links).map writeEntry)) ++ 0x0A :: 0x20 :: 0x20 :: 0x7D :: rest))
        (by simp [Json.skipBlank])
      generalize Bytes.utf8 (",\n".intercalate ((link' :: links).map writeEntry)) ++
        0x0A :: 0x20 :: 0x20 :: 0x7D :: rest = more at hb hmore
      have hvalue := Json.value?_quote fuel (entryOf link).2 (0x2C :: 0x0A :: more)
      have hcomma : Json.skipBlank (0x2C :: 0x0A :: more) = 0x2C :: 0x0A :: more := by
        simp [Json.skipBlank]
      rw [Json.members?_member hb (by rfl) ((Json.value?_blank (by simp [Json.skipBlank])).trans hvalue),
        hcomma]
      simp only [hmore]
      rfl

/-- The map of the document, as it stands in the text. -/
def mapText (links : List (KeyId × Record)) : String :=
  match links with
  | [] => "\x7b\x7d"
  | links => "\x7b\n" ++ ",\n".intercalate (links.map writeEntry) ++ "\n  \x7d"

theorem value?_mapText {links : List (KeyId × Record)} {fuel : Nat} (hfuel : links.length < fuel)
    (rest : Bytes) :
    Json.value? (fuel + 1) (Bytes.utf8 (mapText links) ++ rest) =
      some (.object (links.map memberOf), rest) := by
  cases links with
  | nil =>
    rw [mapText, show Bytes.utf8 "\x7b\x7d" = [0x7B, 0x7D] from rfl, Json.value?]
    simp [Json.skipBlank]
  | cons link links =>
    obtain ⟨body, hbody⟩ := skipBlank_entries link links (0x0A :: 0x20 :: 0x20 :: 0x7D :: rest)
    have hquote : Json.skipBlank (0x22 :: body) = 0x22 :: body := by
      simp [Json.skipBlank]
    have hmembers := members?_entries (List.cons_ne_nil link links) hfuel rest (hquote.trans hbody.symm)
    rw [mapText, Bytes.utf8_append, Bytes.utf8_append, show Bytes.utf8 "\x7b\n" = [0x7B, 0x0A] from rfl,
      show Bytes.utf8 "\n  \x7d" = [0x0A, 0x20, 0x20, 0x7D] from rfl]
    · simp only [List.append_assoc, List.cons_append, List.nil_append]
      refine Json.value?_object (Eq.trans ?_ hbody) hmembers
      simp [Json.skipBlank]
    · exact fun h => by cases h

theorem length_le_entries (links : List (KeyId × Record)) :
    links.length ≤ (Bytes.utf8 (",\n".intercalate (links.map writeEntry))).length := by
  induction links with
  | nil => exact Nat.le_refl _
  | cons link links ih =>
    have hfirst : 0 < (Bytes.utf8 (writeEntry link)).length := by
      rw [writeEntry, Bytes.utf8_append, Bytes.utf8_append, Bytes.utf8_append, Json.utf8_quote]
      simp only [List.length_append, List.length_cons]
      omega
    cases links with
    | nil =>
      rw [List.map_singleton, String.intercalate_singleton, List.length_singleton]
      exact hfirst
    | cons link' links =>
      rw [List.map_cons, List.map_cons, String.intercalate_cons_cons, Bytes.utf8_append, Bytes.utf8_append,
        ← List.map_cons]
      simp only [List.length_append, List.length_cons] at ih ⊢
      omega

/-- The document that links are written as. -/
def documentOf (links : Links) : Json :=
  .object [(some "version", .number (some 1)), (some "links", .object (links.entries.map memberOf))]

/-- A document around the text of its map. -/
def framed (map : String) : String := "\x7b\n  \"version\": 1,\n  \"links\": " ++ map ++ "\n\x7d"

theorem content_eq (links : Links) : content links = Bytes.utf8 (framed (mapText links.entries)) := by
  have htext : text links = framed (mapText links.entries) := by
    unfold text mapText framed
    cases links.entries <;> simp only
  rw [content, htext]

theorem utf8_framed (map : String) :
    Bytes.utf8 (framed map) = 0x7B :: 0x0A :: 0x20 :: 0x20 :: (Bytes.utf8 (Json.quote "version") ++
      (0x3A :: 0x20 :: 0x31 :: 0x2C :: 0x0A :: 0x20 :: 0x20 :: (Bytes.utf8 (Json.quote "links") ++
        (0x3A :: 0x20 :: (Bytes.utf8 map ++ [0x0A, 0x7D]))))) := by
  have hframed : framed map = "\x7b\n  \"version\": 1,\n  \"links\": " ++ map ++ "\n\x7d" := rfl
  have hhead : Bytes.utf8 "\x7b\n  \"version\": 1,\n  \"links\": " =
      [0x7B, 0x0A, 0x20, 0x20] ++ Bytes.utf8 (Json.quote "version") ++
        [0x3A, 0x20, 0x31, 0x2C, 0x0A, 0x20, 0x20] ++ Bytes.utf8 (Json.quote "links") ++ [0x3A, 0x20] := by
    decide
  have hend : Bytes.utf8 "\n\x7d" = [0x0A, 0x7D] := rfl
  rw [hframed, Bytes.utf8_append, Bytes.utf8_append, hhead, hend]
  simp only [List.append_assoc, List.cons_append, List.nil_append]

/-- The second member of a document, and its end. -/
theorem members?_links {fuel : Nat} {map : Bytes} {value : Json}
    (hmap : Json.value? (fuel + 1) map = some (value, [0x0A, 0x7D])) :
    Json.members? (fuel + 2)
      (0x0A :: 0x20 :: 0x20 :: (Bytes.utf8 (Json.quote "links") ++ (0x3A :: 0x20 :: map))) =
      some ([(some "links", value)], []) := by
  have hname : Json.skipBlank
      (0x0A :: 0x20 :: 0x20 :: (Bytes.utf8 (Json.quote "links") ++ (0x3A :: 0x20 :: map))) =
      Bytes.utf8 (Json.quote "links") ++ (0x3A :: 0x20 :: map) := by
    simp [Json.utf8_quote, Json.skipBlank]
  rw [Json.members?_member hname (by rfl) ((Json.value?_blank (by simp [Json.skipBlank])).trans hmap)]
  simp [Json.skipBlank]

/-- The first member of a document, in front of the others. -/
theorem members?_version {fuel : Nat} {rest : Bytes} {members : List (Option String × Json)}
    (hrest : Json.members? (fuel + 1) rest = some (members, [])) :
    Json.members? (fuel + 2)
      (0x22 :: (Json.quoted "version" ++ (0x3A :: 0x20 :: 0x31 :: 0x2C :: rest))) =
      some ((some "version", .number (some 1)) :: members, []) := by
  have hversion := Json.value?_one fuel rest
  have hcomma : Json.skipBlank (0x2C :: rest) = 0x2C :: rest := by
    simp [Json.skipBlank]
  have hname : Json.skipBlank (0x22 :: (Json.quoted "version" ++ (0x3A :: 0x20 :: 0x31 :: 0x2C :: rest))) =
      Bytes.utf8 (Json.quote "version") ++ (0x3A :: 0x20 :: 0x31 :: 0x2C :: rest) := by
    simp [Json.utf8_quote, Json.skipBlank]
  rw [Json.members?_member hname (by rfl) ((Json.value?_blank (by simp [Json.skipBlank])).trans hversion),
    hcomma]
  simp only [hrest, Option.map_some]

/-- A document is read as a record of the version and the map that its text spells. -/
theorem read?_framed {map : String} {value : Json}
    (hmap : ∀ fuel, 2 * (Bytes.utf8 map).length ≤ fuel →
      Json.value? fuel (Bytes.utf8 map ++ [0x0A, 0x7D]) = some (value, [0x0A, 0x7D])) :
    Json.read? (Bytes.utf8 (framed map)) =
      some (.object [(some "version", .number (some 1)), (some "links", value)]) := by
  -- The reader has two turns for each byte, more than there are values and members around the map.
  obtain ⟨fuel, hfuel⟩ : ∃ fuel, 2 * (Bytes.utf8 (framed map)).length + 2 = fuel + 4 :=
    ⟨2 * (Bytes.utf8 (framed map)).length - 2, by
      rw [utf8_framed]
      simp only [List.length_cons]
      omega⟩
  have hlength : 2 * (Bytes.utf8 map).length ≤ fuel + 1 := by
    rw [utf8_framed] at hfuel
    simp only [List.length_cons, List.length_append] at hfuel
    omega
  have hmap := hmap (fuel + 1) hlength
  rw [Json.read?, hfuel, utf8_framed]
  generalize Bytes.utf8 map ++ [0x0A, 0x7D] = map at hmap ⊢
  have hlinks := members?_links hmap
  generalize 0x0A :: 0x20 :: 0x20 :: (Bytes.utf8 (Json.quote "links") ++ (0x3A :: 0x20 :: map)) = rest
    at hlinks ⊢
  have hbody : Json.skipBlank (0x0A :: 0x20 :: 0x20 :: (Bytes.utf8 (Json.quote "version") ++
      (0x3A :: 0x20 :: 0x31 :: 0x2C :: rest))) =
      0x22 :: (Json.quoted "version" ++ (0x3A :: 0x20 :: 0x31 :: 0x2C :: rest)) := by
    simp [Json.utf8_quote, Json.skipBlank]
  rw [Json.value?_object hbody (members?_version hlinks)]
  rfl

theorem read?_content (links : Links) : Json.read? (content links) = some (documentOf links) := by
  rw [content_eq]
  refine read?_framed fun fuel hfuel => ?_
  have hmap : links.entries.length < 2 * (Bytes.utf8 (mapText links.entries)).length - 1 := by
    unfold mapText
    cases links.entries with
    | nil => decide
    | cons link rest =>
      have hle := length_le_entries (link :: rest)
      have hbrace : (Bytes.utf8 "\x7b\n").length = 2 := rfl
      simp only [Bytes.utf8_append, List.length_append, hbrace]
      omega
  obtain ⟨fuel, rfl⟩ : ∃ n, fuel = n + 1 := ⟨fuel - 1, by omega⟩
  exact value?_mapText (by omega) [0x0A, 0x7D]

/-- Entries as members of a document's map. -/
def membersOf (entries : List (String × String)) : List (Option String × Json) :=
  entries.map fun entry => (some entry.1, .string (some entry.2))

/-- Which values are documents. -/
theorem ofJson?_eq_some_iff {v : Json} {doc : StoreDocument} : ofJson? v = some doc ↔ ∃ entries,
    v.IsRecord fieldNames [.number (some doc.version), .object (membersOf entries)] ∧
      doc.version < UInt32.size ∧ doc.entries = OrderedMap.ofList entries := by
  unfold ofJson?
  constructor
  · intro h
    obtain ⟨values, hvalues, h⟩ := Option.bind_eq_some_iff.1 h
    split at h
    · next version links =>
      obtain ⟨n, hn, h⟩ := Option.bind_eq_some_iff.1 h
      obtain ⟨entries, hentries, h⟩ := Option.bind_eq_some_iff.1 h
      cases h
      obtain ⟨rfl, hlimit⟩ := Json.natural?_eq_some_iff.1 hn
      rw [Json.textEntries?_eq_some_iff.1 hentries] at hvalues
      exact ⟨entries, Json.record?_eq_some_iff.1 hvalues, hlimit, rfl⟩
    · cases h
  · rintro ⟨entries, hrecord, hlimit, hentries⟩
    have hmembers : (Json.object (membersOf entries)).textEntries? = some entries :=
      Json.textEntries?_eq_some_iff.2 rfl
    rw [Json.record?_eq_some_iff.2 hrecord]
    show (Json.natural? _ _ >>= _) = _
    rw [Json.natural?_eq_some_iff.2 ⟨rfl, hlimit⟩]
    show (Json.textEntries? _ >>= _) = _
    rw [hmembers]
    show some (StoreDocument.mk doc.version (OrderedMap.ofList entries)) = _
    rw [← hentries]

/-- A record of a version and a map of texts is a document. -/
theorem ofJson?_membersOf (entries : List (String × String)) :
    ofJson? (.object [(some "version", .number (some 1)), (some "links", .object (membersOf entries))]) =
      some ⟨1, OrderedMap.ofList entries⟩ := by
  have hrecord : (Json.object ([("version", .number (some 1)), ("links", .object (membersOf entries))].map
      fun f => (some f.1, f.2))).IsRecord fieldNames [.number (some 1), .object (membersOf entries)] :=
    .object (.cons (by simp) (.cons (by simp) .nil))
  exact ofJson?_eq_some_iff.2 ⟨entries, hrecord, (by decide : 1 < UInt32.size), rfl⟩

theorem ofJson?_documentOf (links : Links) :
    ofJson? (documentOf links) = some ⟨1, OrderedMap.ofList (links.entries.map entryOf)⟩ := by
  have hmembers : links.entries.map memberOf = membersOf (links.entries.map entryOf) := by
    rw [membersOf, List.map_map]
    rfl
  rw [documentOf, hmembers, ofJson?_membersOf]

/-- What is written to a store file is what is read from it. -/
theorem readLinks_content (path : Path) (links : Links) : readLinks path (content links) = .ok links := by
  obtain ⟨read, hread, hlinks⟩ := readEntries_ofList links
  rw [readLinks, ofBytes?, read?_content, Option.bind_some, ofJson?_documentOf]
  simp only [currentVersion, ne_eq, not_true_eq_false, if_false, hread, hlinks]

end StoreDocument

end KeyChain
