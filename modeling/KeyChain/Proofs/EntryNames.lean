import KeyChain.Proofs.Identifiers
import KeyChain.Proofs.StoreRoundTrip
import Mathlib.Data.List.Nodup
import Mathlib.Data.List.Perm.Subperm
/-! The names in a store file count as the numbers that they spell. A digit may stand in either case, so two
   names can be one identifier: of their records the one that comes last is loaded, and the other is lost.

   1. `OrderedMap.size_ofList_eq_iff`: filing entries loses none exactly if no two of them have one key;
   2. `entry_loaded`: what is filed for a name is the record of a name that is like it but for case;
   3. `Store.load_names`: so loading and flushing keep the entries of a file exactly if names that are alike
      in this way have the same record. -/
namespace KeyChain

namespace OrderedMap

variable {κ ν : Type} [Ord κ] [Std.TransOrd κ] [Std.LawfulEqOrd κ]

theorem mem_keys {m : OrderedMap κ ν} {k : κ} : k ∈ m.keys ↔ ∃ v, m.get? k = some v := by
  rw [keys, List.mem_map]
  constructor
  · rintro ⟨⟨k', v⟩, he, rfl⟩
    exact ⟨v, mem_entries.1 he⟩
  · rintro ⟨v, hv⟩
    exact ⟨(k, v), mem_entries.2 hv, rfl⟩

theorem mem_of_get?_ofList {l : List (κ × ν)} {k : κ} {v : ν} (h : (ofList l).get? k = some v) : (k, v) ∈ l := by
  rw [get?_ofList_last] at h
  exact List.mem_reverse.1 (mem_of_lookup h)

omit [Std.TransOrd κ] in
theorem exists_lookup_of_mem {l : List (κ × ν)} {e : κ × ν} (h : e ∈ l) : ∃ v, lookup e.1 l = some v := by
  induction l with
  | nil => cases h
  | cons head rest ih =>
    rw [lookup]
    by_cases hk : compare e.1 head.1 = .eq
    · exact ⟨head.2, if_pos hk⟩
    · rw [if_neg hk]
      refine ih ((List.mem_cons.1 h).resolve_left fun he => hk ?_)
      exact he ▸ Std.ReflCmp.compare_self

theorem mem_keys_ofList {l : List (κ × ν)} {k : κ} : k ∈ (ofList l).keys ↔ k ∈ l.map Prod.fst := by
  rw [mem_keys, List.mem_map]
  constructor
  · rintro ⟨v, hv⟩
    exact ⟨(k, v), mem_of_get?_ofList hv, rfl⟩
  · rintro ⟨e, he, rfl⟩
    rw [get?_ofList_last]
    exact exists_lookup_of_mem (List.mem_reverse.2 he)

/-- Filing entries loses none exactly if no two of them have one key. -/
theorem size_ofList_eq_iff {l : List (κ × ν)} : (ofList l).size = l.length ↔ (l.map Prod.fst).Nodup := by
  have hkeys : (ofList l).keys.length = (ofList l).size := List.length_map ..
  have hlength : (l.map Prod.fst).length = l.length := List.length_map ..
  constructor
  · intro h
    have hsub : (ofList l).keys.Subperm (l.map Prod.fst) :=
      (nodup_keys _).subperm fun _ => mem_keys_ofList.1
    have hperm := hsub.perm_of_length_le (Nat.le_of_eq (hlength.trans (h.symm.trans hkeys.symm)))
    exact hperm.nodup_iff.1 (nodup_keys _)
  · intro h
    have hperm := (List.perm_ext_iff_of_nodup (nodup_keys (ofList l)) h).2 fun _ => mem_keys_ofList
    rw [← hkeys, hperm.length_eq, hlength]

end OrderedMap

namespace StoreDocument

variable {entries : List (String × String)} {read : List (KeyId × Record)}

/-- Read one by one, entries keep their names, but for case. -/
theorem names_of_read (h : entries.map readEntry = read.map Except.ok) :
    entries.map (fun entry => entry.1.toLower) = read.map fun link => link.1.toHex := by
  induction entries generalizing read with
  | nil =>
    obtain rfl := List.map_eq_nil_iff.1 h.symm
    rfl
  | cons entry rest ih =>
    cases read with
    | nil => cases h
    | cons link links =>
      rw [List.map_cons, List.map_cons, List.cons.injEq] at h
      rw [List.map_cons, List.map_cons, ih h.2, KeyId.toHex_of_ofHex? (readEntry_ok h.1).1]

variable {path : Path} {old : Bytes} {links : Links} {doc : StoreDocument}

/-- The identifiers that are loaded are the names in lower case, and as many as there are names if no two of
    these are alike. -/
theorem names_loaded (h : readLinks path old = .ok links) (hdoc : ofBytes? old = some doc) :
    (∀ name, name ∈ links.keys.map KeyId.toHex ↔ name ∈ doc.entries.keys.map String.toLower) ∧
      (links.size = doc.entries.size ↔ (doc.entries.keys.map String.toLower).Nodup) := by
  obtain ⟨doc', read, hdoc', hread, rfl⟩ := entries_of_readLinks h
  obtain rfl := Option.some.inj (hdoc.symm.trans hdoc')
  have hnames : doc.entries.keys.map String.toLower = (read.map Prod.fst).map KeyId.toHex := by
    rw [OrderedMap.keys, List.map_map, List.map_map]
    exact names_of_read hread
  have hlength : doc.entries.size = read.length := by
    have hlengths := congrArg List.length hread
    rwa [List.length_map, List.length_map] at hlengths
  constructor
  · intro name
    rw [hnames, List.mem_map, List.mem_map]
    simp only [OrderedMap.mem_keys_ofList]
  · rw [hlength, OrderedMap.size_ofList_eq_iff, hnames, List.nodup_map_iff fun _ _ => KeyId.toHex_inj]

/-- What is filed for a name is the record of a name that is like it but for case. -/
theorem entry_loaded (h : readLinks path old = .ok links) (hdoc : ofBytes? old = some doc) {name text : String}
    (hentry : doc.entries.get? name = some text) :
    ∃ id record name', id.toHex = name.toLower ∧ links.get? id = some record ∧
      doc.entries.get? name' = some (Base64.encode record.bytes) ∧ name.toLower = name'.toLower := by
  obtain ⟨doc', read, hdoc', hread, rfl⟩ := entries_of_readLinks h
  obtain rfl := Option.some.inj (hdoc.symm.trans hdoc')
  have hmem : readEntry (name, text) ∈ read.map Except.ok :=
    hread ▸ List.mem_map_of_mem (OrderedMap.mem_entries.2 hentry)
  obtain ⟨⟨id, first⟩, hlink, hok⟩ := List.mem_map.1 hmem
  have hid := KeyId.toHex_of_ofHex? (readEntry_ok hok.symm).1
  -- The slot is filled, if not with the record of this name then with that of another.
  obtain ⟨record, hslot⟩ := OrderedMap.mem_keys.1 (OrderedMap.mem_keys_ofList.2 (List.mem_map_of_mem hlink))
  have hrecord : Except.ok (id, record) ∈ doc.entries.entries.map readEntry :=
    hread ▸ List.mem_map_of_mem (OrderedMap.mem_of_get?_ofList hslot)
  obtain ⟨⟨name', text'⟩, hentry', hok'⟩ := List.mem_map.1 hrecord
  obtain ⟨hid', rfl⟩ := readEntry_ok hok'
  exact ⟨id, record, name', hid, hslot, OrderedMap.mem_entries.1 hentry',
    hid.symm.trans (KeyId.toHex_of_ofHex? hid')⟩

/-- What is written is the text of a record. -/
theorem record_of_writtenOf {name text : String} (h : (writtenOf links).entries.get? name = some text) :
    ∃ id record, links.get? id = some record ∧ text = Base64.encode record.bytes := by
  have hmem := OrderedMap.mem_entries.2 h
  rw [writtenOf, entries_ofList_map, List.mem_map] at hmem
  obtain ⟨⟨id, record⟩, hlink, hentry⟩ := hmem
  exact ⟨id, record, OrderedMap.mem_entries.1 hlink, (Prod.mk.inj hentry).2.symm⟩

/-- Whether a document has all records of another, each under its name in lower case. -/
def Keeps (rewritten doc : StoreDocument) : Prop :=
  ∀ name text, doc.entries.get? name = some text → rewritten.entries.get? name.toLower = some text

/-- Whether names that are alike but for case have the same record. -/
def Unambiguous (doc : StoreDocument) : Prop :=
  ∀ name name' text text', doc.entries.get? name = some text → doc.entries.get? name' = some text' →
    name.toLower = name'.toLower → text = text'

/-- As long as the links that were loaded are kept, they are written with all records of the file exactly if
    its names are not ambiguous. -/
theorem keeps_iff (h : readLinks path old = .ok links) (hdoc : ofBytes? old = some doc) {links' : Links}
    (hkept : ∀ id record, links.get? id = some record → links'.get? id = some record) :
    (writtenOf links').Keeps doc ↔ doc.Unambiguous := by
  constructor
  · intro hwritten name name' text text' hentry hentry' halike
    have htext := hwritten name text hentry
    rw [halike, hwritten name' text' hentry'] at htext
    exact (Option.some.inj htext).symm
  · intro hsame name text hentry
    obtain ⟨id, record, name', hid, hslot, hentry', halike⟩ := entry_loaded h hdoc hentry
    rw [← hid, get?_writtenOf, hkept id record hslot, hsame name name' _ _ hentry hentry' halike]
    rfl

/-! A file with two spellings of one identifier. -/

/-- Names that are alike but for case. -/
def capitals : String := "00000000000000AB"
def smalls : String := "00000000000000ab"

/-- A file with a record under each of the two names. -/
def twice (first second : Record) : Bytes :=
  Bytes.utf8 (framed ("\x7b" ++ Json.quote capitals ++ ":" ++ Json.quote (Base64.encode first.bytes) ++ "," ++
    Json.quote smalls ++ ":" ++ Json.quote (Base64.encode second.bytes) ++ "\x7d"))

def twiceOf (first second : Record) : StoreDocument :=
  ⟨1, OrderedMap.ofList [(capitals, Base64.encode first.bytes), (smalls, Base64.encode second.bytes)]⟩

theorem ofBytes?_twice (first second : Record) : ofBytes? (twice first second) = some (twiceOf first second) := by
  have hspells := (Json.Spells.quote (Base64.encode first.bytes)).pair
    (Json.Spells.quote (Base64.encode second.bytes)) capitals smalls
  rw [ofBytes?, twice, read?_framed fun fuel hfuel => hspells.value fuel _ hfuel, Option.bind_some]
  exact ofJson?_membersOf [(capitals, Base64.encode first.bytes), (smalls, Base64.encode second.bytes)]

theorem entries_twiceOf (first second : Record) : (twiceOf first second).entries.entries =
    [(capitals, Base64.encode first.bytes), (smalls, Base64.encode second.bytes)] := by
  have hlt : compare capitals smalls = .lt := by decide
  exact OrderedMap.entries_ofList (by simpa using hlt)

/-- The second record takes the place of the first. -/
theorem readLinks_twice (path : Path) (first second : Record) :
    readLinks path (twice first second) = .ok (OrderedMap.empty.insert ⟨0xAB⟩ second) := by
  have hread : readEntries (twiceOf first second).entries.entries = .ok [(⟨0xAB⟩, first), (⟨0xAB⟩, second)] := by
    rw [entries_twiceOf, readEntries, readEntry_of_spelled (show KeyId.ofHex? capitals = some ⟨0xAB⟩ by decide),
      readEntries, readEntry_of_spelled (show KeyId.ofHex? smalls = some ⟨0xAB⟩ by decide)]
    rfl
  have hlinks : OrderedMap.ofList [((⟨0xAB⟩ : KeyId), first), (⟨0xAB⟩, second)] =
      OrderedMap.empty.insert ⟨0xAB⟩ second := OrderedMap.ext rfl
  rw [readLinks, ofBytes?_twice]
  simp only [hread, hlinks]
  rfl

end StoreDocument

namespace Store

open StoreDocument

variable {m : Machine} {root : Path} {dir : Location} {old : Bytes} {lock : Option LockId} {links : Links}

/-- A machine with nothing but a store file. -/
theorem holds_file (content : Bytes) :
    (Machine.new (Disk.empty.put (Location.root.child fileName) (.file 0 content))).Holds ⟨"/"⟩ Location.root
      (some content) none := by
  have hfilled := Disk.filled_put Disk.empty (Disk.child_ne_root Location.root fileName) 0 content
  refine ⟨holds_new.hosts.filled fileName_mem hfilled, ?_, fun l hl => by cases hl⟩
  exact (hfilled.content? _).trans (if_pos rfl)

/-- What loading and flushing keep of a file that is accepted. The identifiers that are loaded are the names
    in lower case, so there are as many exactly if no two names are alike but for case. However other slots
    are filled in the meantime, a later flush keeps every record that the file held exactly if names that are
    alike have the same record. -/
theorem load_names (h : m.Holds root dir (some old) lock) (hfaultless : m.diskFaults = {})
    (hload : (load (pathFor root)).run m = (.ok links, m)) :
    ∃ doc, StoreDocument.ofBytes? old = some doc ∧
      (∀ name, name ∈ links.keys.map KeyId.toHex ↔ name ∈ doc.entries.keys.map String.toLower) ∧
      (links.size = doc.entries.size ↔ (doc.entries.keys.map String.toLower).Nodup) ∧
      ∀ (later : Machine) (content : Option Bytes) (lock' : Option LockId) (s : Store),
        later.Holds root dir content lock' → later.diskFaults = {} → s.path = pathFor root → s.dirty = true →
        (∀ id record, links.get? id = some record → s.links.get? id = some record) →
        ∃ flushed rewritten, s.flush.run later = ((.ok (), { s with dirty := false }), flushed) ∧
          (flushed.disk.content? (dir.child fileName)).bind StoreDocument.ofBytes? = some rewritten ∧
          (rewritten.Keeps doc ↔ doc.Unambiguous) := by
  rw [run_load_faultless h hfaultless] at hload
  have hread : readLinks (pathFor root) old = .ok links := congrArg Prod.fst hload
  obtain ⟨doc, -, hdoc, -⟩ := entries_of_readLinks hread
  obtain ⟨hnames, hsize⟩ := names_loaded hread hdoc
  refine ⟨doc, hdoc, hnames, hsize, fun later content lock' s h' hfaultless' hs hdirty hkept => ?_⟩
  obtain ⟨flushed, hflush, -, hflushed⟩ := run_flush_faultless h' hfaultless' hs hdirty
  refine ⟨flushed, writtenOf s.links, hflush, ?_, keeps_iff hread hdoc hkept⟩
  rw [hflushed.content, Option.bind_some, ofBytes?_content]

/-- A file with one record under two names that are alike. Nothing of it is lost. -/
theorem load_names_twice :
    let record : Record := .zero recordSize
    let m := Machine.new (Disk.empty.put (Location.root.child fileName) (.file 0 (twice record record)))
    let links : Links := OrderedMap.empty.insert ⟨0xAB⟩ record
    let s : Store := ⟨pathFor ⟨"/"⟩, links, true, .exclusive, none⟩
    m.Holds ⟨"/"⟩ Location.root (some (twice record record)) none ∧ m.diskFaults = {} ∧
      (load (pathFor ⟨"/"⟩)).run m = (.ok links, m) ∧
      ∃ flushed rewritten, s.flush.run m = ((.ok (), { s with dirty := false }), flushed) ∧
        (flushed.disk.content? (Location.root.child fileName)).bind StoreDocument.ofBytes? = some rewritten ∧
        rewritten.Keeps (twiceOf record record) := by
  intro record m links s
  have h : m.Holds ⟨"/"⟩ Location.root (some (twice record record)) none := holds_file _
  have hload : (load (pathFor ⟨"/"⟩)).run m = (.ok links, m) := by
    rw [run_load_faultless h rfl, spelled, readLinks_twice]
  obtain ⟨doc, hdoc, -, -, hflush⟩ := load_names h rfl hload
  obtain rfl := Option.some.inj ((ofBytes?_twice record record).symm.trans hdoc)
  obtain ⟨flushed, rewritten, hrun, hrewritten, hkeeps⟩ := hflush m _ _ s h rfl rfl rfl fun _ _ hslot => hslot
  have hone : ∀ name text, (twiceOf record record).entries.get? name = some text →
      text = Base64.encode record.bytes := by
    intro name text hentry
    have hmem := OrderedMap.mem_entries.2 hentry
    rw [entries_twiceOf] at hmem
    simp only [List.mem_cons, Prod.mk.injEq, List.not_mem_nil, or_false] at hmem
    rcases hmem with ⟨-, htext⟩ | ⟨-, htext⟩ <;> exact htext
  refine ⟨h, rfl, hload, flushed, rewritten, hrun, hrewritten, hkeeps.2 fun _ _ _ _ hentry hentry' _ => ?_⟩
  rw [hone _ _ hentry, hone _ _ hentry']

/-- A file with two records under two names that are alike. It is accepted, but only one of the records is
    loaded; once a link is added and the store flushed, the other is nowhere in the file. -/
theorem load_drops_record :
    let first : Record := .zero recordSize
    let second : Record := ⟨List.replicate recordSize 1, List.length_replicate⟩
    let m := Machine.new (Disk.empty.put (Location.root.child fileName) (.file 0 (twice first second)))
    let links : Links := OrderedMap.empty.insert ⟨0xAB⟩ second
    let opened : Store := ⟨pathFor ⟨"/"⟩, links, false, .exclusive, none⟩
    let s : Store := ⟨pathFor ⟨"/"⟩, links.insert ⟨1⟩ second, true, .exclusive, none⟩
    StoreDocument.ofBytes? (twice first second) = some (twiceOf first second) ∧
      (twiceOf first second).entries.size = 2 ∧
      (twiceOf first second).entries.get? capitals = some (Base64.encode first.bytes) ∧
      (load (pathFor ⟨"/"⟩)).run m = (.ok links, m) ∧ links.size = 1 ∧
      opened.insert ⟨1⟩ second = .ok (true, s) ∧
      ∃ flushed rewritten, s.flush.run m = ((.ok (), { s with dirty := false }), flushed) ∧
        (flushed.disk.content? (Location.root.child fileName)).bind StoreDocument.ofBytes? = some rewritten ∧
        ∀ name, rewritten.entries.get? name ≠ some (Base64.encode first.bytes) := by
  intro first second
  have hne : first.bytes ≠ second.bytes := by decide
  -- What follows holds of any two records that differ.
  clear_value first second
  intro m links opened s
  have h : m.Holds ⟨"/"⟩ Location.root (some (twice first second)) none := holds_file _
  have hload : (load (pathFor ⟨"/"⟩)).run m = (.ok links, m) := by
    rw [run_load_faultless h rfl, spelled, readLinks_twice]
  have hsize : (twiceOf first second).entries.size = 2 := by rw [OrderedMap.size, entries_twiceOf]; rfl
  have hfirst : (twiceOf first second).entries.get? capitals = some (Base64.encode first.bytes) := by
    rw [← OrderedMap.mem_entries, entries_twiceOf]
    exact List.mem_cons_self
  obtain ⟨flushed, hrun, -, hflushed⟩ := run_flush_faultless h rfl (show s.path = pathFor ⟨"/"⟩ from rfl) rfl
  refine ⟨ofBytes?_twice first second, hsize, hfirst, hload, rfl, rfl, flushed, writtenOf s.links, hrun, ?_, ?_⟩
  · rw [hflushed.content, Option.bind_some, ofBytes?_content]
  · intro name hname
    obtain ⟨id, record, hslot, htext⟩ := record_of_writtenOf hname
    have hrecord : record = second := by
      rw [OrderedMap.get?_insert, OrderedMap.get?_insert] at hslot
      split at hslot
      · exact (Option.some.inj hslot).symm
      split at hslot
      · exact (Option.some.inj hslot).symm
      · cases hslot
    have hbytes := Base64.decode_encode first.bytes
    rw [htext, Base64.decode_encode, hrecord] at hbytes
    exact hne (Except.ok.inj hbytes).symm

end Store

end KeyChain
