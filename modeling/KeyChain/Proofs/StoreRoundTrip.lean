import KeyChain.Proofs.Canonical
import KeyChain.Proofs.RootCalls
/-! Writing and reading store files, over and over. `readLinks_content` is one direction: what is written
   is read. Here is the other: a file that is read is written again as it was, but for what the format
   leaves open (blanks, the order of members, the case of digits, entries that a later one replaces).

   1. `entries_ofList_map`: the lines of a file, in the order of identifiers, are in the order of names;
   2. `text?_of_readLinks`: of every slot the text in the file is the text that its record is written as;
   3. `Store.flush_reload`: both directions, on a machine. -/
namespace KeyChain

namespace OrderedMap

variable {κ ν : Type} [Ord κ] [Std.TransOrd κ] [Std.LawfulEqOrd κ]

/-- Of several entries with one key the last counts. -/
theorem get?_ofList_last (l : List (κ × ν)) (k : κ) : (ofList l).get? k = lookup k l.reverse := by
  have hfold : ofList l = l.reverse.foldr (fun e m => m.insert e.1 e.2) empty := by
    rw [List.foldr_reverse]
    rfl
  rw [hfold]
  induction l.reverse with
  | nil => rfl
  | cons e rest ih =>
    rw [List.foldr_cons, get?_insert, ih]
    rfl

end OrderedMap

namespace StoreDocument

/-- The text that counts for an identifier: of the names that spell it, that of the last. -/
def text? (doc : StoreDocument) (id : KeyId) : Option String :=
  (doc.entries.entries.reverse.find? fun entry => KeyId.ofHex? entry.1 = some id).map Prod.snd

/-- The text of a record is the only one that is read as the record. -/
theorem readEntry_ok {entry : String × String} {link : KeyId × Record} (h : readEntry entry = .ok link) :
    KeyId.ofHex? entry.1 = some link.1 ∧ entry.2 = Base64.encode link.2.bytes := by
  unfold readEntry at h
  cases hid : KeyId.ofHex? entry.1 with
  | none => rw [hid] at h; cases h
  | some id =>
    rw [hid] at h
    dsimp only at h
    cases hdecode : Base64.decode entry.2 with
    | error fault => rw [hdecode] at h; cases h
    | ok bytes =>
      rw [hdecode] at h
      dsimp only at h
      cases hrecord : FixedBytes.ofBytes? recordSize bytes with
      | none => rw [Record.ofBytes, hrecord] at h; cases h
      | some record =>
        rw [Record.ofBytes, hrecord] at h
        cases h
        refine ⟨rfl, ?_⟩
        rw [FixedBytes.bytes_of_ofBytes? hrecord, Base64.encode_of_decode hdecode]

theorem map_of_readEntries {entries : List (String × String)} {links : List (KeyId × Record)}
    (h : readEntries entries = .ok links) : entries.map readEntry = links.map Except.ok := by
  induction entries generalizing links with
  | nil =>
    cases h
    rfl
  | cons entry rest ih =>
    rw [readEntries] at h
    cases hlink : readEntry entry with
    | error e => rw [hlink] at h; cases h
    | ok link =>
      rw [hlink] at h
      dsimp only at h
      cases hrest : readEntries rest with
      | error e => rw [hrest] at h; cases h
      | ok more =>
        rw [hrest] at h
        cases h
        rw [List.map_cons, List.map_cons, hlink, ih hrest]

/-- The first entry that spells an identifier has the text of the first link that is filed under it. -/
theorem find?_spelling {entries : List (String × String)} {links : List (KeyId × Record)}
    (h : entries.map readEntry = links.map Except.ok) (id : KeyId) :
    (entries.find? fun entry => KeyId.ofHex? entry.1 = some id).map Prod.snd =
      (OrderedMap.lookup id links).map fun record => Base64.encode record.bytes := by
  induction entries generalizing links with
  | nil =>
    obtain rfl := List.map_eq_nil_iff.1 h.symm
    rfl
  | cons entry rest ih =>
    cases links with
    | nil => cases h
    | cons link links =>
      rw [List.map_cons, List.map_cons, List.cons.injEq] at h
      obtain ⟨hid, htext⟩ := readEntry_ok h.1
      rw [List.find?_cons, OrderedMap.lookup]
      by_cases hsame : link.1 = id
      · subst hsame
        simp [hid, htext, Std.ReflCmp.compare_self]
      · have hne : ¬ compare id link.1 = .eq := fun he => hsame (Std.LawfulEqCmp.eq_of_compare he).symm
        simp [hid, hsame, hne, ih h.2]

/-- An accepted file is a document whose entries are all links; these are filed one after the other. -/
theorem entries_of_readLinks {path : Path} {old : Bytes} {links : Links} (h : readLinks path old = .ok links) :
    ∃ doc read, ofBytes? old = some doc ∧ doc.entries.entries.map readEntry = read.map Except.ok ∧
      links = OrderedMap.ofList read := by
  unfold readLinks at h
  cases hdoc : ofBytes? old with
  | none => rw [hdoc] at h; cases h
  | some doc =>
    rw [hdoc] at h
    dsimp only at h
    split at h
    · cases h
    · cases hread : readEntries doc.entries.entries with
      | error e => rw [hread] at h; cases h
      | ok read =>
        rw [hread] at h
        cases h
        exact ⟨doc, read, rfl, map_of_readEntries hread, rfl⟩

/-- An accepted file is a document in which every record stands with the text it would be written with. -/
theorem text?_of_readLinks {path : Path} {old : Bytes} {links : Links} (h : readLinks path old = .ok links) :
    ∃ doc, ofBytes? old = some doc ∧
      ∀ id, doc.text? id = (links.get? id).map fun record => Base64.encode record.bytes := by
  obtain ⟨doc, read, hdoc, hmap, rfl⟩ := entries_of_readLinks h
  refine ⟨doc, hdoc, fun id => ?_⟩
  have hreverse := congrArg List.reverse hmap
  rw [← List.map_reverse, ← List.map_reverse] at hreverse
  rw [text?, find?_spelling hreverse, OrderedMap.get?_ofList_last]

/-! The file that links are written as. -/

/-- The document that the content of links is read as. -/
def writtenOf (links : Links) : StoreDocument := ⟨currentVersion, OrderedMap.ofList (links.entries.map entryOf)⟩

theorem ofBytes?_content (links : Links) : ofBytes? (content links) = some (writtenOf links) := by
  rw [ofBytes?, read?_content, Option.bind_some, ofJson?_documentOf]
  rfl

theorem get?_writtenOf (links : Links) (id : KeyId) :
    (writtenOf links).entries.get? id.toHex =
      (links.get? id).map fun record => Base64.encode record.bytes := by
  apply Option.ext
  intro text
  rw [writtenOf, OrderedMap.get?_ofList (nodup_names links), List.mem_map, Option.map_eq_some_iff]
  constructor
  · rintro ⟨⟨id', record⟩, hlink, he⟩
    obtain ⟨hname, htext⟩ := Prod.mk.inj he
    obtain rfl : id' = id := KeyId.toHex_inj hname
    exact ⟨record, OrderedMap.mem_entries.1 hlink, htext⟩
  · rintro ⟨record, hslot, rfl⟩
    exact ⟨(id, record), OrderedMap.mem_entries.2 hslot, rfl⟩

/-- Filed under their names, the entries stay in the order of the identifiers. -/
theorem entries_ofList_map (links : Links) :
    (OrderedMap.ofList (links.entries.map entryOf)).entries = links.entries.map entryOf := by
  apply OrderedMap.entries_ofList
  exact List.pairwise_map.2 (links.ascending.imp fun hlt => KeyId.toHex_lt hlt)

end StoreDocument

namespace Store

variable {m : Machine} {root : Path} {dir : Location} {content : Option Bytes} {lock : Option LockId}

theorem run_flush_faultless {s : Store} (h : m.Holds root dir content lock) (hfaultless : m.diskFaults = {})
    (hs : s.path = pathFor root) (hdirty : s.dirty = true) :
    ∃ m', s.flush.run m = ((.ok (), { s with dirty := false }), m') ∧ m'.diskFaults = {} ∧
      m'.Holds root dir (some (StoreDocument.content s.links)) lock := by
  obtain ⟨-, -, hcan⟩ := DiskFaults.lets_all hfaultless
  obtain ⟨result, m', hrun, hsame, h', hcases⟩ := run_flush h hs
  rw [if_pos hcan] at hrun
  rw [written, if_pos ⟨hdirty, hcan⟩] at h'
  rcases hcases with ⟨-, rfl⟩ | ⟨-, hcannot, -⟩
  · exact ⟨m', hrun, hsame.trans hfaultless, h'⟩
  · exact absurd hcan hcannot

theorem run_load_faultless (h : m.Holds root dir content lock) (hfaultless : m.diskFaults = {}) :
    (load (pathFor root)).run m = (spelled (pathFor root) content, m) := by
  rw [run_load h.hosts, h.content, hfaultless]
  rfl

/-- Flushing and loading, on a machine that refuses nothing. Links that are flushed are loaded again, and
    stand in the file in their order, which is the order of their names as well. Links that were loaded
    from a file, whatever it looks like, are flushed to a file that gives the same links and that is not
    changed by another flush; each name in it is the identifier of a link, with the text that the link was
    loaded from. -/
theorem flush_reload (h : m.Holds root dir content lock) (hfaultless : m.diskFaults = {}) :
    (∀ s : Store, s.path = pathFor root → s.dirty = true →
      ∃ m', s.flush.run m = ((.ok (), { s with dirty := false }), m') ∧
        m'.disk.content? (dir.child fileName) = some (StoreDocument.content s.links) ∧
        (load (pathFor root)).run m' = (.ok s.links, m') ∧
        Json.read? (StoreDocument.content s.links) = some (StoreDocument.documentOf s.links) ∧
        s.links.keys.Pairwise (fun a b => compare a b = .lt) ∧
        (OrderedMap.ofList (s.links.entries.map StoreDocument.entryOf)).entries =
          s.links.entries.map StoreDocument.entryOf) ∧
    ∀ old, content = some old → ∀ s : Store, s.path = pathFor root → s.dirty = true →
      (load (pathFor root)).run m = (.ok s.links, m) →
      ∃ m', s.flush.run m = ((.ok (), { s with dirty := false }), m') ∧
        (load (pathFor root)).run m' = (.ok s.links, m') ∧
        (∀ t : Store, t.path = pathFor root → t.dirty = true → t.links = s.links →
          ∃ m'', t.flush.run m' = ((.ok (), { t with dirty := false }), m'') ∧
            m''.disk.content? (dir.child fileName) = m'.disk.content? (dir.child fileName)) ∧
        ∃ doc rewritten, StoreDocument.ofBytes? old = some doc ∧
          (m'.disk.content? (dir.child fileName)).bind StoreDocument.ofBytes? = some rewritten ∧
          rewritten.entries.keys = s.links.keys.map KeyId.toHex ∧
          ∀ id, rewritten.entries.get? id.toHex = doc.text? id := by
  refine ⟨fun s hs hdirty => ?_, fun old hold s hs hdirty hload => ?_⟩
  · obtain ⟨m', hflush, hfaultless', h'⟩ := run_flush_faultless h hfaultless hs hdirty
    have hload := run_load_faultless h' hfaultless'
    rw [spelled_content] at hload
    exact ⟨m', hflush, h'.content, hload, StoreDocument.read?_content s.links,
      List.pairwise_map.2 s.links.ascending, StoreDocument.entries_ofList_map s.links⟩
  · subst hold
    have hread : StoreDocument.readLinks (pathFor root) old = .ok s.links := by
      rw [run_load_faultless h hfaultless] at hload
      exact congrArg Prod.fst hload
    obtain ⟨m', hflush, hfaultless', h'⟩ := run_flush_faultless h hfaultless hs hdirty
    have hreload := run_load_faultless h' hfaultless'
    rw [spelled_content] at hreload
    obtain ⟨doc, hdoc, htext⟩ := StoreDocument.text?_of_readLinks hread
    refine ⟨m', hflush, hreload, fun t ht htdirty hlinks => ?_, doc, StoreDocument.writtenOf s.links, hdoc,
      ?_, ?_, fun id => ?_⟩
    · obtain ⟨m'', hflush', -, h''⟩ := run_flush_faultless h' hfaultless' ht htdirty
      exact ⟨m'', hflush', by rw [h''.content, h'.content, hlinks]⟩
    · rw [h'.content]
      exact StoreDocument.ofBytes?_content s.links
    · rw [OrderedMap.keys, StoreDocument.writtenOf, StoreDocument.entries_ofList_map, OrderedMap.keys,
        List.map_map, List.map_map]
      rfl
    · rw [StoreDocument.get?_writtenOf, htext]

/-- A file with one link. -/
theorem flush_reload_single :
    let root : Path := ⟨"/"⟩
    let links : Links := OrderedMap.empty.insert ⟨1⟩ (.zero recordSize)
    let s : Store := ⟨pathFor root, links, true, .exclusive, none⟩
    let m := (s.flush.run (Machine.new Disk.empty)).2
    m.Holds root Location.root (some (StoreDocument.content links)) none ∧ m.diskFaults = {} ∧
    ∃ m', s.flush.run m = ((.ok (), { s with dirty := false }), m') ∧
      (load (pathFor root)).run m' = (.ok links, m') ∧
      ∃ rewritten, (m'.disk.content? (Location.root.child fileName)).bind StoreDocument.ofBytes? = some rewritten ∧
        rewritten.entries.keys = links.keys.map KeyId.toHex := by
  intro root links s m
  obtain ⟨m₁, hflush, hfaultless, h⟩ := @run_flush_faultless _ root _ _ _ s holds_new rfl rfl rfl
  have hm : m = m₁ := congrArg Prod.snd hflush
  rw [← hm] at hfaultless h
  have hload := run_load_faultless h hfaultless
  rw [spelled_content] at hload
  obtain ⟨m', hflush', hreload, -, -, rewritten, -, hrewritten, hkeys, -⟩ :=
    (flush_reload h hfaultless).2 _ rfl s rfl rfl hload
  exact ⟨h, hfaultless, m', hflush', hreload, rewritten, hrewritten, hkeys⟩

end Store

end KeyChain
