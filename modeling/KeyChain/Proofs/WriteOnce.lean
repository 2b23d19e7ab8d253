import KeyChain.Proofs.DeleteCalls
import KeyChain.Proofs.Sessions
/-! Slots are written once.

   1. `after_slot`: after one operation a slot is as it was, or was empty, or is one of those that the
      operation is to empty and is empty now;
   2. `afterAll_slot`: along a run, what a slot holds changes only where an operation empties it;
   3. `Filing.Reached.keyed`: a map that could file any link under any identifier, and that is loaded, filled
      and emptied as a store is, files each under its own parent and with the bytes of a record. The links
      of a store are such a map (`reached_afterAll`), so they lose nothing by not saying their parent. -/
namespace KeyChain

namespace Store

variable {s s' : Store}

/-- After an operation a slot is as it was, or was empty, or is one that the operation is to empty and is
    empty now. -/
theorem after_slot (s : Store) (d : Deed) (id : KeyId) :
    (s.after d).links.get? id = s.links.get? id ∨ s.links.get? id = none ∨
      id ∈ d.empties ∧ (s.after d).links.get? id = none := by
  refine after_induction (P := fun t => t.links.get? id = s.links.get? id ∨ s.links.get? id = none ∨
    id ∈ d.empties ∧ t.links.get? id = none) d (.inl rfl) ?_ ?_
  · intro hempties t t' id' record ht h
    rw [get?_insert_ok h]
    by_cases hid : id = id'
    · -- The slot that is filled was empty on the way, and what only fills has emptied none.
      rw [hempties] at ht ⊢
      rcases ht with hsame | hnone | ⟨hmem, -⟩
      · exact .inr (.inl (by rw [← hsame, hid, (insert_ok h).2.1]))
      · exact .inr (.inl hnone)
      · cases hmem
    · rw [if_neg hid]
      exact ht
  · intro id' hid' t t' found ht h
    rw [get?_remove h]
    by_cases hid : id = id'
    · rw [if_pos hid]
      exact .inr (.inr ⟨hid ▸ hid', rfl⟩)
    · rw [if_neg hid]
      exact ht

/-! Runs. -/

/-- What is done with an open store: an operation, or a flush, on whatever machine that is made. -/
inductive Work where
  | deed (d : Deed)
  | flush (m : Machine)

def afterWork (s : Store) : Work → Store
  | .deed d => s.after d
  | .flush m => (s.flush.run m).1.2

/-- The store after one thing was done after the other. -/
def afterAll (s : Store) (works : List Work) : Store := works.foldl afterWork s

/-- A flush leaves a store as it is, but for the mark that there are changes. -/
theorem flush_links (s : Store) (m : Machine) : (s.flush.run m).1.2.links = s.links := by
  unfold flush
  split
  · rw [Program.run_bind]
    cases s.save.run m with
    | mk result m' => cases result <;> rfl
  · rfl

/-- Along a run, what a slot holds changes only where an operation empties it. -/
theorem afterAll_slot {works : List Work} {id : KeyId} {record : Record} (hslot : s.links.get? id = some record)
    (hchanged : (s.afterAll works).links.get? id ≠ some record) :
    ∃ past d onward, works = past ++ .deed d :: onward ∧ id ∈ d.empties ∧
      (s.afterAll past).links.get? id = some record ∧
      (s.afterAll (past ++ [.deed d])).links.get? id = none := by
  -- The first thing that changes the slot is the one that is looked for: until then it holds the record.
  induction works generalizing s with
  | nil => exact absurd hslot hchanged
  | cons work rest ih =>
    by_cases hnext : (s.afterWork work).links.get? id = some record
    · obtain ⟨past, d, onward, rfl, hd, hbefore, hafter⟩ := ih hnext hchanged
      exact ⟨work :: past, d, onward, rfl, hd, hbefore, hafter⟩
    · cases work with
      | flush m =>
        rw [afterWork, flush_links] at hnext
        exact absurd hslot hnext
      | deed d =>
        rcases s.after_slot d id with hsame | hnone | ⟨hd, hempty⟩
        · exact absurd (hsame.trans hslot) hnext
        · cases hslot.symm.trans hnone
        · exact ⟨[], d, rest, rfl, hd, hslot, hempty⟩

end Store

/-! Links that say their parent. -/

/-- A link with the identifier of the key that opens it. -/
structure ChainLink where
  parent : KeyId
  record : Bytes
  deriving DecidableEq

namespace ChainLink

/-- The link of bytes that are as many as a record has. -/
def ofBytes (parent : KeyId) (b : Bytes) : Except KeychainError ChainLink :=
  if b.length = recordSize then .ok ⟨parent, b⟩ else .error (.corrupted (.recordLength parent b.length))

def ofRecord (parent : KeyId) (record : Record) : ChainLink := ⟨parent, record.bytes⟩

theorem ofBytes_eq (parent : KeyId) (b : Bytes) :
    ofBytes parent b = (Record.ofBytes parent b).map (ofRecord parent) := by
  unfold ofBytes Record.ofBytes FixedBytes.ofBytes?
  by_cases h : b.length = recordSize
  · rw [if_pos h, dif_pos h]
    rfl
  · rw [if_neg h, dif_neg h]
    rfl

end ChainLink

/-- Links by identifier. Nothing in the type says that a link is filed under its own parent, or that it has
    the bytes of a record. -/
abbrev Filing := OrderedMap KeyId ChainLink

namespace Filing

/-- Files a link under its parent, unless there is one. -/
def add (f : Filing) (link : ChainLink) : Bool × Filing :=
  match f.get? link.parent with
  | some _ => (false, f)
  | none => (true, OrderedMap.insert f link.parent link)

/-- Takes out what is filed under an identifier. -/
def take (f : Filing) (id : KeyId) : Option ChainLink × Filing := (f.get? id, f.erase id)

/-- The link that one entry of a store file spells, and what it is filed under. -/
def readEntry (entry : String × String) : Except KeychainError (KeyId × ChainLink) :=
  match KeyId.ofHex? entry.1 with
  | none => .error (.corrupted (.badIdentifier entry.1))
  | some id =>
    match Base64.decode entry.2 with
    | .error fault => .error (.corrupted (.badBase64 id fault))
    | .ok bytes => (ChainLink.ofBytes id bytes).map fun link => (id, link)

/-- The links in the content of a store file. -/
def readLinks (path : Path) (content : Bytes) : Except KeychainError Filing :=
  match StoreDocument.ofBytes? content with
  | none => .error (.corrupted (.malformed path StoreDocument.complaint))
  | some doc =>
    if doc.version ≠ StoreDocument.currentVersion then
      .error (.corrupted (.unsupportedVersion path doc.version))
    else (doc.entries.entries.mapM readEntry).map OrderedMap.ofList

/-- The links of a store file; a file that is not there holds none. -/
def spelled (path : Path) : Option Bytes → Except KeychainError Filing
  | none => .ok OrderedMap.empty
  | some content => readLinks path content

/-- The filings that there are: what a store file spells, and what filing and taking out make of one. -/
inductive Reached : Filing → Prop where
  | spelled {path : Path} {content : Option Bytes} {f : Filing} (h : spelled path content = .ok f) : Reached f
  | added {f : Filing} {parent : KeyId} {b : Bytes} {link : ChainLink} (hf : Reached f)
      (h : ChainLink.ofBytes parent b = .ok link) : Reached (f.add link).2
  | taken {f : Filing} (hf : Reached f) (id : KeyId) : Reached (f.take id).2

/-- The records of a store, each as a link of the identifier that it stands under. -/
def ofLinks (links : Links) : Filing :=
  ⟨links.entries.map fun link => (link.1, ChainLink.ofRecord link.1 link.2), List.pairwise_map.2 links.ascending⟩

theorem lookup_ofRecord (id : KeyId) (list : List (KeyId × Record)) :
    OrderedMap.lookup id (list.map fun link => (link.1, ChainLink.ofRecord link.1 link.2)) =
      (OrderedMap.lookup id list).map (ChainLink.ofRecord id) := by
  induction list with
  | nil => rfl
  | cons link rest ih =>
    rw [List.map_cons, OrderedMap.lookup, OrderedMap.lookup, ih]
    split
    · next hid =>
      rw [Std.LawfulEqCmp.eq_of_compare hid]
      rfl
    · rfl

theorem get?_ofLinks (links : Links) (id : KeyId) :
    (ofLinks links).get? id = (links.get? id).map (ChainLink.ofRecord id) :=
  lookup_ofRecord id links.entries

theorem readEntry_eq (entry : String × String) :
    readEntry entry =
      (StoreDocument.readEntry entry).map fun link => (link.1, ChainLink.ofRecord link.1 link.2) := by
  unfold readEntry StoreDocument.readEntry
  cases KeyId.ofHex? entry.1 with
  | none => rfl
  | some id =>
    cases Base64.decode entry.2 with
    | error fault => rfl
    | ok bytes =>
      dsimp only
      rw [ChainLink.ofBytes_eq]
      cases Record.ofBytes id bytes <;> rfl

theorem mapM_readEntry (entries : List (String × String)) :
    entries.mapM readEntry =
      (StoreDocument.readEntries entries).map
        (List.map fun link => (link.1, ChainLink.ofRecord link.1 link.2)) := by
  induction entries with
  | nil => rfl
  | cons entry rest ih =>
    rw [List.mapM_cons, readEntry_eq, ih, StoreDocument.readEntries]
    cases StoreDocument.readEntry entry with
    | error e => rfl
    | ok link => cases StoreDocument.readEntries rest <;> rfl

/-- A file spells the same links either way, or is refused with the same error. -/
theorem spelled_eq (path : Path) (content : Option Bytes) :
    spelled path content = (Store.spelled path content).map ofLinks := by
  cases content with
  | none => rfl
  | some content =>
    unfold spelled Store.spelled readLinks StoreDocument.readLinks
    dsimp only
    cases StoreDocument.ofBytes? content with
    | none => rfl
    | some doc =>
      dsimp only
      split
      · rfl
      · rw [mapM_readEntry]
        cases StoreDocument.readEntries doc.entries.entries with
        | error e => rfl
        | ok list =>
          -- Of two entries that spell one identifier the later counts, in either map.
          refine congrArg Except.ok (OrderedMap.ext_get? fun id => ?_)
          rw [OrderedMap.get?_ofList_last, ← List.map_reverse, lookup_ofRecord, get?_ofLinks,
            OrderedMap.get?_ofList_last]

/-- Filing the link of a record is filling a slot. -/
theorem add_ofLinks (links : Links) (id : KeyId) (record : Record) :
    ((ofLinks links).add (ChainLink.ofRecord id record)).2 =
      ofLinks (if links.get? id = none then links.insert id record else links) := by
  unfold Filing.add
  rw [show (ChainLink.ofRecord id record).parent = id from rfl, get?_ofLinks]
  cases links.get? id with
  | some old => rfl
  | none =>
    refine OrderedMap.ext_get? fun id' => ?_
    dsimp only [Option.map_none]
    rw [if_pos rfl, get?_ofLinks, OrderedMap.get?_insert, OrderedMap.get?_insert, get?_ofLinks]
    split
    · next hid =>
      rw [Std.LawfulEqCmp.eq_of_compare hid]
      rfl
    · rfl

/-- Taking out a link is emptying a slot. -/
theorem take_ofLinks (links : Links) (id : KeyId) :
    ((ofLinks links).take id).2 = ofLinks (links.erase id) := by
  refine OrderedMap.ext_get? fun id' => ?_
  unfold Filing.take
  rw [OrderedMap.get?_erase, get?_ofLinks, get?_ofLinks, OrderedMap.get?_erase]
  split <;> rfl

/-- Every filing that there is files records under the identifiers that they are for. -/
theorem Reached.exists_links {f : Filing} (h : Reached f) : ∃ links, f = ofLinks links := by
  induction h with
  | @spelled path content f h =>
    rw [spelled_eq] at h
    cases hlinks : Store.spelled path content with
    | error e => rw [hlinks] at h; cases h
    | ok links =>
      rw [hlinks] at h
      exact ⟨links, (Except.ok.inj h).symm⟩
  | @added f parent b link _ h ih =>
    obtain ⟨links, rfl⟩ := ih
    rw [ChainLink.ofBytes_eq] at h
    cases hrecord : Record.ofBytes parent b with
    | error e => rw [hrecord] at h; cases h
    | ok record =>
      rw [hrecord] at h
      cases h
      exact ⟨_, add_ofLinks links parent record⟩
  | @taken f _ id ih =>
    obtain ⟨links, rfl⟩ := ih
    exact ⟨_, take_ofLinks links id⟩

/-- Each link in it is filed under its own parent, with the bytes of a record. -/
theorem Reached.keyed {f : Filing} (h : Reached f) {id : KeyId} {link : ChainLink} (hlink : f.get? id = some link) :
    link.parent = id ∧ link.record.length = recordSize := by
  obtain ⟨links, rfl⟩ := h.exists_links
  rw [get?_ofLinks] at hlink
  obtain ⟨record, -, rfl⟩ := Option.map_eq_some_iff.1 hlink
  exact ⟨rfl, record.length_eq⟩

/-- What filling does to the links of a store, filing does to links that say their parent. -/
theorem Reached.insert {links : Links} (h : Reached (ofLinks links)) {id : KeyId} (hslot : links.get? id = none)
    (record : Record) : Reached (ofLinks (links.insert id record)) := by
  have hlink : ChainLink.ofBytes id record.bytes = .ok (ChainLink.ofRecord id record) := by
    rw [ChainLink.ofBytes_eq, Record.ofBytes, FixedBytes.ofBytes?_bytes]
    rfl
  have hadded := h.added hlink
  rw [add_ofLinks, if_pos hslot] at hadded
  exact hadded

theorem Reached.erase {links : Links} (h : Reached (ofLinks links)) (id : KeyId) :
    Reached (ofLinks (links.erase id)) := by
  have htaken := h.taken id
  rw [take_ofLinks] at htaken
  exact htaken

end Filing

namespace Store

variable {s s' : Store}

theorem reached_after (h : Filing.Reached (.ofLinks s.links)) (d : Deed) :
    Filing.Reached (.ofLinks (s.after d).links) := by
  refine after_induction (P := fun t => Filing.Reached (.ofLinks t.links)) d h
    (fun _ t t' id record ht h => ?_) (fun id _ t t' found ht h => ?_)
  · obtain ⟨-, hslot, rfl⟩ := insert_ok h
    exact ht.insert hslot record
  · obtain ⟨-, -, rfl⟩ := remove_ok h
    split
    · exact ht
    · exact ht.erase id

theorem reached_afterAll (h : Filing.Reached (.ofLinks s.links)) (works : List Work) :
    Filing.Reached (.ofLinks (s.afterAll works).links) := by
  induction works generalizing s with
  | nil => exact h
  | cons work rest ih =>
    refine ih ?_
    cases work with
    | deed d => exact reached_after h d
    | flush m =>
      rw [afterWork, flush_links]
      exact h

/-- On whatever machine a store is opened, its links are those of some content of a store file. -/
theorem openAt_spelled {root : Path} {mode : LockMode} {m m' : Machine}
    (h : (openAt root mode).run m = (.ok s, m')) :
    ∃ content, spelled (pathFor root) content = .ok s.links := by
  unfold openAt at h
  rw [Program.run_bind] at h
  cases hacquire : ((acquire (lockPathFor root) mode).run m).1 with
  | error e => rw [hacquire] at h; cases h
  | ok lock =>
    rw [hacquire] at h
    dsimp only at h
    rw [Program.run_bind] at h
    generalize ((acquire (lockPathFor root) mode).run m).2 = m₁ at h
    cases hload : ((load (pathFor root)).run m₁).1 with
    | error e =>
      rw [hload] at h
      dsimp only at h
      rw [Program.run_bind] at h
      cases h
    | ok links =>
      rw [hload] at h
      obtain rfl : s = _ := (Except.ok.inj (Prod.mk.inj h).1).symm
      unfold load at hload
      rw [Program.run_bind] at hload
      cases hread : ((Program.read (pathFor root)).run m₁).1 with
      | ok content =>
        rw [hread] at hload
        exact ⟨some content, hload⟩
      | error cause =>
        rw [hread] at hload
        cases cause with
        | noSuchFile => exact ⟨none, hload⟩
        | _ => cases hload

theorem reached_openAt {root : Path} {mode : LockMode} {m m' : Machine}
    (h : (openAt root mode).run m = (.ok s, m')) : Filing.Reached (.ofLinks s.links) := by
  obtain ⟨content, hlinks⟩ := openAt_spelled h
  refine @Filing.Reached.spelled (pathFor root) content _ ?_
  rw [Filing.spelled_eq, hlinks]
  rfl

/-- Slots are written once, and links say their parent. -/
theorem slots_write_once :
    (∀ (s : Store) (d : Deed) (id : KeyId),
      (s.after d).links.get? id = s.links.get? id ∨ s.links.get? id = none ∨
        id ∈ d.empties ∧ (s.after d).links.get? id = none) ∧
    (∀ (s : Store) (m : Machine), (s.flush.run m).1.2.links = s.links) ∧
    (∀ (s : Store) (works : List Work) (id : KeyId) (record : Record), s.links.get? id = some record →
      (s.afterAll works).links.get? id ≠ some record →
      ∃ past d onward, works = past ++ .deed d :: onward ∧ id ∈ d.empties ∧
        (s.afterAll past).links.get? id = some record ∧
        (s.afterAll (past ++ [.deed d])).links.get? id = none) ∧
    (∀ (root : Path) (mode : LockMode) (m m' : Machine) (s : Store) (works : List Work),
      (openAt root mode).run m = (.ok s, m') → Filing.Reached (.ofLinks (s.afterAll works).links)) ∧
    ∀ (f : Filing) (id : KeyId) (link : ChainLink), Filing.Reached f → f.get? id = some link →
      link.parent = id ∧ link.record.length = 113 :=
  ⟨after_slot, flush_links, fun _ _ _ _ => afterAll_slot,
    fun _ _ _ _ _ works h => reached_afterAll (reached_openAt h) works, fun _ _ _ h => h.keyed⟩

/-- A link that is removed after a flush, from a store that was opened and filled. -/
theorem slots_write_once_removed :
    let root : Path := ⟨"/"⟩
    let record : Record := .zero recordSize
    let works : List Work := [.flush (Machine.new Disk.empty), .deed (.remove ⟨1⟩)]
    ∃ opened m', (openAt root .exclusive).run (Machine.new Disk.empty) = (.ok opened, m') ∧
      let s := opened.after (.insert ⟨1⟩ record)
      s.links.get? ⟨1⟩ = some record ∧ (s.afterAll works).links.get? ⟨1⟩ ≠ some record ∧
        Filing.Reached (.ofLinks (opened.afterAll [.deed (.insert ⟨1⟩ record)]).links) ∧
        ∃ past d onward, works = past ++ .deed d :: onward ∧ ⟨1⟩ ∈ d.empties := by
  intro root record works
  obtain ⟨result, lock, m', hopen, -, -, hresult⟩ := run_openAt holds_new .exclusive
  let opened : Store := ⟨pathFor root, OrderedMap.empty, false, .exclusive, lock⟩
  obtain rfl : result = .ok opened := hresult
  let s := opened.after (.insert ⟨1⟩ record)
  have hslot : s.links.get? ⟨1⟩ = some record := rfl
  obtain ⟨m'', hflush, -⟩ := @run_flush_faultless _ root _ _ _ s holds_new rfl rfl rfl
  have hchanged : (s.afterAll works).links.get? ⟨1⟩ ≠ some record := by
    have hafter : s.afterAll works = ({ s with dirty := false } : Store).after (.remove ⟨1⟩) := by
      show (s.flush.run (Machine.new Disk.empty)).1.2.after (.remove ⟨1⟩) = _
      rw [hflush]
    rw [hafter]
    exact fun he => nomatch he
  obtain ⟨-, -, hrun, hreached, -⟩ := slots_write_once
  obtain ⟨past, d, onward, hworks, hd, -⟩ := hrun s works ⟨1⟩ record hslot hchanged
  exact ⟨opened, m', hopen, hslot, hchanged, hreached root .exclusive _ m' opened _ hopen, past, d, onward, hworks, hd⟩

end Store

end KeyChain
