import KeyChain.Proofs.Handles
/-! Flushing one store over and over. A writing goes by way of a draft, so it is only the last of its requests that
   touches the store file, and whichever of them fails, the changes stay to be written. Between two flushes the
   disk may come to refuse requests, the draft may be left half written, or a directory may take its place.

   1. `Store.run_flush_keeps`: how a flush ends (`Store.Flushed`), also where a directory is in the way;
   2. `Store.Underway.current`: what stays true of a store that is open, up to the operations that its file does not
      have;
   3. `Store.flush_atomic`: so a flush writes all of them or none, and a store without changes has the links of its
      file. -/
namespace KeyChain

/-- Whether a store can be written: no request is refused, and no directory stands in the place of the draft. -/
def Machine.CanSave (m : Machine) (dir : Location) : Prop :=
  m.diskFaults.canWrite ∧ m.disk.node? (dir.child (Store.fileName ++ ".tmp")) ≠ some .directory

namespace Store

variable {root : Path} {dir : Location} {opened s s' : Store} {deeds : List Deed} {m m' : Machine}
  {result : Except KeychainError Unit}

/-! One flush. -/

/-- How a flush ends: there is nothing to write, all changes are written, or none is. -/
inductive Flushed (root : Path) (dir : Location) (s : Store) (m : Machine) :
    Except KeychainError Unit → Store → Machine → Prop where
  | clean (hclean : s.dirty = false) : Flushed root dir s m (.ok ()) s m
  | written {m' : Machine} (hdirty : s.dirty = true) (hcan : m.CanSave dir) (hkeeps : m'.disk.Keeps root dir)
    (hcontent : m'.disk.content? (dir.child fileName) = some (StoreDocument.content s.links)) :
    Flushed root dir s m (.ok ()) { s with dirty := false } m'
  | failed {e : KeychainError} {m' : Machine} (hdirty : s.dirty = true) (hcannot : ¬ m.CanSave dir)
    (hkeeps : m'.disk.Keeps root dir)
    (hcontent : m'.disk.content? (dir.child fileName) = m.disk.content? (dir.child fileName)) :
    Flushed root dir s m (.error e) s m'

/-- A store without changes asks for nothing. -/
theorem flush_clean (h : s.dirty = false) : s.flush = pure (.ok (), s) := by
  rw [flush, h]
  rfl

/-- A directory in the place of the draft stops a writing at its first request. -/
theorem run_save_directory (h : m.disk.Keeps root dir) (hs : s.path = pathFor root)
    (hdirectory : m.disk.node? (dir.child (fileName ++ ".tmp")) = some .directory) :
    ∃ e, s.save.run m = (.error e, m) := by
  have hcreate : m.disk.create (root.join (fileName ++ ".tmp")) = .error .isADirectory := by
    rw [Disk.create, Disk.openFile, h.locate_file draftName_mem, hdirectory]
    rfl
  have hrefused : ∃ cause, (Program.create (root.join (fileName ++ ".tmp"))).run m = (.error cause, m) := by
    have hrun : (Program.create (root.join (fileName ++ ".tmp"))).run m =
        m.onDisk (Machine.barring m.diskFaults.create (m.disk.create (root.join (fileName ++ ".tmp")))) := rfl
    rw [hrun, hcreate]
    cases m.diskFaults.create with
    | some cause => exact ⟨cause, rfl⟩
    | none => exact ⟨_, rfl⟩
  obtain ⟨cause, hrun⟩ := hrefused
  refine ⟨.store s.draftPath cause, ?_⟩
  rw [save, Program.run_bind, draftPath_eq hs, hrun]
  rfl

theorem run_flush_keeps (h : m.disk.Keeps root dir) (hs : s.path = pathFor root) :
    ∃ result s' m', s.flush.run m = ((result, s'), m') ∧ Flushed root dir s m result s' m' := by
  cases hdirty : s.dirty with
  | false =>
    rw [flush_clean hdirty]
    exact ⟨_, _, _, rfl, .clean hdirty⟩
  | true =>
    rcases h.hosts_or with hhosts | hdirectory
    · have hfree := (hhosts.free _ draftName_mem).not_directory
      obtain ⟨result, m', hrun, h', hcases⟩ := run_flush_hosts hhosts hs
      rw [hrun]
      rcases hcases with ⟨hcan, rfl⟩ | ⟨-, hcannot, hbarred⟩
      · have hcan := hcan hdirty
        refine ⟨_, _, m', rfl, ?_⟩
        rw [if_pos hcan]
        refine .written hdirty ⟨hcan, hfree⟩ h'.hosts.keeps ?_
        rw [h'.content, written, if_pos ⟨hdirty, hcan⟩]
      · refine ⟨_, _, m', rfl, ?_⟩
        rw [if_neg hcannot]
        cases hbarred
        refine .failed hdirty (fun hsave => hcannot hsave.1) h'.hosts.keeps ?_
        rw [h'.content, written_barred hcannot]
    · obtain ⟨e, hrun⟩ := run_save_directory h hs hdirectory
      refine ⟨.error e, s, m, ?_, .failed hdirty (fun hsave => hsave.2 hdirectory) h rfl⟩
      rw [flush, hdirty, if_pos rfl, Program.run_bind, hrun]
      rfl

namespace Flushed

theorem keeps (h : Flushed root dir s m result s' m') (hkeeps : m.disk.Keeps root dir) : m'.disk.Keeps root dir := by
  cases h with
  | clean => exact hkeeps
  | written _ _ hkeeps' => exact hkeeps'
  | failed _ _ hkeeps' => exact hkeeps'

/-- A flush does not touch the links in memory. -/
theorem bare (h : Flushed root dir s m result s' m') : s'.bare = s.bare := by
  cases h <;> rfl

/-- If the links of a clean store are those of its file, they are so after a flush. -/
theorem spelled (h : Flushed root dir s m result s' m')
    (hfile : s.dirty = false → Store.spelled (pathFor root) (m.disk.content? (dir.child fileName)) = .ok s.links)
    (hclean : s'.dirty = false) :
    Store.spelled (pathFor root) (m'.disk.content? (dir.child fileName)) = .ok s'.links := by
  cases h with
  | clean hclean => exact hfile hclean
  | written _ _ _ hcontent =>
    rw [hcontent]
    exact spelled_content _ _
  | failed hdirty => cases hclean.symm.trans hdirty

/-- If there is nothing to write, or all of it can be written, the file has the links in the end. -/
theorem saved (h : Flushed root dir s m result s' m')
    (hfile : s.dirty = false → Store.spelled (pathFor root) (m.disk.content? (dir.child fileName)) = .ok s.links)
    (hcan : s.dirty = false ∨ m.CanSave dir) :
    result = .ok () ∧ s' = { s with dirty := false } ∧
      Store.spelled (pathFor root) (m'.disk.content? (dir.child fileName)) = .ok s.links := by
  cases h with
  | clean hclean => exact ⟨rfl, by rw [← hclean], hfile hclean⟩
  | written _ _ _ hcontent =>
    rw [hcontent]
    exact ⟨rfl, rfl, spelled_content _ _⟩
  | failed hdirty hcannot =>
    rcases hcan with hclean | hcan
    · cases hclean.symm.trans hdirty
    · exact absurd hcan hcannot

/-- If it cannot be written, neither the store nor its file changes. -/
theorem kept (h : Flushed root dir s m result s' m') (hcannot : ¬ m.CanSave dir) :
    (s.dirty = true → ∃ e, result = .error e) ∧ s' = s ∧
      m'.disk.content? (dir.child fileName) = m.disk.content? (dir.child fileName) := by
  cases h with
  | clean hclean => exact ⟨fun hdirty => (by cases hclean.symm.trans hdirty), rfl, rfl⟩
  | written _ hcan => exact absurd hcan hcannot
  | failed _ _ _ hcontent => exact ⟨fun _ => ⟨_, rfl⟩, rfl, hcontent⟩

end Flushed

/-! Any number of them. -/

/-- What can become of a store that is opened for changes, with the operations on it so far. Besides these and the
    flushes, anything may happen on the machine that leaves the store file alone and puts no link in place of a
    file of the store: requests are refused from then on, or no longer, and the draft is changed or made a
    directory. -/
inductive Underway (root : Path) (dir : Location) (opened : Store) : List Deed → Store → Machine → Prop where
  | opens {m m' : Machine} (hkeeps : m.disk.Keeps root dir) (hhonest : m.diskFaults.Honest)
    (hrun : (openAt root .exclusive).run m = (.ok opened, m')) : Underway root dir opened [] opened m'
  | acts {deeds : List Deed} {s : Store} {m : Machine} (h : Underway root dir opened deeds s m) (d : Deed) :
    Underway root dir opened (deeds ++ [d]) (s.after d) m
  | flushes {deeds : List Deed} {s s' : Store} {m m' : Machine} {result : Except KeychainError Unit}
    (h : Underway root dir opened deeds s m) (hrun : s.flush.run m = ((result, s'), m')) :
    Underway root dir opened deeds s' m'
  | elsewhere {deeds : List Deed} {s : Store} {m m' : Machine} (h : Underway root dir opened deeds s m)
    (hkeeps : m'.disk.Keeps root dir)
    (hfile : m'.disk.content? (dir.child fileName) = m.disk.content? (dir.child fileName)) :
    Underway root dir opened deeds s m'

/-- Whether a store has all operations in memory, and those that are not marked as changes in its file. -/
structure Current (root : Path) (dir : Location) (opened : Store) (deeds : List Deed) (s : Store) (m : Machine) :
    Prop where
  keeps : m.disk.Keeps root dir
  path : s.path = pathFor root
  done : s.bare = (opened.done deeds).bare
  file : s.dirty = false → spelled (pathFor root) (m.disk.content? (dir.child fileName)) = .ok s.links

namespace Current

/-- Opening gives the links of the file. -/
theorem of_openAt (h : m.disk.Keeps root dir) (hhonest : m.diskFaults.Honest)
    (hrun : (openAt root .exclusive).run m = (.ok opened, m')) : Current root dir opened [] opened m' := by
  obtain ⟨lock, links, hacquired, hspelled, rfl⟩ := openAt_ok h hhonest hrun
  refine ⟨hacquired.keeps h, rfl, rfl, fun _ => ?_⟩
  rw [hacquired.sameContent]
  exact hspelled

/-- An operation that changes the links marks that it did. -/
theorem acts (h : Current root dir opened deeds s m) (d : Deed) :
    Current root dir opened (deeds ++ [d]) (s.after d) m := by
  have hedited := s.after_edited d
  refine ⟨h.keeps, hedited.path.trans h.path, ?_, fun hclean => ?_⟩
  · rw [done_append]
    exact after_alike h.done d
  · rw [hedited.links_eq hclean]
    refine h.file ?_
    rcases hedited.marked with hdirty | ⟨hsame, -⟩
    · cases hclean.symm.trans hdirty
    · exact hsame.symm.trans hclean

theorem flushes (h : Current root dir opened deeds s m) (hrun : s.flush.run m = ((result, s'), m')) :
    Current root dir opened deeds s' m' := by
  obtain ⟨result₁, s₁, m₁, hrun₁, hflushed⟩ := run_flush_keeps h.keeps h.path
  cases hrun.symm.trans hrun₁
  have hpath : s'.path = s.path := show s'.bare.path = s.bare.path from congrArg Store.path hflushed.bare
  exact ⟨hflushed.keeps h.keeps, hpath.trans h.path, hflushed.bare.trans h.done, hflushed.spelled h.file⟩

end Current

theorem Underway.current (h : Underway root dir opened deeds s m) : Current root dir opened deeds s m := by
  induction h with
  | opens hkeeps hhonest hrun => exact .of_openAt hkeeps hhonest hrun
  | acts _ d ih => exact ih.acts d
  | flushes _ hrun ih => exact ih.flushes hrun
  | elsewhere _ hkeeps hfile ih => exact ⟨hkeeps, ih.path, ih.done, hfile ▸ ih.file⟩

/-- A flush is all or nothing, after whatever was done to a store and whatever has failed before. The store has all
    operations in memory. If it is marked as unchanged, a flush asks for nothing and the file has all of them too.
    Otherwise a flush succeeds exactly if no request is refused and no directory is in the way; then the file
    has all operations and the mark is gone, and else the store and the content of the file are as they were. A
    store that is closed is flushed first, with the same effect on the file. -/
theorem flush_atomic (h : Underway root dir opened deeds s m) :
    s.links = (opened.done deeds).links ∧
    (s.dirty = false →
      s.flush = pure (.ok (), s) ∧
        spelled (pathFor root) (m.disk.content? (dir.child fileName)) = .ok s.links) ∧
    (∃ result s' m', s.flush.run m = ((result, s'), m') ∧
      ((s.dirty = false ∨ m.CanSave dir) ∧ result = .ok () ∧ s' = { s with dirty := false } ∧
          spelled (pathFor root) (m'.disk.content? (dir.child fileName)) = .ok (opened.done deeds).links ∨
        (s.dirty = true ∧ ¬ m.CanSave dir) ∧ (∃ e, result = .error e) ∧ s' = s ∧
          m'.disk.content? (dir.child fileName) = m.disk.content? (dir.child fileName))) ∧
    ∃ m', s.close.run m = ((), m') ∧
      (s.dirty = false ∨ m.CanSave dir →
        spelled (pathFor root) (m'.disk.content? (dir.child fileName)) = .ok (opened.done deeds).links) ∧
      (¬ m.CanSave dir → m'.disk.content? (dir.child fileName) = m.disk.content? (dir.child fileName)) := by
  have hcurrent := h.current
  have hlinks : s.links = (opened.done deeds).links := links_eq_of_bare hcurrent.done
  obtain ⟨result, s', m', hrun, hflushed⟩ := run_flush_keeps hcurrent.keeps hcurrent.path
  have hclose : s.close.run m = ((), m'.released s.lock) := by
    rw [close, Program.run_bind, hrun, run_release]
  refine ⟨hlinks, fun hclean => ⟨flush_clean hclean, hcurrent.file hclean⟩, ⟨result, s', m', hrun, ?_⟩,
    m'.released s.lock, hclose, fun hcan => ?_, fun hcannot => ?_⟩
  · rw [← hlinks]
    by_cases hcan : s.dirty = false ∨ m.CanSave dir
    · exact .inl ⟨hcan, hflushed.saved hcurrent.file hcan⟩
    · obtain ⟨hdirty, hcannot⟩ := not_or.1 hcan
      have hdirty : s.dirty = true := by simpa using hdirty
      obtain ⟨herror, hsame, hcontent⟩ := hflushed.kept hcannot
      exact .inr ⟨⟨hdirty, hcannot⟩, herror hdirty, hsame, hcontent⟩
  · rw [disk_released, ← hlinks]
    exact (hflushed.saved hcurrent.file hcan).2.2
  · rw [disk_released]
    exact (hflushed.kept hcannot).2.2

/-- A record is filled in, and the draft cannot be moved into place. The next flush writes it after all. -/
theorem flush_atomic_retried :
    let root : Path := ⟨"/"⟩
    let record : Record := .zero recordSize
    ∃ opened m₁ e m₂ m₃,
      (openAt root .exclusive).run (Machine.new Disk.empty) = (.ok opened, m₁) ∧
        let s := opened.after (.insert ⟨1⟩ record)
        s.flush.run { m₁ with diskFaults := { rename := some .permissionDenied } } = ((.error e, s), m₂) ∧
          s.flush.run { m₂ with diskFaults := {} } = ((.ok (), { s with dirty := false }), m₃) ∧
          spelled (pathFor root) (m₃.disk.content? (Location.root.child fileName)) =
            .ok (OrderedMap.empty.insert ⟨1⟩ record) := by
  intro root record
  obtain ⟨result, lock, m₁, hopen, -, h₁, hresult⟩ := run_openAt holds_new .exclusive
  obtain rfl : result = .ok ⟨pathFor root, OrderedMap.empty, false, .exclusive, lock⟩ := hresult
  have hstart : Underway root Location.root _ [] _ m₁ :=
    .opens holds_new.hosts.keeps (fun h => by cases h) hopen
  have hfilled := hstart.acts (.insert ⟨1⟩ record)
  generalize hs : Store.after _ (.insert ⟨1⟩ record) = s at hfilled
  have hdirty : s.dirty = true := by rw [← hs]; rfl
  have hpath : s.path = pathFor root := by rw [← hs]; rfl
  -- The draft is written, but cannot be moved.
  let barred : Machine := { m₁ with diskFaults := { rename := some .permissionDenied } }
  have hcannot : ¬ barred.CanSave Location.root := fun hcan => by cases hcan.1.2.2
  have hbarred : Underway root Location.root _ _ s barred := .elsewhere hfilled h₁.hosts.keeps rfl
  obtain ⟨-, -, ⟨result₂, s₂, m₂, hfirst, hcases⟩, -⟩ := flush_atomic hbarred
  rcases hcases with ⟨hcan, -⟩ | ⟨-, ⟨e, rfl⟩, rfl, -⟩
  · rcases hcan with hclean | hcan
    · cases hclean.symm.trans hdirty
    · exact absurd hcan hcannot
  -- What is left of the draft is a file, which is written anew.
  obtain ⟨_, _, hfirst', h₂, -⟩ := @run_flush_hosts barred root Location.root s₂ h₁.hosts hpath
  cases hfirst'.symm.trans hfirst
  let freed : Machine := { m₂ with diskFaults := {} }
  have hcan : freed.CanSave Location.root := ⟨⟨rfl, rfl, rfl⟩, (h₂.hosts.free _ draftName_mem).not_directory⟩
  have hfreed : Underway root Location.root _ _ s₂ freed := .elsewhere (hbarred.flushes hfirst) h₂.hosts.keeps rfl
  obtain ⟨-, -, ⟨result₃, s₃, m₃, hsecond, hcases⟩, -⟩ := flush_atomic hfreed
  rcases hcases with ⟨-, rfl, rfl, hspelled⟩ | ⟨⟨-, hrefused⟩, -⟩
  · exact ⟨_, m₁, e, m₂, m₃, hopen, hs ▸ hfirst, hs ▸ hsecond, hspelled⟩
  · exact absurd hcan hrefused

end Store

end KeyChain
