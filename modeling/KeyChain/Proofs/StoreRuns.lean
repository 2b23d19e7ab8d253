import KeyChain.Machine
import KeyChain.Proofs.RootFiles
import KeyChain.Proofs.StoreText
import KeyChain.Store.File
/-! Stores on a machine. What the requests of a store do to the files of its root is the same whoever holds
   locks there (`Store.Acquired`, `Machine.Rewritten`). Where nobody else does, the state that counts is the
   content of the store file and the lock that is held (`Machine.Holds`).

   1. `run_openAt_keeps`: opening takes the lock, if it is granted, and gives the links that are loaded;
      `run_openAt`: where nobody holds a lock, it fails for a fault or for what is in the file only
      (`opens` says with which error);
   2. `run_save`, `run_flush_hosts`: writing replaces the content by the links of the store, or fails and
      leaves it as it was, whichever request fails;
   3. `run_close_hosts`: closing writes what is left and lets the lock go. -/
namespace KeyChain

/-- Whether a machine keeps the store of a root, which is in a directory, with this content of the store
    file (none if there is no file), and holds no lock but this one. -/
structure Machine.Holds (m : Machine) (root : Path) (dir : Location) (content : Option Bytes)
    (lock : Option LockId) : Prop where
  hosts : m.disk.Hosts root dir
  content : m.disk.content? (dir.child Store.fileName) = content
  locks : ∀ l ∈ m.locks, some l.id = lock

/-- A machine without a lock. -/
def Machine.released (m : Machine) : Option LockId → Machine
  | none => m
  | some lock => { m with locks := m.locks.filter fun l => l.id != lock }

/-- Whether a machine is another after the store file was written anew, or was to be: it has this content of the
    store file, and maybe another draft. The lock file and the locks are the same. -/
structure Machine.Rewritten (m : Machine) (root : Path) (dir : Location) (content : Option Bytes)
    (m' : Machine) : Prop where
  hosts : m'.disk.Hosts root dir
  content : m'.disk.content? (dir.child Store.fileName) = content
  lockFile : m'.disk.node? (dir.child (Store.fileName ++ ".lock")) =
    m.disk.node? (dir.child (Store.fileName ++ ".lock"))
  locks : m'.locks = m.locks
  nextLock : m'.nextLock = m.nextLock
  faults : m'.diskFaults = m.diskFaults

theorem Machine.Rewritten.trans {m m₁ m₂ : Machine} {root : Path} {dir : Location}
    {content content' : Option Bytes} (h : m.Rewritten root dir content m₁) (h' : m₁.Rewritten root dir content' m₂) :
    m.Rewritten root dir content' m₂ :=
  ⟨h'.hosts, h'.content, h'.lockFile.trans h.lockFile, h'.locks.trans h.locks, h'.nextLock.trans h.nextLock,
    h'.faults.trans h.faults⟩

theorem Machine.Holds.locks_eq_nil {m : Machine} {root : Path} {dir : Location} {content : Option Bytes}
    (h : m.Holds root dir content none) : m.locks = [] :=
  List.eq_nil_iff_forall_not_mem.2 fun l hl => by cases h.locks l hl

theorem Machine.Holds.rewritten {m m' : Machine} {root : Path} {dir : Location} {content content' : Option Bytes}
    {lock : Option LockId} (h : m.Holds root dir content lock) (h' : m.Rewritten root dir content' m') :
    m'.Holds root dir content' lock :=
  ⟨h'.hosts, h'.content, h'.locks ▸ h.locks⟩

/-- A machine that has just been switched on keeps the store of its root directory. -/
theorem holds_new : (Machine.new Disk.empty).Holds ⟨"/"⟩ Location.root none none := by
  exact ⟨⟨Disk.locate_slash _, by decide, fun n _ => .inl rfl⟩, rfl, fun l hl => by cases hl⟩

/-- Whether the disk lets a store be opened. -/
def DiskFaults.canOpen (f : DiskFaults) : Prop := f.lock = none ∧ f.read = none

/-- The fault for which the lock of a root is refused. To look something up in a root that cannot be written
    to, no lock is needed. -/
def DiskFaults.lockError? (f : DiskFaults) (mode : LockMode) : Option SystemError :=
  f.lock.filter fun cause => ¬ (mode = .shared ∧ cause.barsWriting)

/-- Whether the disk lets a store be written. -/
def DiskFaults.canWrite (f : DiskFaults) : Prop := f.create = none ∧ f.write = none ∧ f.rename = none

instance (f : DiskFaults) : Decidable f.canWrite := inferInstanceAs (Decidable (_ ∧ _ ∧ _))

/-- Whether a result tells that the disk refused a request. -/
inductive Barred {α : Type} : Except KeychainError α → Prop where
  | store (path : Path) (cause : SystemError) : Barred (.error (.store path cause))

namespace Store

/-- The links that the content of a store file spells; a file that is not there holds none. -/
def spelled (path : Path) : Option Bytes → Except KeychainError Links
  | none => .ok OrderedMap.empty
  | some content => StoreDocument.readLinks path content

theorem spelled_content (path : Path) (links : Links) :
    spelled path (some (StoreDocument.content links)) = .ok links :=
  StoreDocument.readLinks_content path links

theorem lockPathFor_eq (root : Path) : lockPathFor root = root.join (fileName ++ ".lock") :=
  Disk.withEnding_join root fileName ".lock"

theorem fileName_mem : fileName ∈ Disk.storeNames := by simp [Disk.storeNames]
theorem lockName_mem : fileName ++ ".lock" ∈ Disk.storeNames := by simp [Disk.storeNames]
theorem draftName_mem : fileName ++ ".tmp" ∈ Disk.storeNames := by simp [Disk.storeNames]
theorem fileName_ne_lockName : fileName ≠ fileName ++ ".lock" := by decide
theorem draftName_ne : fileName ++ ".tmp" ≠ fileName := by decide
theorem draftName_ne_lockName : fileName ++ ".tmp" ≠ fileName ++ ".lock" := by decide

variable {m : Machine} {root : Path} {dir : Location} {content : Option Bytes} {lock : Option LockId}

/-! Requests for the files of a root. -/

/-- How a lock is asked for, with what comes of it. -/
inductive Acquired (m : Machine) (root : Path) (dir : Location) (mode : LockMode) :
    Except KeychainError (Option LockId) → Machine → Prop where
  | refused {cause : SystemError} (h : m.diskFaults.lockError? mode = some cause) :
    Acquired m root dir mode (.error (.store (lockPathFor root) cause)) m
  /-- Where the lock file cannot be made, none is needed to look something up. -/
  | without {cause : SystemError} (hlock : m.diskFaults.lock = some cause)
    (h : m.diskFaults.lockError? mode = none) : Acquired m root dir mode (.ok none) m
  | busy {disk : Disk} {serial : Nat} (hlock : m.diskFaults.lock = none)
    (hopen : m.disk.Opened disk (dir.child (fileName ++ ".lock")) serial)
    (h : m.grants serial mode = false) :
    Acquired m root dir mode (.error (.store (lockPathFor root) .wouldBlock)) { m with disk := disk }
  | granted {disk : Disk} {serial : Nat} (hlock : m.diskFaults.lock = none)
    (hopen : m.disk.Opened disk (dir.child (fileName ++ ".lock")) serial)
    (h : m.grants serial mode = true) :
    Acquired m root dir mode (.ok (some ⟨m.nextLock⟩))
      { m with
        disk := disk, locks := ⟨⟨m.nextLock⟩, serial, mode⟩ :: m.locks, nextLock := m.nextLock + 1 }

theorem run_acquire (h : m.disk.Keeps root dir) (mode : LockMode) :
    ∃ result m', (acquire (lockPathFor root) mode).run m = (result, m') ∧
      Acquired m root dir mode result m' := by
  have hrun : (acquire (lockPathFor root) mode).run m = _ := Program.run_bind ..
  cases hfault : m.diskFaults.lock with
  | some cause =>
    have hlock : (Program.lock (lockPathFor root) mode).run m = (.error cause, m) := by
      show m.lockFile (lockPathFor root) mode = _
      rw [Machine.lockFile, hfault]
      rfl
    rw [hrun, hlock]
    dsimp only
    by_cases hread : mode = .shared ∧ cause.barsWriting
    · rw [if_pos hread]
      refine ⟨_, m, rfl, .without hfault ?_⟩
      rw [DiskFaults.lockError?, hfault, Option.filter_some, if_neg (show ¬ decide _ = true by simp [hread])]
    · rw [if_neg hread]
      refine ⟨_, m, rfl, .refused ?_⟩
      rw [DiskFaults.lockError?, hfault, Option.filter_some, if_pos (decide_eq_true hread)]
  | none =>
    have hfree := h.free _ lockName_mem draftName_ne_lockName.symm
    obtain ⟨disk, serial, hopen, hopened⟩ :=
      Disk.openFile_opened (h.locate_file lockName_mem .file) (Disk.child_ne_root dir _) hfree id
    have hlock : (Program.lock (lockPathFor root) mode).run m = m.lockFile (lockPathFor root) mode := rfl
    rw [Machine.lockFile, lockPathFor_eq, hopen, hfault] at hlock
    dsimp only [Machine.barring] at hlock
    cases hgrants : m.grants serial mode with
    | true =>
      rw [if_pos hgrants] at hlock
      rw [hrun, lockPathFor_eq, hlock]
      exact ⟨_, _, rfl, .granted hfault hopened hgrants⟩
    | false =>
      rw [if_neg (by simp [hgrants])] at hlock
      rw [hrun, lockPathFor_eq, hlock, ← lockPathFor_eq]
      dsimp only
      rw [if_neg (by simp [SystemError.barsWriting])]
      exact ⟨_, _, rfl, .busy hfault hopened hgrants⟩

theorem Acquired.faults {mode : LockMode} {result : Except KeychainError (Option LockId)} {m' : Machine}
    (h : Acquired m root dir mode result m') : m'.diskFaults = m.diskFaults := by
  cases h <;> rfl

/-- The lock file is opened or made, and no other file is touched. -/
theorem Acquired.disk {mode : LockMode} {result : Except KeychainError (Option LockId)} {m' : Machine}
    (h : Acquired m root dir mode result m') :
    m'.disk = m.disk ∨ ∃ serial, m.disk.Opened m'.disk (dir.child (fileName ++ ".lock")) serial := by
  cases h with
  | refused => exact .inl rfl
  | without => exact .inl rfl
  | busy _ hopen => exact .inr ⟨_, hopen⟩
  | granted _ hopen => exact .inr ⟨_, hopen⟩

theorem Acquired.sameContent {mode : LockMode} {result : Except KeychainError (Option LockId)} {m' : Machine}
    (h : Acquired m root dir mode result m') :
    m'.disk.content? (dir.child fileName) = m.disk.content? (dir.child fileName) := by
  rcases h.disk with hsame | ⟨serial, hopen⟩
  · rw [hsame]
  · unfold Disk.content?
    rw [hopen.elsewhere _ fun he => fileName_ne_lockName (Disk.child_inj he)]

theorem Acquired.keeps {mode : LockMode} {result : Except KeychainError (Option LockId)} {m' : Machine}
    (h : Acquired m root dir mode result m') (hkeeps : m.disk.Keeps root dir) : m'.disk.Keeps root dir := by
  rcases h.disk with hsame | ⟨serial, hopen⟩
  · exact hsame ▸ hkeeps
  · exact hkeeps.opened lockName_mem draftName_ne_lockName.symm hopen

theorem Acquired.hosts {mode : LockMode} {result : Except KeychainError (Option LockId)} {m' : Machine}
    (h : Acquired m root dir mode result m') (hhosts : m.disk.Hosts root dir) :
    m'.disk.Hosts root dir ∧
      m'.disk.content? (dir.child fileName) = m.disk.content? (dir.child fileName) := by
  refine ⟨?_, h.sameContent⟩
  rcases h.disk with hsame | ⟨serial, hopen⟩
  · exact hsame ▸ hhosts
  · exact hhosts.opened lockName_mem hopen

/-- What loading gives. A disk that says there is no file is believed. -/
def loaded (path : Path) (faults : DiskFaults) (content : Option Bytes) : Except KeychainError Links :=
  match faults.read with
  | none => spelled path content
  | some .noSuchFile => .ok OrderedMap.empty
  | some cause => .error (.store path cause)

theorem run_load_keeps (h : m.disk.Keeps root dir) :
    (load (pathFor root)).run m =
      (loaded (pathFor root) m.diskFaults (m.disk.content? (dir.child fileName)), m) := by
  have hrun : (load (pathFor root)).run m = _ := Program.run_bind ..
  unfold loaded
  cases hfault : m.diskFaults.read with
  | some cause =>
    have hread : (Program.read (pathFor root)).run m = (.error cause, m) := by
      show (Machine.barring m.diskFaults.read _, m) = _
      rw [hfault]
      rfl
    rw [hrun, hread]
    cases cause <;> rfl
  | none =>
    have hread : (Program.read (pathFor root)).run m = (m.disk.read (root.join fileName), m) := by
      show (Machine.barring m.diskFaults.read _, m) = _
      rw [hfault]
      rfl
    rw [hrun, hread, Disk.read_free (h.locate_file fileName_mem .target) (h.free _ fileName_mem draftName_ne.symm)]
    cases m.disk.content? (dir.child fileName) <;> rfl

theorem run_load (h : m.disk.Hosts root dir) :
    (load (pathFor root)).run m =
      (loaded (pathFor root) m.diskFaults (m.disk.content? (dir.child fileName)), m) :=
  run_load_keeps h.keeps

theorem run_release (m : Machine) (lock : Option LockId) : (release lock).run m = ((), m.released lock) := by
  cases lock <;> rfl

/-- Opening takes the lock and gives the links that are loaded, or fails. A store that cannot be loaded is not
    kept open. -/
theorem run_openAt_keeps (h : m.disk.Keeps root dir) (mode : LockMode) :
    ∃ acquired m', Acquired m root dir mode acquired m' ∧
      (openAt root mode).run m =
        match acquired with
        | .error e => (.error e, m')
        | .ok lock =>
          match loaded (pathFor root) m.diskFaults (m.disk.content? (dir.child fileName)) with
          | .error e => (.error e, m'.released lock)
          | .ok links => (.ok ⟨pathFor root, links, false, mode, lock⟩, m') := by
  obtain ⟨acquired, m', hrun, hacquired⟩ := run_acquire h mode
  refine ⟨acquired, m', hacquired, ?_⟩
  unfold openAt
  rw [Program.run_bind, hrun]
  cases acquired with
  | error e => rfl
  | ok lock =>
    dsimp only
    rw [Program.run_bind, run_load_keeps (hacquired.keeps h), hacquired.sameContent, hacquired.faults]
    cases loaded (pathFor root) m.diskFaults (m.disk.content? (dir.child fileName)) with
    | ok links => rfl
    | error e =>
      dsimp only
      rw [Program.run_bind, run_release]
      rfl

theorem run_openAt_hosts (h : m.disk.Hosts root dir) (mode : LockMode) :
    ∃ acquired m', Acquired m root dir mode acquired m' ∧
      (openAt root mode).run m =
        match acquired with
        | .error e => (.error e, m')
        | .ok lock =>
          match loaded (pathFor root) m.diskFaults (m.disk.content? (dir.child fileName)) with
          | .error e => (.error e, m'.released lock)
          | .ok links => (.ok ⟨pathFor root, links, false, mode, lock⟩, m') :=
  run_openAt_keeps h.keeps mode

/-- What opening gives: the links that are loaded, if the lock is not refused. -/
def opens (root : Path) (mode : LockMode) (faults : DiskFaults) (content : Option Bytes) :
    Except KeychainError Links :=
  match faults.lockError? mode with
  | some cause => .error (.store (lockPathFor root) cause)
  | none => loaded (pathFor root) faults content

/-- Where nobody holds a lock, one is taken, or done without, or refused because of a fault. -/
theorem Acquired.holds {mode : LockMode} {result : Except KeychainError (Option LockId)} {m' : Machine}
    (hacquired : Acquired m root dir mode result m') (h : m.Holds root dir content none) :
    m'.Holds root dir content result.toOption.join ∧
      match m.diskFaults.lockError? mode with
      | some cause => result = .error (.store (lockPathFor root) cause)
      | none => ∃ lock, result = .ok lock := by
  obtain ⟨hhosts, hcontent⟩ := hacquired.hosts h.hosts
  have hlocks := h.locks_eq_nil
  cases hacquired with
  | refused herror =>
    rw [herror]
    exact ⟨h, rfl⟩
  | without _ hnone =>
    rw [hnone]
    exact ⟨h, none, rfl⟩
  | busy _ _ hbusy => cases mode <;> simp [Machine.grants, hlocks] at hbusy
  | granted hlock =>
    have hnone : m.diskFaults.lockError? mode = none := by
      rw [DiskFaults.lockError?, hlock]
      rfl
    rw [hnone]
    refine ⟨⟨hhosts, hcontent.trans h.content, fun l hl => ?_⟩, _, rfl⟩
    dsimp only at hl
    rw [hlocks] at hl
    obtain rfl := List.mem_singleton.1 hl
    rfl

theorem holds_released (h : m.Holds root dir content lock) : (m.released lock).Holds root dir content none := by
  cases lock with
  | none => exact h
  | some lock =>
    refine ⟨h.hosts, h.content, fun l hl => ?_⟩
    obtain ⟨hmem, hne⟩ := List.mem_filter.1 hl
    have hid := Option.some.inj (h.locks l hmem)
    simp [hid] at hne

theorem disk_released (m : Machine) (lock : Option LockId) : (m.released lock).disk = m.disk := by
  cases lock <;> rfl

theorem faults_released (m : Machine) (lock : Option LockId) : (m.released lock).diskFaults = m.diskFaults := by
  cases lock <;> rfl

/-- Where nobody holds a lock, opening fails for a fault or for what is in the file only. -/
theorem run_openAt (h : m.Holds root dir content none) (mode : LockMode) :
    ∃ result lock m', (openAt root mode).run m = (result, m') ∧ m'.diskFaults = m.diskFaults ∧
      m'.Holds root dir content (result.toOption.bind Store.lock) ∧
      result = (opens root mode m.diskFaults content).map fun links => ⟨pathFor root, links, false, mode, lock⟩ := by
  obtain ⟨acquired, locked, hacquired, hrun⟩ := run_openAt_hosts h.hosts mode
  obtain ⟨hlocked, hcases⟩ := hacquired.holds h
  have hsame := hacquired.faults
  rw [hrun, h.content]
  unfold opens
  cases herror : m.diskFaults.lockError? mode with
  | some cause =>
    rw [herror] at hcases
    obtain rfl := hcases
    exact ⟨_, none, locked, rfl, hsame, hlocked, rfl⟩
  | none =>
    rw [herror] at hcases
    obtain ⟨lock, rfl⟩ := hcases
    dsimp only
    cases loaded (pathFor root) m.diskFaults content with
    | ok links => exact ⟨_, lock, locked, rfl, hsame, hlocked, rfl⟩
    | error e =>
      have hreleased := @holds_released locked root dir content lock hlocked
      exact ⟨_, lock, _, rfl, (faults_released locked lock).trans hsame, hreleased, rfl⟩

theorem draftPath_eq {s : Store} (hs : s.path = pathFor root) :
    s.draftPath = root.join (fileName ++ ".tmp") := by
  rw [draftPath, hs]
  exact Disk.withEnding_join root fileName ".tmp"

/-! The three requests of a writing: each is refused by a fault, or does its part. -/

theorem rewritten_refl (h : m.disk.Hosts root dir) :
    m.Rewritten root dir (m.disk.content? (dir.child fileName)) m := ⟨h, rfl, rfl, rfl, rfl, rfl⟩

/-- The draft can be filled without a change to the store file. -/
theorem rewritten_fill {new : Bytes} {disk : Disk} (h : m.disk.Hosts root dir)
    (hfill : Disk.Filled m.disk disk (dir.child (fileName ++ ".tmp")) new) :
    m.Rewritten root dir (m.disk.content? (dir.child fileName)) { m with disk := disk } ∧
      disk.content? (dir.child (fileName ++ ".tmp")) = some new := by
  refine ⟨⟨h.filled draftName_mem hfill, ?_, ?_, rfl, rfl, rfl⟩, ?_⟩
  · rw [hfill.content?, if_neg fun he => draftName_ne (Disk.child_inj he).symm]
  · exact hfill.2 _ fun he => draftName_ne_lockName (Disk.child_inj he).symm
  · rw [hfill.content?, if_pos rfl]

theorem run_create (h : m.disk.Hosts root dir) :
    (∃ cause, m.diskFaults.create = some cause ∧
      (Program.create (root.join (fileName ++ ".tmp"))).run m = (.error cause, m)) ∨
    (m.diskFaults.create = none ∧ ∃ m',
      (Program.create (root.join (fileName ++ ".tmp"))).run m = (.ok (), m') ∧
      m.Rewritten root dir (m.disk.content? (dir.child fileName)) m' ∧
      m'.disk.content? (dir.child (fileName ++ ".tmp")) = some []) := by
  have hrun : (Program.create (root.join (fileName ++ ".tmp"))).run m =
      m.onDisk (Machine.barring m.diskFaults.create (m.disk.create (root.join (fileName ++ ".tmp")))) := rfl
  rw [hrun]
  cases m.diskFaults.create with
  | some cause => exact .inl ⟨cause, rfl, rfl⟩
  | none =>
    obtain ⟨disk, hdisk, hfill⟩ := h.create_file draftName_mem
    rw [hdisk]
    exact .inr ⟨rfl, _, rfl, rewritten_fill h hfill⟩

theorem run_write {old : Bytes} (h : m.disk.Hosts root dir)
    (hdraft : m.disk.content? (dir.child (fileName ++ ".tmp")) = some old) (new : Bytes) :
    (∃ cause, m.diskFaults.write = some cause ∧
      (Program.write (root.join (fileName ++ ".tmp")) new).run m = (.error cause, m)) ∨
    (m.diskFaults.write = none ∧ ∃ m',
      (Program.write (root.join (fileName ++ ".tmp")) new).run m = (.ok (), m') ∧
      m.Rewritten root dir (m.disk.content? (dir.child fileName)) m' ∧
      m'.disk.content? (dir.child (fileName ++ ".tmp")) = some new) := by
  have hrun : (Program.write (root.join (fileName ++ ".tmp")) new).run m =
      m.onDisk (Machine.barring m.diskFaults.write (m.disk.write (root.join (fileName ++ ".tmp")) new)) := rfl
  rw [hrun]
  cases m.diskFaults.write with
  | some cause => exact .inl ⟨cause, rfl, rfl⟩
  | none =>
    obtain ⟨disk, hdisk, hfill⟩ := h.write_file draftName_mem hdraft new
    rw [hdisk]
    exact .inr ⟨rfl, _, rfl, rewritten_fill h hfill⟩

theorem run_rename {new : Bytes} (h : m.disk.Hosts root dir)
    (hdraft : m.disk.content? (dir.child (fileName ++ ".tmp")) = some new) :
    (∃ cause, m.diskFaults.rename = some cause ∧
      (Program.rename (root.join (fileName ++ ".tmp")) (pathFor root)).run m = (.error cause, m)) ∨
    (m.diskFaults.rename = none ∧ ∃ m',
      (Program.rename (root.join (fileName ++ ".tmp")) (pathFor root)).run m = (.ok (), m') ∧
      m.Rewritten root dir (some new) m') := by
  have hrun : (Program.rename (root.join (fileName ++ ".tmp")) (pathFor root)).run m =
      m.onDisk (Machine.barring m.diskFaults.rename
        (m.disk.rename (root.join (fileName ++ ".tmp")) (root.join fileName))) := rfl
  rw [hrun]
  cases m.diskFaults.rename with
  | some cause => exact .inl ⟨cause, rfl, rfl⟩
  | none =>
    obtain ⟨disk, hdisk, hfill⟩ := h.rename_file draftName_mem fileName_mem hdraft
    rw [hdisk]
    refine .inr ⟨rfl, _, rfl, (h.drop draftName_mem).filled fileName_mem hfill, ?_, ?_, rfl, rfl, rfl⟩
    · show disk.content? _ = _
      rw [hfill.content?, if_pos rfl]
    · show disk.node? _ = _
      rw [hfill.2 _ fun he => fileName_ne_lockName (Disk.child_inj he).symm,
        Disk.node?_drop _ _ _ (Disk.child_ne_root dir _),
        if_neg fun he => draftName_ne_lockName (Disk.child_inj he).symm]

/-- What the store file holds after the changes of a store were to be written. -/
def written (s : Store) (faults : DiskFaults) (content : Option Bytes) : Option Bytes :=
  if s.dirty = true ∧ faults.canWrite then some (StoreDocument.content s.links) else content

theorem written_clean {s : Store} (hclean : s.dirty = false) (f : DiskFaults) (content : Option Bytes) :
    s.written f content = content :=
  if_neg fun hboth => by cases hclean.symm.trans hboth.1

theorem written_barred {f : DiskFaults} (hcannot : ¬ f.canWrite) (s : Store) (content : Option Bytes) :
    s.written f content = content :=
  if_neg fun hboth => hcannot hboth.2

/-- Writing replaces the content of the store file, or fails and leaves it, whichever request fails. -/
theorem run_save {s : Store} (h : m.disk.Hosts root dir) (hs : s.path = pathFor root) :
    ∃ result m', s.save.run m = (result, m') ∧
      ((m.diskFaults.canWrite ∧ result = .ok () ∧
          m.Rewritten root dir (some (StoreDocument.content s.links)) m') ∨
        (¬ m.diskFaults.canWrite ∧ Barred result ∧
          m.Rewritten root dir (m.disk.content? (dir.child fileName)) m')) := by
  -- Only the last of the three requests touches the store file.
  unfold save
  rw [draftPath_eq hs, hs, Program.run_bind]
  rcases run_create h with ⟨cause, hfault, hrun⟩ | ⟨hcreate, m₁, hrun, h₁, hdraft₁⟩
  · rw [hrun]
    exact ⟨_, m, rfl, .inr ⟨fun hcan => (by cases hfault.symm.trans hcan.1), .store .., rewritten_refl h⟩⟩
  rw [hrun]
  dsimp only
  rw [Program.run_bind]
  rcases run_write h₁.hosts hdraft₁ (StoreDocument.content s.links) with
    ⟨cause, hfault, hrun⟩ | ⟨hwrite, m₂, hrun, h₂, hdraft₂⟩
  · rw [h₁.faults] at hfault
    rw [hrun]
    exact ⟨_, m₁, rfl, .inr ⟨fun hcan => (by cases hfault.symm.trans hcan.2.1), .store .., h₁⟩⟩
  have h₂ := h₁.trans h₂
  rw [hrun]
  dsimp only
  rw [Program.run_bind]
  rcases run_rename h₂.hosts hdraft₂ with ⟨cause, hfault, hrun⟩ | ⟨hrename, m₃, hrun, h₃⟩
  · rw [h₂.faults] at hfault
    rw [hrun]
    rw [h₁.content] at h₂
    exact ⟨_, m₂, rfl, .inr ⟨fun hcan => (by cases hfault.symm.trans hcan.2.2), .store .., h₂⟩⟩
  · rw [h₁.faults] at hwrite
    rw [h₂.faults] at hrename
    rw [hrun]
    exact ⟨_, m₃, rfl, .inl ⟨⟨hcreate, hwrite, hrename⟩, rfl, h₂.trans h₃⟩⟩

/-- Flushing writes the changes and clears the flag. A store that has none touches nothing, and one that
    cannot be written stays as it was. -/
theorem run_flush_hosts {s : Store} (h : m.disk.Hosts root dir) (hs : s.path = pathFor root) :
    ∃ result m', s.flush.run m =
        ((result, if m.diskFaults.canWrite then { s with dirty := false } else s), m') ∧
      m.Rewritten root dir (s.written m.diskFaults (m.disk.content? (dir.child fileName))) m' ∧
      ((s.dirty = true → m.diskFaults.canWrite) ∧ result = .ok () ∨
        s.dirty = true ∧ ¬ m.diskFaults.canWrite ∧ Barred result) := by
  unfold flush written
  cases hdirty : s.dirty with
  | false =>
    have hclean : { s with dirty := false } = s := by rw [← hdirty]
    simp only [Bool.false_eq_true, false_and, if_false, hclean, ite_self]
    exact ⟨_, m, rfl, rewritten_refl h, .inl ⟨fun hfalse => (by cases hfalse), rfl⟩⟩
  | true =>
    obtain ⟨result, m', hrun, hcases⟩ := run_save h hs
    rw [if_pos rfl, Program.run_bind, hrun]
    rcases hcases with ⟨hcan, rfl, h'⟩ | ⟨hcannot, hbarred, h'⟩
    · rw [if_pos hcan, if_pos ⟨rfl, hcan⟩]
      exact ⟨_, m', rfl, h', .inl ⟨fun _ => hcan, rfl⟩⟩
    · rw [if_neg hcannot, if_neg fun hboth => hcannot hboth.2]
      cases hbarred
      exact ⟨_, m', rfl, h', .inr ⟨rfl, hcannot, .store ..⟩⟩

theorem run_flush {s : Store} (h : m.Holds root dir content lock) (hs : s.path = pathFor root) :
    ∃ result m', s.flush.run m =
        ((result, if m.diskFaults.canWrite then { s with dirty := false } else s), m') ∧
      m'.diskFaults = m.diskFaults ∧ m'.Holds root dir (s.written m.diskFaults content) lock ∧
      ((s.dirty = true → m.diskFaults.canWrite) ∧ result = .ok () ∨
        s.dirty = true ∧ ¬ m.diskFaults.canWrite ∧ Barred result) := by
  obtain ⟨result, m', hrun, h', hcases⟩ := run_flush_hosts h.hosts hs
  rw [h.content] at h'
  exact ⟨result, m', hrun, h'.faults, h.rewritten h', hcases⟩

/-- Closing flushes and lets the lock go. -/
theorem run_close_hosts {s : Store} (h : m.disk.Hosts root dir) (hs : s.path = pathFor root) :
    ∃ m', s.close.run m = ((), m'.released s.lock) ∧
      m.Rewritten root dir (s.written m.diskFaults (m.disk.content? (dir.child fileName))) m' := by
  obtain ⟨result, m', hflush, h', -⟩ := run_flush_hosts h hs
  refine ⟨m', ?_, h'⟩
  rw [close, Program.run_bind, hflush, run_release]

theorem run_close {s : Store} (h : m.Holds root dir content s.lock) (hs : s.path = pathFor root) :
    ∃ m', s.close.run m = ((), m') ∧ m'.diskFaults = m.diskFaults ∧
      m'.Holds root dir (s.written m.diskFaults content) none := by
  obtain ⟨m', hrun, h'⟩ := run_close_hosts h.hosts hs
  rw [h.content] at h'
  exact ⟨_, hrun, (faults_released m' s.lock).trans h'.faults, holds_released (h.rewritten h')⟩

/-- Closing a store without changes only lets the lock go. -/
theorem run_close_clean {s : Store} (h : m.Holds root dir content s.lock) (hs : s.path = pathFor root)
    (hclean : s.dirty = false) :
    ∃ m', s.close.run m = ((), m') ∧ m'.diskFaults = m.diskFaults ∧ m'.Holds root dir content none := by
  obtain ⟨m', hrun, hsame, h'⟩ := run_close h hs
  rw [written, if_neg fun hboth => (by cases hclean.symm.trans hboth.1)] at h'
  exact ⟨m', hrun, hsame, h'⟩

end Store

end KeyChain
