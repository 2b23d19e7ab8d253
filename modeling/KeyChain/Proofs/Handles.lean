import KeyChain.Proofs.CallAtomicity
import KeyChain.Proofs.LoopCalls
import KeyChain.Proofs.WriteOnce
/-! Stores of one root that are open side by side. Each holds a lock on the root's lock file, shared or exclusive,
   and remembers the links that it has read. No update is lost: who writes is alone, has read what was written
   last, and keeps the lock until it is done.

   1. `Machine.Locked`: an exclusive lock is the only one, and taking and releasing locks keeps it so;
   2. `Desk.Sound.step`: one step of any handle keeps every handle in agreement with the file, up to the
      operations that it has not written;
   3. `Desk.Reached.sound`: so does any number of steps;
   4. `handles_serial`: what is written forms one history, in the order in which the locks were granted. -/
namespace KeyChain

open Store (fileName pathFor)

/-! Locks. -/

/-- Whether all locks that are held are on the lock file of a root, the latest first, and an exclusive one is
    held alone. -/
structure Machine.Locked (m : Machine) (root : Path) (dir : Location) : Prop where
  hosts : m.disk.Hosts root dir
  serials : ∀ l ∈ m.locks, ∃ content,
    m.disk.node? (dir.child (fileName ++ ".lock")) = some (.file l.serial content)
  latest : m.locks.Pairwise fun l l' => l'.id.number < l.id.number
  fresh : ∀ l ∈ m.locks, l.id.number < m.nextLock
  alone : ∀ l ∈ m.locks, l.mode = .exclusive → m.locks = [l]

/-- Whether a lock is free to be taken beside those of some modes. -/
def LockMode.Free : LockMode → List LockMode → Prop
  | .shared, held => ∀ mode ∈ held, mode = .shared
  | .exclusive, held => held = []

namespace Machine.Locked

variable {m m' : Machine} {root : Path} {dir : Location} {disk : Disk} {serial : Nat}

theorem serial_eq (h : m.Locked root dir)
    (hopen : m.disk.Opened disk (dir.child (fileName ++ ".lock")) serial) {l : HeldLock} (hl : l ∈ m.locks) :
    l.serial = serial := by
  obtain ⟨content, hfile⟩ := h.serials l hl
  exact hopen.same _ _ hfile

/-- A lock is granted exactly if it is free. -/
theorem grants_iff (h : m.Locked root dir)
    (hopen : m.disk.Opened disk (dir.child (fileName ++ ".lock")) serial) (mode : LockMode) :
    m.grants serial mode = true ↔ mode.Free (m.locks.map HeldLock.mode) := by
  cases mode with
  | shared =>
    simp only [grants, LockMode.Free, List.all_eq_true, List.mem_map, forall_exists_index, and_imp,
      forall_apply_eq_imp_iff₂]
    refine forall₂_congr fun l hl => ?_
    simp [h.serial_eq hopen hl]
  | exclusive =>
    simp only [grants, LockMode.Free, List.all_eq_true, List.map_eq_nil_iff]
    constructor
    · intro hne
      refine List.eq_nil_iff_forall_not_mem.2 fun l hl => ?_
      simpa [h.serial_eq hopen hl] using hne l hl
    · intro hnone l hl
      rw [hnone] at hl
      cases hl

theorem opened (h : m.Locked root dir)
    (hopen : m.disk.Opened disk (dir.child (fileName ++ ".lock")) serial) :
    ({ m with disk := disk } : Machine).Locked root dir := by
  refine ⟨h.hosts.opened Store.lockName_mem hopen, fun l hl => ?_, h.latest, h.fresh, h.alone⟩
  rw [h.serial_eq hopen hl]
  exact hopen.file

/-- Taking a lock, or failing to. -/
theorem acquired (h : m.Locked root dir) {mode : LockMode} {result : Except KeychainError (Option LockId)}
    (hacquired : Store.Acquired m root dir mode result m') : m'.Locked root dir := by
  cases hacquired with
  | refused => exact h
  | without => exact h
  | busy _ hopen => exact h.opened hopen
  | granted _ hopen hgrants =>
    have hopened := h.opened hopen
    have hfree := (h.grants_iff hopen mode).1 hgrants
    refine ⟨hopened.hosts, fun l hl => ?_, List.pairwise_cons.2 ⟨h.fresh, h.latest⟩, fun l hl => ?_,
      fun l hl hmode => ?_⟩
    · rcases List.mem_cons.1 hl with rfl | hold
      · exact hopen.file
      · exact hopened.serials l hold
    · rcases List.mem_cons.1 hl with rfl | hold
      · exact Nat.lt_succ_self _
      · exact Nat.lt_succ_of_lt (h.fresh l hold)
    · rcases List.mem_cons.1 hl with rfl | hold
      · obtain rfl : mode = .exclusive := hmode
        exact congrArg _ (List.map_eq_nil_iff.1 hfree)
      · -- Beside an exclusive lock none is free.
        cases mode with
        | shared =>
          have hshared := hfree l.mode (List.mem_map_of_mem hold)
          cases hmode.symm.trans hshared
        | exclusive =>
          rw [List.map_eq_nil_iff.1 hfree] at hold
          cases hold

theorem released (h : m.Locked root dir) (lock : Option LockId) : (m.released lock).Locked root dir := by
  cases lock with
  | none => exact h
  | some lock =>
    refine ⟨h.hosts, fun l hl => h.serials l (List.mem_filter.1 hl).1, h.latest.filter _,
      fun l hl => h.fresh l (List.mem_filter.1 hl).1, fun l hl hmode => ?_⟩
    obtain ⟨hheld, hother⟩ := List.mem_filter.1 hl
    show m.locks.filter (fun l => l.id != lock) = [l]
    rw [h.alone l hheld hmode, List.filter_cons, if_pos hother, List.filter_nil]

theorem rewritten {content : Option Bytes} (h : m.Locked root dir) (h' : m.Rewritten root dir content m') :
    m'.Locked root dir := by
  refine ⟨h'.hosts, ?_, ?_, ?_, ?_⟩
  · rw [h'.locks, h'.lockFile]
    exact h.serials
  · rw [h'.locks]
    exact h.latest
  · rw [h'.locks, h'.nextLock]
    exact h.fresh
  · rw [h'.locks]
    exact h.alone

end Machine.Locked

/-! Operations one after the other. -/

namespace Store

variable {s t : Store}

/-- The store after operations. -/
def done (s : Store) (deeds : List Deed) : Store := deeds.foldl after s

theorem done_append (s : Store) (deeds : List Deed) (d : Deed) : s.done (deeds ++ [d]) = (s.done deeds).after d :=
  List.foldl_append

theorem done_edited (s : Store) (deeds : List Deed) : s.Edited (s.done deeds) := by
  induction deeds generalizing s with
  | nil => exact .refl s
  | cons d rest ih => exact (s.after_edited d).trans (ih (s.after d))

theorem done_shared (hs : s.mode = .shared) (deeds : List Deed) : s.done deeds = s := by
  induction deeds with
  | nil => rfl
  | cons d rest ih => rw [done, List.foldl_cons, after_shared hs, ← done, ih]

theorem insertOn_alike (h : s.bare = t.bare) (id : KeyId) (record : Record) :
    (s.insertOn id record).2.bare = (t.insertOn id record).2.bare := by
  obtain ⟨path, links, mode, dirty, dirty', lock, lock', rfl, rfl⟩ := exists_of_bare h
  unfold insertOn insert ensureWritable lookup?
  cases mode with
  | shared => rfl
  | exclusive => cases links.get? id <;> rfl

theorem removeOn_alike (h : s.bare = t.bare) (id : KeyId) : (s.removeOn id).2.bare = (t.removeOn id).2.bare := by
  obtain ⟨path, links, mode, dirty, dirty', lock, lock', rfl, rfl⟩ := exists_of_bare h
  unfold removeOn remove ensureWritable lookup?
  cases mode with
  | shared => rfl
  | exclusive => cases links.get? id <;> rfl

/-- What a store remembers of its file has no say in an operation. -/
theorem after_alike (h : s.bare = t.bare) (d : Deed) : (s.after d).bare = (t.after d).bare := by
  cases d with
  | insertLink parent child source => exact (insertLinkOn_alike h parent child source).2.1
  | addLink parent target source => exact (addLinkOn_alike h parent target source).2.1
  | deleteChain chain scope => exact (deleteChain_alike h chain scope).2
  | inject count source => exact (inject_alike h count source).2.1
  | deleteLink parent required =>
    rw [after, after, deleteLinkOn_store, deleteLinkOn_store]
    exact removeOn_alike h parent.id
  | insert id record => exact insertOn_alike h id record
  | remove id => exact removeOn_alike h id

theorem done_alike (h : s.bare = t.bare) (deeds : List Deed) : (s.done deeds).bare = (t.done deeds).bare := by
  induction deeds generalizing s t with
  | nil => exact h
  | cons d rest ih => exact ih (after_alike h d)

end Store

/-! Handles. -/

/-- A store that is open under a lock, with the operations on it that its file does not have. -/
structure Handle where
  lock : LockId
  store : Store
  pending : List Deed

/-- Operations that were written to the file at once, under a lock. -/
structure Commit where
  lock : LockId
  deeds : List Deed

/-- A machine, the stores of one root that are open on it, and what they have written. -/
structure Desk where
  machine : Machine
  handles : List Handle
  commits : List Commit

/-- What a flush of a handle writes, if it ends with this result. -/
def Handle.commit (h : Handle) (result : Except KeychainError Unit) : List Commit :=
  if h.store.dirty = true ∧ result.isOk = true then [⟨h.lock, h.pending⟩] else []

namespace Desk

/-- One step on a desk. The disk refuses what it likes while it is made. A store that is opened without a lock,
    because no lock file can be made, is no handle: nothing can be written there. -/
inductive Step (root : Path) : Desk → Desk → Prop where
  | opens {desk : Desk} {mode : LockMode} {refusals : Refusals} {store : Store} {lock : LockId} {m' : Machine}
    (hrun : (Store.openAt root mode).run (desk.machine.facing refusals) = (.ok store, m'))
    (hlock : store.lock = some lock) : Step root desk ⟨m', ⟨lock, store, []⟩ :: desk.handles, desk.commits⟩
  | fails {desk : Desk} {mode : LockMode} {refusals : Refusals} {e : KeychainError} {m' : Machine}
    (hrun : (Store.openAt root mode).run (desk.machine.facing refusals) = (.error e, m')) :
    Step root desk { desk with machine := m' }
  | acts {m : Machine} {before after : List Handle} {h : Handle} {commits : List Commit} (d : Deed) :
    Step root ⟨m, before ++ h :: after, commits⟩
      ⟨m, before ++ { h with store := h.store.after d, pending := h.pending ++ [d] } :: after, commits⟩
  | flushes {m m' : Machine} {before after : List Handle} {h : Handle} {commits : List Commit}
    {refusals : Refusals} {result : Except KeychainError Unit} {store : Store}
    (hrun : h.store.flush.run (m.facing refusals) = ((result, store), m')) :
    Step root ⟨m, before ++ h :: after, commits⟩
      ⟨m', before ++ ⟨h.lock, store, if result.isOk then [] else h.pending⟩ :: after, commits ++ h.commit result⟩
  | closes {m m' : Machine} {before after : List Handle} {h : Handle} {commits : List Commit}
    {refusals : Refusals} (hrun : h.store.close.run (m.facing refusals) = ((), m')) :
    Step root ⟨m, before ++ h :: after, commits⟩
      ⟨m', before ++ after, commits ++ h.commit (h.store.flush.run (m.facing refusals)).1.1⟩

/-- What can become of a machine on which no store of the root is open. -/
inductive Reached (root : Path) (m : Machine) : Desk → Prop where
  | start : Reached root m ⟨m, [], []⟩
  | step {desk next : Desk} (h : Reached root m desk) (hstep : Step root desk next) : Reached root m next

/-- The links after what was written. -/
def written (root : Path) (links : Links) (commits : List Commit) : Links :=
  commits.foldl (fun links c => ((Store.keeping root links).done c.deeds).links) links

/-- What the store file holds. -/
def content (dir : Location) (desk : Desk) : Option Bytes := desk.machine.disk.content? (dir.child fileName)

end Desk

/-- Whether a handle agrees with the content of the file, but for the operations that the file does not have. -/
def Handle.Current (root : Path) (content : Option Bytes) (h : Handle) : Prop :=
  ∃ links, Store.spelled (pathFor root) content = .ok links ∧
    h.store = (⟨pathFor root, links, false, h.store.mode, some h.lock⟩ : Store).done h.pending

namespace Handle.Current

variable {root : Path} {content : Option Bytes} {h : Handle}

theorem path (hcurrent : h.Current root content) : h.store.path = pathFor root := by
  obtain ⟨links, -, hstore⟩ := hcurrent
  rw [hstore]
  exact (Store.done_edited _ _).path

theorem lock (hcurrent : h.Current root content) : h.store.lock = some h.lock := by
  obtain ⟨links, -, hstore⟩ := hcurrent
  rw [hstore]
  exact (Store.done_edited _ _).lock

/-- A handle without changes has the links of the file. -/
theorem clean (hcurrent : h.Current root content) (hclean : h.store.dirty = false) :
    Store.spelled (pathFor root) content = .ok h.store.links ∧
      h.store = ⟨pathFor root, h.store.links, false, h.store.mode, some h.lock⟩ := by
  have hlock := hcurrent.lock
  have hpath := hcurrent.path
  obtain ⟨links, hlinks, hstore⟩ := hcurrent
  refine ⟨?_, by rw [← hpath, ← hlock, ← hclean]⟩
  have hedited := (⟨pathFor root, links, false, h.store.mode, some h.lock⟩ : Store).done_edited h.pending
  rw [← hstore] at hedited
  rw [hedited.links_eq hclean, hlinks]

/-- A shared handle has no changes, and no operation makes any. -/
theorem shared (hcurrent : h.Current root content) (hmode : h.store.mode = .shared) : h.store.dirty = false := by
  obtain ⟨links, -, hstore⟩ := hcurrent
  exact congrArg Store.dirty (hstore.trans (Store.done_shared (by exact hmode) h.pending))

/-- An operation is one more that the file does not have. -/
theorem after (hcurrent : h.Current root content) (d : Deed) :
    ({ h with store := h.store.after d, pending := h.pending ++ [d] } : Handle).Current root content := by
  obtain ⟨links, hlinks, hstore⟩ := hcurrent
  refine ⟨links, hlinks, ?_⟩
  dsimp only
  rw [(h.store.after_edited d).mode, Store.done_append, ← hstore]

/-- After its changes were written a handle agrees with what was written. -/
theorem flushed (hcurrent : h.Current root content) :
    (⟨h.lock, { h.store with dirty := false }, []⟩ : Handle).Current root
      (some (StoreDocument.content h.store.links)) := by
  refine ⟨h.store.links, Store.spelled_content _ _, ?_⟩
  dsimp only [Store.done, List.foldl_nil]
  rw [hcurrent.path, hcurrent.lock]

end Handle.Current

/-- Applied to what the commits before it have written, the operations of an exclusive handle give its links. -/
theorem Handle.Current.written_commit {root : Path} {content origin : Option Bytes} {h : Handle}
    {commits : List Commit} (hcurrent : h.Current root content)
    (hhistory : Store.spelled (pathFor root) content =
      (Store.spelled (pathFor root) origin).map fun links => Desk.written root links commits)
    (hmode : h.store.mode = .exclusive) :
    ((Store.spelled (pathFor root) origin).map fun links =>
      Desk.written root links (commits ++ [⟨h.lock, h.pending⟩])) = .ok h.store.links := by
  obtain ⟨links, hlinks, hstore⟩ := hcurrent
  rw [hhistory] at hlinks
  cases horigin : Store.spelled (pathFor root) origin with
  | error e =>
    rw [horigin] at hlinks
    cases hlinks
  | ok first =>
    rw [horigin] at hlinks
    obtain rfl := Except.ok.inj hlinks
    have halike : (Store.keeping root (Desk.written root first commits)).bare =
        (⟨pathFor root, Desk.written root first commits, false, h.store.mode, some h.lock⟩ : Store).bare := by
      rw [hmode]
      rfl
    have hdone := Store.links_eq_of_bare (Store.done_alike halike h.pending)
    rw [← hstore] at hdone
    refine congrArg Except.ok (Eq.trans ?_ hdone)
    exact List.foldl_append

namespace Desk

/-- Whether the handles on a desk are in order: every one holds its lock and no other lock is held; every one
    agrees with the file; and the file is what the commits have made of it, which were written in the order
    of their locks. -/
structure Sound (root : Path) (dir : Location) (origin : Option Bytes) (desk : Desk) : Prop where
  locked : desk.machine.Locked root dir
  held : desk.machine.locks.map (fun l => (l.id, l.mode)) = desk.handles.map fun h => (h.lock, h.store.mode)
  current : ∀ h ∈ desk.handles, h.Current root (desk.content dir)
  history : Store.spelled (pathFor root) (desk.content dir) =
    (Store.spelled (pathFor root) origin).map fun links => written root links desk.commits
  ordered : desk.commits.Pairwise fun c c' => c.lock.number ≤ c'.lock.number
  granted : ∀ c ∈ desk.commits, c.lock.number < desk.machine.nextLock
  latest : ∀ h ∈ desk.handles, h.store.mode = .exclusive → ∀ c ∈ desk.commits, c.lock.number ≤ h.lock.number

variable {root : Path} {dir : Location} {origin : Option Bytes} {desk : Desk}
  {m m' : Machine} {before after : List Handle} {h : Handle} {commits : List Commit}

namespace Sound

/-- The lock of a handle is held, in the mode of its store. -/
theorem exists_held (hsound : desk.Sound root dir origin) (hh : h ∈ desk.handles) :
    ∃ l ∈ desk.machine.locks, l.id = h.lock ∧ l.mode = h.store.mode := by
  have hmem : (h.lock, h.store.mode) ∈ desk.machine.locks.map fun l => (l.id, l.mode) := by
    rw [hsound.held]
    exact List.mem_map_of_mem hh
  obtain ⟨l, hl, he⟩ := List.mem_map.1 hmem
  exact ⟨l, hl, Prod.mk.inj he⟩

/-- An exclusive handle is the only one. -/
theorem alone (hsound : desk.Sound root dir origin) (hh : h ∈ desk.handles) (hmode : h.store.mode = .exclusive) :
    desk.handles = [h] := by
  obtain ⟨l, hl, -, hmodes⟩ := hsound.exists_held hh
  have hone := hsound.locked.alone l hl (hmodes.trans hmode)
  -- There are as many handles as locks, so one, and `h` is among them.
  have hlength : desk.handles.length = 1 := by
    have := congrArg List.length hsound.held
    rw [List.length_map, List.length_map, hone] at this
    exact this.symm
  obtain ⟨h', hh'⟩ := List.length_eq_one_iff.1 hlength
  rw [hh'] at hh ⊢
  rw [List.mem_singleton.1 hh]

theorem modes (hsound : desk.Sound root dir origin) :
    desk.machine.locks.map HeldLock.mode = desk.handles.map fun h => h.store.mode := by
  have hmap := congrArg (List.map Prod.snd) hsound.held
  rw [List.map_map, List.map_map] at hmap
  exact hmap

theorem facing (hsound : desk.Sound root dir origin) (refusals : Refusals) :
    ({ desk with machine := desk.machine.facing refusals } : Desk).Sound root dir origin := by
  have hlocked : (desk.machine.facing refusals).Locked root dir :=
    ⟨hsound.locked.hosts, hsound.locked.serials, hsound.locked.latest, hsound.locked.fresh, hsound.locked.alone⟩
  exact ⟨hlocked, hsound.held, hsound.current, hsound.history, hsound.ordered, hsound.granted, hsound.latest⟩

/-- Other locks and another lock file leave the handles in order, as long as the handles hold the locks. -/
theorem relocked (hsound : desk.Sound root dir origin) (hlocked : m'.Locked root dir)
    (hlocks : m'.locks = desk.machine.locks) (hnext : desk.machine.nextLock ≤ m'.nextLock)
    (hcontent : m'.disk.content? (dir.child fileName) = desk.content dir) :
    ({ desk with machine := m' } : Desk).Sound root dir origin := by
  have hsame : ({ desk with machine := m' } : Desk).content dir = desk.content dir := hcontent
  refine ⟨hlocked, ?_, ?_, ?_, hsound.ordered,
    fun c hc => Nat.lt_of_lt_of_le (hsound.granted c hc) hnext, hsound.latest⟩
  · dsimp only
    rw [hlocks, hsound.held]
  · rw [hsame]
    exact hsound.current
  · rw [hsame]
    exact hsound.history

/-! Opening. -/

/-- A store that is opened under a lock has been granted it, and has the links of the file. -/
theorem openAt_ok (hsound : desk.Sound root dir origin) {mode : LockMode} {refusals : Refusals} {store : Store}
    {lock : LockId} (hrun : (Store.openAt root mode).run (desk.machine.facing refusals) = (.ok store, m'))
    (hlock : store.lock = some lock) :
    Store.Acquired (desk.machine.facing refusals) root dir mode (.ok (some lock)) m' ∧
      ∃ links, Store.spelled (pathFor root) (desk.content dir) = .ok links ∧
        store = ⟨pathFor root, links, false, mode, some lock⟩ := by
  have hkeeps := (hsound.facing refusals).locked.hosts.keeps
  obtain ⟨taken, links, hacquired, hspelled, rfl⟩ := Store.openAt_ok hkeeps refusals.honest hrun
  obtain rfl : taken = some lock := hlock
  exact ⟨hacquired, links, hspelled, rfl⟩

/-- A lock that was granted was free. -/
theorem free_of_acquired (hsound : desk.Sound root dir origin) {mode : LockMode} {refusals : Refusals}
    {lock : LockId} (hacquired : Store.Acquired (desk.machine.facing refusals) root dir mode (.ok (some lock)) m') :
    mode.Free (desk.handles.map fun h => h.store.mode) := by
  rw [← hsound.modes]
  cases hacquired with
  | granted _ hopen hgrants => exact ((hsound.facing refusals).locked.grants_iff hopen mode).1 hgrants

theorem opened (hsound : desk.Sound root dir origin) {mode : LockMode} {refusals : Refusals} {store : Store}
    {lock : LockId} (hrun : (Store.openAt root mode).run (desk.machine.facing refusals) = (.ok store, m'))
    (hlock : store.lock = some lock) :
    (⟨m', ⟨lock, store, []⟩ :: desk.handles, desk.commits⟩ : Desk).Sound root dir origin := by
  obtain ⟨hacquired, links, hspelled, rfl⟩ := hsound.openAt_ok hrun hlock
  have hfacing := hsound.facing refusals
  obtain ⟨-, hcontent⟩ := hacquired.hosts hfacing.locked.hosts
  have hlocked := hfacing.locked.acquired hacquired
  cases hacquired with
  | granted =>
    -- The lock is newer than any that was given before, so than those of the commits.
    refine ⟨hlocked, congrArg _ hsound.held, ?_, ?_, hsound.ordered,
      fun c hc => Nat.lt_succ_of_lt (hsound.granted c hc), ?_⟩
    · intro h hh
      rw [content, hcontent]
      rcases List.mem_cons.1 hh with rfl | hh
      · exact ⟨links, hspelled, rfl⟩
      · exact hsound.current h hh
    · rw [content, hcontent]
      exact hsound.history
    · intro h hh hmode c hc
      rcases List.mem_cons.1 hh with rfl | hh
      · exact Nat.le_of_lt (hsound.granted c hc)
      · exact hsound.latest h hh hmode c hc

/-- A store is not opened, and maybe a lock was taken on the way and let go again. -/
theorem failed (hsound : desk.Sound root dir origin) {mode : LockMode} {refusals : Refusals} {e : KeychainError}
    (hrun : (Store.openAt root mode).run (desk.machine.facing refusals) = (.error e, m')) :
    ({ desk with machine := m' } : Desk).Sound root dir origin := by
  have hfacing := hsound.facing refusals
  obtain ⟨acquired, m₁, hacquired, hopen⟩ := Store.run_openAt_hosts hfacing.locked.hosts mode
  obtain ⟨-, hcontent⟩ := hacquired.hosts hfacing.locked.hosts
  have hlocked := hfacing.locked.acquired hacquired
  rw [hrun] at hopen
  cases acquired with
  | error e' =>
    cases hopen
    refine hsound.relocked hlocked ?_ ?_ hcontent
    · cases hacquired <;> rfl
    · cases hacquired <;> exact Nat.le_refl _
  | ok taken =>
    dsimp only at hopen
    cases hloaded : Store.loaded (pathFor root) (desk.machine.facing refusals).diskFaults
        ((desk.machine.facing refusals).disk.content? (dir.child fileName)) with
    | ok links => rw [hloaded] at hopen; cases hopen
    | error e' =>
      rw [hloaded] at hopen
      cases hopen
      refine hsound.relocked (hlocked.released taken) ?_ ?_ ?_
      · cases hacquired with
        | without => rfl
        | granted =>
          -- No older lock has the number of the one that was taken.
          dsimp only [Machine.released]
          rw [List.filter_cons, if_neg (by simp)]
          refine List.filter_eq_self.2 fun l hl => ?_
          have hlt := hsound.locked.fresh l hl
          refine bne_iff_ne.2 fun he => ?_
          rw [he] at hlt
          exact Nat.lt_irrefl _ hlt
      · cases hacquired with
        | without => exact Nat.le_refl _
        | granted => exact Nat.le_succ _
      · rw [Store.disk_released]
        exact hcontent

/-! Working, writing and closing. -/

theorem mem_split {h' : Handle} (hh : h' ∈ before ++ h :: after) : h' = h ∨ h' ∈ before ++ after := by
  rcases List.mem_append.1 hh with hbefore | hafter
  · exact .inr (List.mem_append_left _ hbefore)
  · rcases List.mem_cons.1 hafter with rfl | hafter
    · exact .inl rfl
    · exact .inr (List.mem_append_right _ hafter)

theorem mem_of_others {h' : Handle} (hh : h' ∈ before ++ after) : h' ∈ before ++ h :: after :=
  List.mem_append.2 ((List.mem_append.1 hh).imp_right (List.mem_cons_of_mem _))

/-- A handle can take the place of another with the same lock and mode. -/
theorem replaced (hsound : (⟨m, before ++ h :: after, commits⟩ : Desk).Sound root dir origin) {h' : Handle}
    (hlock : h'.lock = h.lock) (hmode : h'.store.mode = h.store.mode)
    (hcurrent : h'.Current root (m.disk.content? (dir.child fileName))) :
    (⟨m, before ++ h' :: after, commits⟩ : Desk).Sound root dir origin := by
  refine ⟨hsound.locked, ?_, ?_, hsound.history, hsound.ordered, hsound.granted, ?_⟩
  · rw [hsound.held]
    dsimp only
    rw [List.map_append, List.map_append, List.map_cons, List.map_cons, hlock, hmode]
  · intro other hother
    rcases mem_split hother with rfl | hother
    · exact hcurrent
    · exact hsound.current other (mem_of_others hother)
  · intro other hother hexclusive
    rcases mem_split hother with rfl | hother
    · rw [hlock]
      exact hsound.latest h (List.mem_append_right _ List.mem_cons_self) (hmode.symm.trans hexclusive)
    · exact hsound.latest other (mem_of_others hother) hexclusive

theorem acted (hsound : (⟨m, before ++ h :: after, commits⟩ : Desk).Sound root dir origin) (d : Deed) :
    (⟨m, before ++ { h with store := h.store.after d, pending := h.pending ++ [d] } :: after, commits⟩ : Desk).Sound
      root dir origin :=
  hsound.replaced rfl (h.store.after_edited d).mode
    ((hsound.current h (List.mem_append_right _ List.mem_cons_self)).after d)

/-- A flush that writes is one of an exclusive handle, and so of the only one. -/
theorem written_alone (hsound : (⟨m, before ++ h :: after, commits⟩ : Desk).Sound root dir origin)
    (hdirty : h.store.dirty = true) : h.store.mode = .exclusive ∧ before = [] ∧ after = [] := by
  have hmem : h ∈ before ++ h :: after := List.mem_append_right _ List.mem_cons_self
  have hmode : h.store.mode = .exclusive := by
    cases hmode : h.store.mode with
    | exclusive => rfl
    | shared => cases hdirty.symm.trans ((hsound.current h hmem).shared hmode)
  have hone : before ++ h :: after = [h] := hsound.alone hmem hmode
  refine ⟨hmode, ?_⟩
  cases before with
  | nil => exact ⟨rfl, (List.cons.inj hone).2⟩
  | cons first rest => simp at hone

/-- The number of a lock is below those that are still to be given. -/
theorem lock_lt (hsound : desk.Sound root dir origin) (hh : h ∈ desk.handles) :
    h.lock.number < desk.machine.nextLock := by
  obtain ⟨l, hl, hid, -⟩ := hsound.exists_held hh
  rw [← hid]
  exact hsound.locked.fresh l hl

/-- What is written at once takes the file from what the handle had read to what it has. -/
theorem committed {refusals : Refusals}
    (hsound : (⟨m, before ++ h :: after, commits⟩ : Desk).Sound root dir origin) (hdirty : h.store.dirty = true)
    (hlocked : m'.Locked root dir)
    (hrewritten : (m.facing refusals).Rewritten root dir (some (StoreDocument.content h.store.links)) m') :
    (⟨m', before ++ ⟨h.lock, { h.store with dirty := false }, []⟩ :: after, commits ++ [⟨h.lock, h.pending⟩]⟩ :
      Desk).Sound root dir origin := by
  have hmem : h ∈ before ++ h :: after := List.mem_append_right _ List.mem_cons_self
  have hcurrent := hsound.current h hmem
  obtain ⟨hmode, rfl, rfl⟩ := hsound.written_alone hdirty
  have hcontent : ∀ handles commits, (⟨m', handles, commits⟩ : Desk).content dir =
      some (StoreDocument.content h.store.links) := fun _ _ => hrewritten.content
  have hheld := hsound.held
  have hnewest : ∀ c ∈ commits ++ [⟨h.lock, h.pending⟩], c.lock.number ≤ h.lock.number := by
    intro c hc
    rcases List.mem_append.1 hc with hc | hc
    · exact hsound.latest h hmem hmode c hc
    · obtain rfl := List.mem_singleton.1 hc
      exact Nat.le_refl _
  refine ⟨hlocked, ?_, ?_, ?_, ?_, ?_, ?_⟩
  · dsimp only
    rw [hrewritten.locks]
    exact hheld
  · -- No other handle is open that could have read what is overwritten.
    intro other hother
    obtain rfl := List.mem_singleton.1 hother
    rw [hcontent]
    exact hcurrent.flushed
  · rw [hcontent, Store.spelled_content, hcurrent.written_commit hsound.history hmode]
  · refine List.pairwise_append.2 ⟨hsound.ordered, List.pairwise_singleton _ _, fun c hc c' hc' => ?_⟩
    rw [List.mem_singleton.1 hc']
    exact hsound.latest h hmem hmode c hc
  · intro c hc
    dsimp only
    rw [hrewritten.nextLock]
    exact Nat.lt_of_le_of_lt (hnewest c hc) (hsound.lock_lt hmem)
  · intro other hother _
    obtain rfl := List.mem_singleton.1 hother
    exact hnewest

theorem flushed (hsound : (⟨m, before ++ h :: after, commits⟩ : Desk).Sound root dir origin)
    {refusals : Refusals} {result : Except KeychainError Unit} {store : Store}
    (hrun : h.store.flush.run (m.facing refusals) = ((result, store), m')) :
    (⟨m', before ++ ⟨h.lock, store, if result.isOk then [] else h.pending⟩ :: after, commits ++ h.commit result⟩ :
      Desk).Sound root dir origin := by
  have hmem : h ∈ before ++ h :: after := List.mem_append_right _ List.mem_cons_self
  have hcurrent := hsound.current h hmem
  have hlocked := (hsound.facing refusals).locked
  obtain ⟨result', m₁, hflush, hrewritten, hcases⟩ := Store.run_flush_hosts hlocked.hosts hcurrent.path
  rw [show h.store.flush.run _ = _ from hrun] at hflush
  cases hflush
  have hlocked' := hlocked.rewritten hrewritten
  cases hdirty : h.store.dirty with
  | false =>
    -- Nothing is written, and the operations that were pending have changed nothing.
    rw [Store.written_clean hdirty] at hrewritten
    have hresult : result = .ok () := by
      rcases hcases with ⟨-, hok⟩ | ⟨hdirty', -⟩
      · exact hok
      · cases hdirty.symm.trans hdirty'
    have hstore : (if (m.facing refusals).diskFaults.canWrite then { h.store with dirty := false } else h.store) =
        h.store := by
      split
      · rw [← hdirty]
      · rfl
    have hcommit : h.commit result = [] := if_neg fun hboth => by cases hdirty.symm.trans hboth.1
    have hrelocked := (hsound.facing refusals).relocked hlocked' hrewritten.locks
      (Nat.le_of_eq hrewritten.nextLock.symm) hrewritten.content
    obtain ⟨hspelled, hclean⟩ := hcurrent.clean hdirty
    rw [hstore, hcommit, List.append_nil, hresult]
    refine hrelocked.replaced rfl rfl ⟨h.store.links, ?_, hclean⟩
    rw [hrewritten.content]
    exact hspelled
  | true =>
    by_cases hcan : (m.facing refusals).diskFaults.canWrite
    · have hresult : result = .ok () := by
        rcases hcases with ⟨-, hok⟩ | ⟨-, hcannot, -⟩
        · exact hok
        · exact absurd hcan hcannot
      have hcommit : h.commit result = [⟨h.lock, h.pending⟩] := by
        rw [hresult]
        exact if_pos ⟨hdirty, rfl⟩
      rw [if_pos hcan, hcommit, hresult]
      rw [Store.written, if_pos ⟨hdirty, hcan⟩] at hrewritten
      exact hsound.committed hdirty hlocked' hrewritten
    · -- The operations stay pending, and the file is as it was.
      have hresult : result.isOk = false := by
        rcases hcases with ⟨hwrites, -⟩ | ⟨-, -, hbarred⟩
        · exact absurd (hwrites hdirty) hcan
        · cases hbarred
          rfl
      have hcommit : h.commit result = [] := if_neg fun hboth => by cases hresult.symm.trans hboth.2
      rw [Store.written_barred hcan] at hrewritten
      have hrelocked := (hsound.facing refusals).relocked hlocked' hrewritten.locks
        (Nat.le_of_eq hrewritten.nextLock.symm) hrewritten.content
      rw [if_neg hcan, hcommit, List.append_nil, hresult]
      exact hrelocked

/-- A handle lets its lock go. -/
theorem closed (hsound : (⟨m, before ++ h :: after, commits⟩ : Desk).Sound root dir origin) :
    (⟨m.released (some h.lock), before ++ after, commits⟩ : Desk).Sound root dir origin := by
  have hlatest : (before ++ h :: after).Pairwise fun h h' => h'.lock.number < h.lock.number := by
    have hmap : (m.locks.map fun l => (l.id, l.mode)).Pairwise fun p p' => p'.1.number < p.1.number :=
      List.pairwise_map.2 hsound.locked.latest
    rw [hsound.held] at hmap
    exact List.pairwise_map.1 hmap
  obtain ⟨-, hafter, hbefore⟩ := List.pairwise_append.1 hlatest
  obtain ⟨hafter, -⟩ := List.pairwise_cons.1 hafter
  -- No two locks have one number, so the handles of the other locks are the other handles.
  have hothers : (before ++ h :: after).filter (fun other => other.lock != h.lock) = before ++ after := by
    rw [List.filter_append, List.filter_cons, if_neg (by simp)]
    congr 1
    · refine List.filter_eq_self.2 fun other hother => bne_iff_ne.2 fun he => ?_
      have hlt := hbefore other hother h List.mem_cons_self
      rw [he] at hlt
      exact Nat.lt_irrefl _ hlt
    · refine List.filter_eq_self.2 fun other hother => bne_iff_ne.2 fun he => ?_
      have hlt := hafter other hother
      rw [he] at hlt
      exact Nat.lt_irrefl _ hlt
  refine ⟨hsound.locked.released (some h.lock), ?_, fun other hother => hsound.current other (mem_of_others hother),
    hsound.history, hsound.ordered, hsound.granted, fun other hother => hsound.latest other (mem_of_others hother)⟩
  have hheld := congrArg (List.filter fun p => p.1 != h.lock) hsound.held
  rw [List.filter_map, List.filter_map] at hheld
  dsimp only
  rw [← hothers]
  exact hheld

/-- Closing is flushing and letting the lock go. -/
theorem close_eq (hsound : (⟨m, before ++ h :: after, commits⟩ : Desk).Sound root dir origin) (m₀ : Machine) :
    h.store.close.run m₀ = ((), (h.store.flush.run m₀).2.released (some h.lock)) := by
  have hcurrent := hsound.current h (List.mem_append_right _ List.mem_cons_self)
  rw [Store.close, Program.run_bind, Store.run_release, hcurrent.lock]

/-- Every step leaves the handles in order. -/
theorem step {next : Desk} (hsound : desk.Sound root dir origin) (hstep : Step root desk next) :
    next.Sound root dir origin := by
  cases hstep with
  | opens hrun hlock => exact hsound.opened hrun hlock
  | fails hrun => exact hsound.failed hrun
  | acts d => exact hsound.acted d
  | flushes hrun => exact hsound.flushed hrun
  | closes hrun =>
    rw [hsound.close_eq] at hrun
    cases hrun
    exact (hsound.flushed rfl).closed

theorem start (h : m.Holds root dir origin none) : (⟨m, [], []⟩ : Desk).Sound root dir origin := by
  have hnone : ∀ l ∈ m.locks, False := fun l hl => by
    rw [h.locks_eq_nil] at hl
    cases hl
  have hlocked : m.Locked root dir := by
    refine ⟨h.hosts, fun l hl => (hnone l hl).elim, ?_, fun l hl => (hnone l hl).elim,
      fun l hl => (hnone l hl).elim⟩
    rw [h.locks_eq_nil]
    exact List.Pairwise.nil
  refine ⟨hlocked, ?_, fun h hh => (by cases hh), ?_, List.Pairwise.nil, fun c hc => (by cases hc),
    fun h hh => (by cases hh)⟩
  · dsimp only
    rw [h.locks_eq_nil]
    rfl
  · rw [content, h.content]
    cases Store.spelled (pathFor root) origin <;> rfl

end Sound

/-- So does any number of steps. -/
theorem Reached.sound (hreached : Reached root m desk) (h : m.Holds root dir origin none) :
    desk.Sound root dir origin := by
  induction hreached with
  | start => exact Sound.start h
  | step _ hstep ih => exact ih.step hstep

/-- A handle can always be closed. If nothing is refused, the operations that have changed it are written. -/
theorem Reached.closes (hreached : Reached root m ⟨m', before ++ h :: after, commits⟩)
    (hm : m.Holds root dir origin none) :
    ∃ m'', Reached root m
      ⟨m'', before ++ after, commits ++ if h.store.dirty then [⟨h.lock, h.pending⟩] else []⟩ := by
  have hsound := hreached.sound hm
  have hpath := (hsound.current h (List.mem_append_right _ List.mem_cons_self)).path
  obtain ⟨result, m₁, hflush, -, hcases⟩ := Store.run_flush_hosts (hsound.facing .none).locked.hosts hpath
  have hresult : result = .ok () := by
    rcases hcases with ⟨-, hok⟩ | ⟨-, hcannot, -⟩
    · exact hok
    · exact absurd ⟨rfl, rfl, rfl⟩ hcannot
  have hcommit : h.commit (h.store.flush.run (m'.facing .none)).1.1 =
      if h.store.dirty then [⟨h.lock, h.pending⟩] else [] := by
    rw [show h.store.flush.run (m'.facing .none) = _ from hflush, hresult]
    simp [Handle.commit, Except.isOk, Except.toBool]
  have hclosed := hreached.step (@Step.closes root m' _ before after h commits .none rfl)
  rw [hcommit] at hclosed
  exact ⟨_, hclosed⟩

/-! What follows for each handle. -/

namespace Sound

/-- A store that is free to be opened is opened, if the disk refuses nothing and the file can be loaded. -/
theorem opens_of_free (hsound : desk.Sound root dir origin) {mode : LockMode} {links : Links}
    (hspelled : Store.spelled (pathFor root) (desk.content dir) = .ok links)
    (hfree : mode.Free (desk.handles.map fun h => h.store.mode)) :
    ∃ lock m', (Store.openAt root mode).run (desk.machine.facing .none) =
      (.ok ⟨pathFor root, links, false, mode, some lock⟩, m') := by
  have hfacing := hsound.facing .none
  obtain ⟨acquired, m₁, hacquired, hopen⟩ := Store.run_openAt_hosts hfacing.locked.hosts mode
  rw [hopen]
  cases hacquired with
  | refused h => cases h
  | without h => cases h
  | busy _ hopened hbusy =>
    rw [← hsound.modes] at hfree
    have hgrants := (hfacing.locked.grants_iff hopened mode).2 hfree
    cases hgrants.symm.trans hbusy
  | granted =>
    have hloaded : Store.loaded (pathFor root) (desk.machine.facing .none).diskFaults
        ((desk.machine.facing .none).disk.content? (dir.child fileName)) = .ok links := hspelled
    exact ⟨_, _, by rw [hloaded]⟩

end Sound

/-- Where a store is free to be opened, it can be. -/
theorem Reached.opens (hreached : Reached root m desk) (hm : m.Holds root dir origin none) (mode : LockMode)
    {links : Links} (hspelled : Store.spelled (pathFor root) (desk.content dir) = .ok links)
    (hfree : mode.Free (desk.handles.map fun h => h.store.mode)) :
    ∃ lock m', Reached root m
      ⟨m', ⟨lock, ⟨pathFor root, links, false, mode, some lock⟩, []⟩ :: desk.handles, desk.commits⟩ := by
  obtain ⟨lock, m', hopen⟩ := (hreached.sound hm).opens_of_free hspelled hfree
  exact ⟨lock, m', hreached.step (.opens hopen rfl)⟩

/-- Where no handle is, one can be opened and closed again, and has then written the operation that was made in
    between. -/
theorem Reached.written (hreached : Reached root m ⟨m', [], commits⟩) (hm : m.Holds root dir origin none)
    {links : Links} (hspelled : Store.spelled (pathFor root) (m'.disk.content? (dir.child fileName)) = .ok links)
    (d : Deed) (hchanges : ∀ lock, ((⟨pathFor root, links, false, .exclusive, lock⟩ : Store).after d).dirty = true) :
    ∃ lock m'', Reached root m ⟨m'', [], commits ++ [⟨lock, [d]⟩]⟩ := by
  obtain ⟨lock, m₁, hopened⟩ := hreached.opens hm .exclusive hspelled rfl
  let opened : Store := ⟨pathFor root, links, false, .exclusive, some lock⟩
  have hacted := hopened.step (@Step.acts root m₁ [] [] ⟨lock, opened, []⟩ commits d)
  obtain ⟨m'', hclosed⟩ := @Reached.closes root dir origin m m₁ [] [] _ _ hacted hm
  rw [if_pos (hchanges (some lock))] at hclosed
  exact ⟨lock, m'', hclosed⟩

namespace Sound

/-- A flush that changes the file has written the links of the handle. -/
theorem flush_changed (hsound : (⟨m, before ++ h :: after, commits⟩ : Desk).Sound root dir origin)
    {refusals : Refusals}
    (hchanged : (h.store.flush.run (m.facing refusals)).2.disk.content? (dir.child fileName) ≠
      m.disk.content? (dir.child fileName)) :
    h.store.dirty = true ∧
      h.commit (h.store.flush.run (m.facing refusals)).1.1 = [⟨h.lock, h.pending⟩] ∧
      (h.store.flush.run (m.facing refusals)).2.disk.content? (dir.child fileName) =
        some (StoreDocument.content h.store.links) := by
  have hcurrent := hsound.current h (List.mem_append_right _ List.mem_cons_self)
  obtain ⟨result, m₁, hflush, hrewritten, hcases⟩ :=
    Store.run_flush_hosts (hsound.facing refusals).locked.hosts hcurrent.path
  rw [show h.store.flush.run (m.facing refusals) = _ from hflush] at hchanged ⊢
  have hcontent := hrewritten.content
  by_cases hwrites : h.store.dirty = true ∧ (m.facing refusals).diskFaults.canWrite
  · rw [Store.written, if_pos hwrites] at hcontent
    rcases hcases with ⟨-, rfl⟩ | ⟨-, hcannot, -⟩
    · exact ⟨hwrites.1, if_pos ⟨hwrites.1, rfl⟩, hcontent⟩
    · exact absurd hwrites.2 hcannot
  · rw [Store.written, if_neg hwrites] at hcontent
    exact absurd hcontent hchanged

/-- A step that changes the file is a flush or a closing of the only handle, an exclusive one, and the file then has
    its links. -/
theorem step_changed {next : Desk} (hsound : desk.Sound root dir origin) (hstep : Step root desk next)
    (hchanged : next.content dir ≠ desk.content dir) :
    ∃ h, desk.handles = [h] ∧ h.store.mode = .exclusive ∧
      Store.spelled (pathFor root) (next.content dir) = .ok h.store.links ∧
      next.commits = desk.commits ++ [⟨h.lock, h.pending⟩] := by
  have hopen : ∀ {mode : LockMode} {refusals : Refusals} {result : Except KeychainError Store} {m' : Machine},
      (Store.openAt root mode).run (desk.machine.facing refusals) = (result, m') →
      m'.disk.content? (dir.child fileName) = desk.content dir := by
    intro mode refusals result m' hrun
    obtain ⟨result', m₁, hrun', hfiles, -⟩ :=
      Store.run_openAt_files ⟨(hsound.facing refusals).locked.hosts, rfl⟩ mode
    rw [show (Store.openAt root mode).run _ = _ from hrun] at hrun'
    cases hrun'
    exact hfiles.content
  cases hstep with
  | opens hrun => exact absurd (hopen hrun) hchanged
  | fails hrun => exact absurd (hopen hrun) hchanged
  | acts => exact absurd rfl hchanged
  | @flushes m m' before after h commits refusals result store hrun =>
    have hflush := @flush_changed root dir origin m before after h commits hsound refusals
    rw [hrun] at hflush
    obtain ⟨hdirty, hcommit, hcontent⟩ := hflush hchanged
    obtain ⟨hmode, rfl, rfl⟩ := hsound.written_alone hdirty
    refine ⟨h, rfl, hmode, ?_, congrArg (commits ++ ·) hcommit⟩
    rw [content, hcontent, Store.spelled_content]
  | @closes m m' before after h commits refusals hrun =>
    have hflush := @flush_changed root dir origin m before after h commits hsound refusals
    rw [hsound.close_eq] at hrun
    cases hrun
    rw [content, Store.disk_released] at hchanged
    obtain ⟨hdirty, hcommit, hcontent⟩ := hflush hchanged
    obtain ⟨hmode, rfl, rfl⟩ := hsound.written_alone hdirty
    refine ⟨h, rfl, hmode, ?_, congrArg (commits ++ ·) hcommit⟩
    rw [content, Store.disk_released, hcontent, Store.spelled_content]

/-- Nothing that is done with a shared handle changes it, or a disk. -/
theorem shared_inert (hsound : desk.Sound root dir origin) (hh : h ∈ desk.handles) (hmode : h.store.mode = .shared) :
    h.store.dirty = false ∧ (∀ d, h.store.after d = h.store) ∧
      ∀ m₀, h.store.flush.run m₀ = ((.ok (), h.store), m₀) ∧ (h.store.close.run m₀).2.disk = m₀.disk := by
  have hclean := (hsound.current h hh).shared hmode
  have hflush : ∀ m₀, h.store.flush.run m₀ = ((.ok (), h.store), m₀) := by
    intro m₀
    rw [Store.flush, hclean]
    rfl
  refine ⟨hclean, Store.after_shared hmode, fun m₀ => ⟨hflush m₀, ?_⟩⟩
  rw [Store.close, Program.run_bind, hflush, Store.run_release]
  exact Store.disk_released _ _

end Sound

/-- That no update is lost on a desk, whose store file once had the content `origin`. -/
structure Serial (root : Path) (dir : Location) (origin : Option Bytes) (desk : Desk) : Prop where
  /-- An exclusive handle is the only one. -/
  alone : ∀ h ∈ desk.handles, h.store.mode = .exclusive → desk.handles = [h]
  /-- A handle without changes has the links of the file. -/
  clean : ∀ h ∈ desk.handles, h.store.dirty = false →
    Store.spelled (pathFor root) (desk.content dir) = .ok h.store.links
  /-- A shared handle has no changes, no operation changes it or the file, and it refuses to be changed. -/
  shared : ∀ h ∈ desk.handles, h.store.mode = .shared →
    h.store.dirty = false ∧ (∀ d, h.store.after d = h.store) ∧
      (∀ m, h.store.flush.run m = ((.ok (), h.store), m) ∧ (h.store.close.run m).2.disk = m.disk) ∧
      (∀ id record, h.store.insert id record = .error (.usage (.readOnlyStore h.store.path))) ∧
      ∀ id, h.store.remove id = .error (.usage (.readOnlyStore h.store.path))
  /-- What a handle has is what its operations since then make of the links that were written last. -/
  current : ∀ h ∈ desk.handles, ∃ links, Store.spelled (pathFor root) (desk.content dir) = .ok links ∧
    h.store = (⟨pathFor root, links, false, h.store.mode, some h.lock⟩ : Store).done h.pending
  /-- The file is what the commits make of it, one after the other, in the order of their locks. -/
  history : Store.spelled (pathFor root) (desk.content dir) =
    (Store.spelled (pathFor root) origin).map fun links => written root links desk.commits
  ordered : desk.commits.Pairwise fun c c' => c.lock.number ≤ c'.lock.number
  /-- A step that changes the file writes the links of the only handle, which is an exclusive one. -/
  commits : ∀ next, Step root desk next → next.content dir ≠ desk.content dir →
    ∃ h, desk.handles = [h] ∧ h.store.mode = .exclusive ∧
      Store.spelled (pathFor root) (next.content dir) = .ok h.store.links ∧
      next.commits = desk.commits ++ [⟨h.lock, h.pending⟩]
  /-- Shared handles are opened where there is no exclusive one, exclusive handles where there is none at all, and
      with the links of the file. -/
  opens : ∀ mode refusals store lock m',
    (Store.openAt root mode).run (desk.machine.facing refusals) = (.ok store, m') → store.lock = some lock →
    mode.Free (desk.handles.map fun h => h.store.mode) ∧
      Store.spelled (pathFor root) (desk.content dir) = .ok store.links
  /-- Where this is so, and the disk refuses nothing, they are opened. -/
  enabled : ∀ mode links, mode.Free (desk.handles.map fun h => h.store.mode) →
    Store.spelled (pathFor root) (desk.content dir) = .ok links →
    ∃ lock m', (Store.openAt root mode).run (desk.machine.facing .none) =
      (.ok ⟨pathFor root, links, false, mode, some lock⟩, m')

/-- No update is lost between the handles of a root. From a machine on which none is open, whatever the store
    file holds, whatever handles are opened, worked with, flushed and closed, in whatever order, and whatever
    the disk refuses on the way. -/
theorem handles_serial (h : m.Holds root dir origin none) (hreached : Reached root m desk) :
    desk.Serial root dir origin := by
  have hsound := hreached.sound h
  refine ⟨fun h hh => hsound.alone hh, fun h hh hclean => ((hsound.current h hh).clean hclean).1,
    fun h hh hmode => ?_, hsound.current, hsound.history, hsound.ordered, fun next => hsound.step_changed,
    fun mode refusals store lock m' hrun hlock => ?_,
    fun mode links hfree hspelled => hsound.opens_of_free hspelled hfree⟩
  · obtain ⟨hclean, hafter, hinert⟩ := hsound.shared_inert hh hmode
    exact ⟨hclean, hafter, hinert, Store.insert_shared hmode, Store.remove_shared hmode⟩
  · obtain ⟨hacquired, links, hspelled, rfl⟩ := hsound.openAt_ok hrun hlock
    exact ⟨hsound.free_of_acquired hacquired, hspelled⟩

/-- An exclusive handle fills a slot and is closed. Two shared handles are then open side by side, which keep an
    exclusive one out. After them a second exclusive handle fills another slot of what the first has written. -/
theorem handles_serial_shared :
    let root : Path := ⟨"/"⟩
    let m := Machine.new Disk.empty
    let deed : Deed := .insert ⟨1⟩ (.zero recordSize)
    let deed' : Deed := .insert ⟨2⟩ (.zero recordSize)
    let links : Links := OrderedMap.empty.insert ⟨1⟩ (.zero recordSize)
    m.Holds root Location.root none none ∧
    ∃ lock₁ lock₂ lock₃ lock₄ m₁ desk,
      let readers : Desk := ⟨m₁, [⟨lock₃, ⟨pathFor root, links, false, .shared, some lock₃⟩, []⟩,
        ⟨lock₂, ⟨pathFor root, links, false, .shared, some lock₂⟩, []⟩], [⟨lock₁, [deed]⟩]⟩
      Reached root m readers ∧
      (∀ refusals store lock m', (Store.openAt root .exclusive).run (m₁.facing refusals) = (.ok store, m') →
        store.lock ≠ some lock) ∧
      Reached root m desk ∧ desk.commits = [⟨lock₁, [deed]⟩, ⟨lock₄, [deed']⟩] ∧ desk.handles = [] ∧
      Store.spelled (pathFor root) (desk.content Location.root) = .ok (links.insert ⟨2⟩ (.zero recordSize)) := by
  intro root m deed deed' links
  refine ⟨holds_new, ?_⟩
  have hstart : Reached root m ⟨m, [], []⟩ := .start
  obtain ⟨lock₁, m₁, hfilled⟩ := hstart.written holds_new rfl deed fun _ => rfl
  have hspelled : ∀ {m₂ handles}, Reached root m ⟨m₂, handles, [⟨lock₁, [deed]⟩]⟩ →
      Store.spelled (pathFor root) (m₂.disk.content? (Location.root.child fileName)) = .ok links :=
    fun hreached => (handles_serial holds_new hreached).history
  obtain ⟨lock₂, m₂, hsecond⟩ := hfilled.opens holds_new .shared (hspelled hfilled) (by simp [LockMode.Free])
  obtain ⟨lock₃, m₃, hthird⟩ := hsecond.opens holds_new .shared (hspelled hsecond) (by simp [LockMode.Free])
  -- The one that was opened last is closed first.
  obtain ⟨m₄, hfourth⟩ := @Reached.closes root Location.root none m m₃ [] _ _ _ hthird holds_new
  obtain ⟨m₅, hfifth⟩ := @Reached.closes root Location.root none m m₄ [] [] _ _ hfourth holds_new
  obtain ⟨lock₄, m₆, hlast⟩ := hfifth.written holds_new (hspelled hfifth) deed' fun _ => rfl
  refine ⟨lock₁, lock₂, lock₃, lock₄, m₃, _, hthird, fun refusals store lock m' hrun hlock => ?_, hlast, rfl, rfl,
    (handles_serial holds_new hlast).history⟩
  have hfree := ((handles_serial holds_new hthird).opens .exclusive refusals store lock m' hrun hlock).1
  cases hfree

end Desk

end KeyChain
