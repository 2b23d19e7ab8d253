import KeyChain.Proofs.DeleteCalls
import KeyChain.Proofs.Sessions
/-! What a call that fails leaves of the store file, whatever the disk refuses and whoever holds locks on the
   root: a fault that meets the writing meets the second attempt on closing as well.

   1. `run_openAt_files`, `run_close_files`: what a store does to the content of its file;
   2. `run_finish_files`: an edit that succeeded and cannot be written leaves the file as it was, and the
      call that made it ends with an error;
   3. `set_of_barred`, `delete_of_barred`: so where nothing can be written, no call that edits succeeds;
   4. `calls_atomic`: linking and deleting change the file only if they succeed, looking up never does, and
      where the file cannot be loaded every call fails and leaves it as it is. -/
namespace KeyChain

/-- Whether a machine keeps the store of a root with this content of the store file, whoever holds locks. -/
structure Machine.Files (m : Machine) (root : Path) (dir : Location) (content : Option Bytes) : Prop where
  hosts : m.disk.Hosts root dir
  content : m.disk.content? (dir.child Store.fileName) = content

/-- Whether a call was answered with an error. -/
def Reply.failed : Reply → Bool
  | .set result => !result.isOk
  | .delete result => !result.isOk
  | .inject result => !result.isOk
  | .get result => !result.isOk
  | .linkCount result => !result.isOk

namespace Store

variable {m : Machine} {root : Path} {dir : Location} {content : Option Bytes} {s : Store}

theorem files_released (h : m.Files root dir content) (lock : Option LockId) :
    (m.released lock).Files root dir content := by
  cases lock with
  | none => exact h
  | some lock => exact ⟨h.hosts, h.content⟩

/-- Opening leaves the file alone. It gives the links that are loaded, without changes to write, or fails; and
    where loading fails, so does opening. -/
theorem run_openAt_files (h : m.Files root dir content) (mode : LockMode) :
    ∃ result m', (openAt root mode).run m = (result, m') ∧ m'.Files root dir content ∧
      m'.diskFaults = m.diskFaults ∧
      match result with
      | .error _ => True
      | .ok s => s.path = pathFor root ∧ s.mode = mode ∧ s.dirty = false ∧
          (load (pathFor root)).run m = (.ok s.links, m) := by
  obtain ⟨acquired, m', hacquired, hrun⟩ := run_openAt_hosts h.hosts mode
  obtain ⟨hhosts, hcontent⟩ := hacquired.hosts h.hosts
  have hfiles : m'.Files root dir content := ⟨hhosts, hcontent.trans h.content⟩
  rw [hrun]
  cases acquired with
  | error e => exact ⟨_, m', rfl, hfiles, hacquired.faults, trivial⟩
  | ok lock =>
    have hload := run_load h.hosts
    dsimp only
    cases hloaded : loaded (pathFor root) m.diskFaults (m.disk.content? (dir.child fileName)) with
    | error e =>
      exact ⟨_, _, rfl, files_released hfiles lock, (faults_released m' lock).trans hacquired.faults, trivial⟩
    | ok links =>
      rw [hloaded] at hload
      exact ⟨_, m', rfl, hfiles, hacquired.faults, rfl, rfl, rfl, hload⟩

theorem run_close_files (h : m.Files root dir content) (hs : s.path = pathFor root) :
    ∃ m', s.close.run m = ((), m') ∧ m'.Files root dir (s.written m.diskFaults content) := by
  obtain ⟨m', hrun, h'⟩ := run_close_hosts h.hosts hs
  rw [h.content] at h'
  exact ⟨_, hrun, files_released ⟨h'.hosts, h'.content⟩ s.lock⟩

end Store

namespace Root

variable {m : Machine} {root : Root} {dir : Location} {content : Option Bytes} {s : Store}

/-- A call that ends with an error leaves the file alone, unless that is the error of an edit that has already
    changed the store. Where nothing can be written, a call that has changed it ends with an error. -/
theorem run_finish_files {α : Type} (h : m.Files root.path dir content) (hs : s.path = Store.pathFor root.path)
    (result : Except KeychainError α) (hclean : result.isOk = true ∨ s.dirty = false) :
    ∃ outcome m', (finish s result).run m = (outcome, m') ∧
      (outcome.isOk = false → m'.Files root.path dir content) ∧
      (result.isOk = false ∨ s.dirty = true ∧ ¬ m.diskFaults.canWrite → outcome.isOk = false) := by
  cases result with
  | error e =>
    obtain ⟨m', hclose, h'⟩ := Store.run_close_files h hs
    rw [Store.written_clean (hclean.resolve_left (by simp [Except.isOk, Except.toBool]))] at h'
    refine ⟨.error e, m', ?_, fun _ => h', fun _ => rfl⟩
    rw [finish, Program.run_bind, hclose]
    rfl
  | ok a =>
    obtain ⟨flushed, m₁, hflush, h₁, hcases⟩ := Store.run_flush_hosts h.hosts hs
    have hrun : (finish s (.ok a)).run m = _ := Program.run_bind ..
    rw [hrun, hflush]
    dsimp only
    rw [Program.run_bind]
    refine ⟨_, _, rfl, fun hfailed => ?_, fun hbarred => ?_⟩
    · rcases hcases with ⟨-, rfl⟩ | ⟨-, hcannot, -⟩
      · cases hfailed
      · -- Neither the flush nor the one on closing has written anything.
        rw [Store.written_barred hcannot, h.content] at h₁
        obtain ⟨m', hclose, h'⟩ := @Store.run_close_files m₁ root.path dir content s
          ⟨h₁.hosts, h₁.content⟩ hs
        rw [Store.written_barred (h₁.faults ▸ hcannot)] at h'
        rw [if_neg hcannot, hclose]
        exact h'
    · obtain ⟨hdirty, hcannot⟩ := hbarred.resolve_left (by simp [Except.isOk, Except.toBool])
      rcases hcases with ⟨hwrites, -⟩ | ⟨-, -, hrefused⟩
      · exact absurd (hwrites hdirty) hcannot
      · cases hrefused
        rfl

theorem run_set_files (h : m.Files root.path dir content) (parent : Key) (target : LinkTarget)
    (source : RandomSource) :
    ∃ outcome m', (root.set parent target source).run m = (outcome, m') ∧
      (outcome.1.isOk = false → m'.Files root.path dir content) ∧
      (¬ m.diskFaults.canWrite → outcome.1.isOk = false) := by
  obtain ⟨opened, m₁, hopen, h₁, hsame, hcases⟩ := Store.run_openAt_files h .exclusive
  have hrun : (root.set parent target source).run m = _ := Program.run_bind ..
  rw [hrun, hopen]
  cases opened with
  | error e => exact ⟨_, m₁, rfl, fun _ => h₁, fun _ => rfl⟩
  | ok s =>
    obtain ⟨hpath, -, hclean, -⟩ := hcases
    dsimp only
    cases hadd : s.addLink parent target source with
    | mk result source' =>
      cases result with
      | error e =>
        -- A refused link leaves the store as it was opened, so closing has nothing to write.
        obtain ⟨outcome, m', hfinish, h', hfails⟩ := run_finish_files h₁ hpath (.error e) (.inr hclean)
        dsimp only
        rw [Program.run_bind, hfinish]
        exact ⟨_, m', rfl, h', fun _ => hfails (.inl rfl)⟩
      | ok t =>
        obtain ⟨-, -, -, hlinked⟩ := Store.addLink_ok_iff.1 hadd
        have ht := (Prod.mk.inj hlinked).1
        obtain ⟨outcome, m', hfinish, h', hfails⟩ :=
          run_finish_files h₁ ((congrArg Store.path ht).trans hpath) (.ok ()) (.inl rfl)
        dsimp only
        rw [Program.run_bind, hfinish]
        exact ⟨_, m', rfl, h', fun hcannot => hfails (.inr ⟨congrArg Store.dirty ht, hsame ▸ hcannot⟩)⟩

theorem run_delete_files (h : m.Files root.path dir content) (key : Key) (scope : DeleteScope) :
    ∃ outcome m', (root.delete key scope).run m = (outcome, m') ∧
      (outcome.isOk = false → m'.Files root.path dir content) ∧
      (¬ m.diskFaults.canWrite → outcome.isOk = false) := by
  obtain ⟨opened, m₁, hopen, h₁, hsame, hcases⟩ := Store.run_openAt_files h .exclusive
  have hrun : (root.delete key scope).run m = _ := Program.run_bind ..
  rw [hrun, hopen]
  cases opened with
  | error e => exact ⟨_, m₁, rfl, fun _ => h₁, fun _ => rfl⟩
  | ok s =>
    obtain ⟨hpath, hmode, hclean, -⟩ := hcases
    dsimp only
    cases hresolve : Chain.resolve s.links key .use with
    | error e =>
      obtain ⟨outcome, m', hfinish, h', hfails⟩ := @run_finish_files m₁ root dir content s _ h₁ hpath
        (.error e : Except KeychainError (List RemovedLink)) (.inr hclean)
      exact ⟨outcome, m', hfinish, h', fun _ => hfails (.inl rfl)⟩
    | ok chain =>
      -- The chain was just resolved, so only the writing can fail, and there is something to write.
      obtain ⟨t, hdelete, -⟩ := Store.deleteChain_ok hmode hresolve scope
      have hedited : s.Edited (s.deleteChain chain scope).2 := s.after_edited (.deleteChain chain scope)
      have hdirty := Store.dirty_deleteChain hmode hresolve scope
      rw [hdelete] at hedited hdirty
      obtain ⟨outcome, m', hfinish, h', hfails⟩ :=
        run_finish_files h₁ (hedited.path.trans hpath) (.ok ()) (.inl rfl)
      dsimp only
      rw [hdelete]
      dsimp only
      rw [Program.run_bind, hfinish]
      have hfails' : ¬ m.diskFaults.canWrite → outcome.isOk = false := fun hcannot =>
        hfails (.inr ⟨hdirty, hsame ▸ hcannot⟩)
      cases outcome with
      | error e => exact ⟨_, m', rfl, fun _ => h' rfl, fun _ => rfl⟩
      | ok _ => exact ⟨_, m', rfl, fun hfailed => (by cases hfailed), fun hcannot => (by cases hfails' hcannot)⟩

/-- Looking up opens a store and closes it without an edit. -/
theorem run_lookUp_files {α : Type} (h : m.Files root.path dir content) (view : Store → Except KeychainError α) :
    ∃ outcome m', Program.run (do
        match ← Store.openAt root.path .shared with
        | .error e => return .error e
        | .ok store =>
          store.close
          return view store) m = (outcome, m') ∧ m'.Files root.path dir content := by
  obtain ⟨opened, m₁, hopen, h₁, -, hcases⟩ := Store.run_openAt_files h .shared
  rw [Program.run_bind, hopen]
  cases opened with
  | error e => exact ⟨_, m₁, rfl, h₁⟩
  | ok s =>
    obtain ⟨hpath, -, hclean, -⟩ := hcases
    obtain ⟨m', hclose, h'⟩ := Store.run_close_files h₁ hpath
    rw [Store.written_clean hclean] at h'
    dsimp only
    rw [Program.run_bind, hclose]
    exact ⟨_, m', rfl, h'⟩

theorem set_of_barred (h : m.Files root.path dir content) (hcannot : ¬ m.diskFaults.canWrite) (parent : Key)
    (target : LinkTarget) (source : RandomSource) :
    ∃ e, ((root.set parent target source).run m).1.1 = .error e := by
  obtain ⟨⟨outcome, source'⟩, m', hrun, -, hfails⟩ := run_set_files h parent target source
  rw [hrun]
  cases outcome with
  | error e => exact ⟨e, rfl⟩
  | ok _ => cases hfails hcannot

theorem delete_of_barred (h : m.Files root.path dir content) (hcannot : ¬ m.diskFaults.canWrite) (key : Key)
    (scope : DeleteScope) : ∃ e, ((root.delete key scope).run m).1 = .error e := by
  obtain ⟨outcome, m', hrun, -, hfails⟩ := run_delete_files h key scope
  rw [hrun]
  cases outcome with
  | error e => exact ⟨e, rfl⟩
  | ok _ => cases hfails hcannot

/-! A file that cannot be loaded. -/

variable {e : KeychainError}

theorem run_openAt_rejected (h : m.Files root.path dir content)
    (hload : ((Store.load (Store.pathFor root.path)).run m).1 = .error e) (mode : LockMode) :
    ∃ e' m', (Store.openAt root.path mode).run m = (.error e', m') ∧ m'.Files root.path dir content := by
  obtain ⟨opened, m', hopen, h', -, hcases⟩ := Store.run_openAt_files h mode
  cases opened with
  | error e' => exact ⟨e', m', hopen, h'⟩
  | ok s =>
    rw [hcases.2.2.2] at hload
    cases hload

/-- Every call opens the store first, and ends there. -/
theorem respond_rejected (h : m.Files root.path dir content)
    (hload : ((Store.load (Store.pathFor root.path)).run m).1 = .error e) (source : RandomSource) (call : Call) :
    ∃ reply m', (root.respond source call).run m = ((reply, source), m') ∧ reply.failed = true ∧
      m'.Files root.path dir content := by
  obtain ⟨e₁, m₁, hexclusive, h₁⟩ := run_openAt_rejected h hload .exclusive
  obtain ⟨e₂, m₂, hshared, h₂⟩ := run_openAt_rejected h hload .shared
  cases call with
  | set parent target =>
    have hset : (root.set parent target source).run m = ((.error e₁, source), m₁) := by
      rw [set, Program.run_bind, hexclusive]
      rfl
    refine ⟨.set (.error e₁), m₁, ?_, rfl, h₁⟩
    rw [respond, Program.run_bind, hset]
    rfl
  | delete key scope =>
    have hdelete : (root.delete key scope).run m = (.error e₁, m₁) := by
      rw [delete, Program.run_bind, hexclusive]
      rfl
    refine ⟨.delete (.error e₁), m₁, ?_, rfl, h₁⟩
    rw [respond, Program.run_bind, hdelete]
    rfl
  | inject count =>
    have hinject : (root.inject count source).run m = ((.error e₁, source), m₁) := by
      rw [inject, Program.run_bind, hexclusive]
      rfl
    refine ⟨.inject (.error e₁), m₁, ?_, rfl, h₁⟩
    rw [respond, Program.run_bind, hinject]
    rfl
  | get key mode =>
    have hget : (root.get key mode).run m = (.error e₂, m₂) := by
      rw [get, Program.run_bind, hshared]
      rfl
    refine ⟨.get (.error e₂), m₂, ?_, rfl, h₂⟩
    rw [respond, Program.run_bind, hget]
    rfl
  | linkCount =>
    have hcount : root.linkCount.run m = (.error e₂, m₂) := by
      rw [linkCount, Program.run_bind, hshared]
      rfl
    refine ⟨.linkCount (.error e₂), m₂, ?_, rfl, h₂⟩
    rw [respond, Program.run_bind, hcount]
    rfl

theorem run_injectIn_rejected (h : m.Files root.path dir content)
    (hload : ((Store.load (Store.pathFor root.path)).run m).1 = .error e) (range : DecoyRange)
    (source : RandomSource) :
    ∃ e' source' m', (root.injectIn range source).run m = ((.error e', source'), m') ∧
      m'.Files root.path dir content := by
  unfold injectIn
  cases range.pick source with
  | mk picked source' =>
    cases picked with
    | error e' => exact ⟨e', source', m, rfl, h⟩
    | ok count =>
      obtain ⟨e', m', hopen, h'⟩ := run_openAt_rejected h hload .exclusive
      refine ⟨e', source', m', ?_, h'⟩
      dsimp only
      rw [inject, Program.run_bind, hopen]
      rfl

/-- Calls are atomic on disk, for every content of the store file (none if there is no file), whatever requests the
    disk refuses while the call lasts and whoever holds locks. A linking or a deletion that ends with an error
    leaves the file as it was, and so does every look-up. Where the file cannot be loaded, every call ends with an
    error and leaves it as it was. -/
theorem calls_atomic (h : m.Files root.path dir content) (source : RandomSource) :
    (∀ parent target e, ((root.set parent target source).run m).1.1 = .error e →
      ((root.set parent target source).run m).2.Files root.path dir content) ∧
    (∀ key scope e, ((root.delete key scope).run m).1 = .error e →
      ((root.delete key scope).run m).2.Files root.path dir content) ∧
    (∀ key mode, ((root.get key mode).run m).2.Files root.path dir content) ∧
    (root.linkCount.run m).2.Files root.path dir content ∧
    ∀ e, ((Store.load (Store.pathFor root.path)).run m).1 = .error e →
      (∀ call, ((root.respond source call).run m).1.1.failed = true ∧
        ((root.respond source call).run m).2.Files root.path dir content) ∧
      ∀ range, (∃ e', ((root.injectIn range source).run m).1.1 = .error e') ∧
        ((root.injectIn range source).run m).2.Files root.path dir content := by
  refine ⟨fun parent target e he => ?_, fun key scope e he => ?_, fun key mode => ?_, ?_, fun e hload =>
    ⟨fun call => ?_, fun range => ?_⟩⟩
  · obtain ⟨outcome, m', hrun, h', -⟩ := run_set_files h parent target source
    rw [hrun] at he ⊢
    exact h' (by rw [show outcome.1 = _ from he]; rfl)
  · obtain ⟨outcome, m', hrun, h', -⟩ := run_delete_files h key scope
    rw [hrun] at he ⊢
    exact h' (by rw [show outcome = _ from he]; rfl)
  · obtain ⟨outcome, m', hrun, h'⟩ := run_lookUp_files h fun store => Chain.resolve store.links key mode
    rw [show (root.get key mode).run m = (outcome, m') from hrun]
    exact h'
  · obtain ⟨outcome, m', hrun, h'⟩ := run_lookUp_files h fun store => .ok store.size
    rw [show root.linkCount.run m = (outcome, m') from hrun]
    exact h'
  · obtain ⟨reply, m', hrun, hfailed, h'⟩ := respond_rejected h hload source call
    rw [hrun]
    exact ⟨hfailed, h'⟩
  · obtain ⟨e', source', m', hrun, h'⟩ := run_injectIn_rejected h hload range source
    rw [hrun]
    exact ⟨⟨e', rfl⟩, h'⟩

/-- Where no draft can be moved, a chain can neither be extended nor deleted, and stays in its file. An empty file
    is no store: no call succeeds, and it stays empty. -/
theorem calls_atomic_refused :
    let root : Root := ⟨⟨"/"⟩⟩
    let a := Key.ofByte 1
    let b := Key.ofByte 2
    let c := Key.ofByte 0
    let source : RandomSource := ⟨fun _ => 0, 0⟩
    let filled := ((root.session (Call.linking a [b]) source).run (Machine.new Disk.empty)).2
    let barred : Machine := { filled with diskFaults := { rename := some .permissionDenied } }
    let empty := Machine.new (Disk.empty.put (Location.root.child Store.fileName) (.file 0 []))
    (∃ content links, barred.Files root.path Location.root content ∧
      Store.spelled (Store.pathFor root.path) content = .ok links ∧
      Chain.resolve links a .use = .ok ⟨a, [b]⟩ ∧
      (∃ e, ((root.set c (.key a) source).run barred).1.1 = .error e) ∧
      (∃ e, ((root.delete a .full).run barred).1 = .error e) ∧
      ((root.set c (.key a) source).run barred).2.Files root.path Location.root content ∧
      ((root.delete a .full).run barred).2.Files root.path Location.root content) ∧
    empty.Files root.path Location.root (some []) ∧
      (∃ e, ((Store.load (Store.pathFor root.path)).run empty).1 = .error e) ∧
      ((root.respond source (.inject 3)).run empty).1.1.failed = true ∧
      ((root.respond source (.inject 3)).run empty).2.Files root.path Location.root (some []) := by
  intro root a b c source filled barred empty
  constructor
  · obtain ⟨-, hdistinct⟩ := List.nodup_cons.1 Key.ids_ofByte_nodup
    obtain ⟨source', m₁, links, hrun, -, ⟨content, h, hspelled⟩, hchain⟩ := @run_linking
      (Machine.new Disk.empty) root Location.root holds_new rfl a [b] hdistinct
      (by simpa using ⟨Key.sound_ofByte 2, rfl, rfl⟩) source
    have hfilled : filled = m₁ := congrArg Prod.snd hrun
    have hbarred : barred.Files root.path Location.root content := by
      rw [← hfilled] at h
      exact ⟨h.hosts, h.content⟩
    have hcannot : ¬ barred.diskFaults.canWrite := fun hcan => by cases hcan.2.2
    obtain ⟨e, hset⟩ := set_of_barred hbarred hcannot c (.key a) source
    obtain ⟨e', hdelete⟩ := delete_of_barred hbarred hcannot a .full
    obtain ⟨hset', hdelete', -⟩ := calls_atomic hbarred source
    exact ⟨content, links, hbarred, hspelled, hchain .use, ⟨e, hset⟩, ⟨e', hdelete⟩, hset' c (.key a) e hset,
      hdelete' a .full e' hdelete⟩
  · have hfill : Disk.Filled Disk.empty empty.disk (Location.root.child Store.fileName) [] :=
      Disk.filled_put _ (Disk.child_ne_root _ _) 0 []
    have h : empty.Files root.path Location.root (some []) := by
      refine ⟨holds_new.hosts.filled Store.fileName_mem hfill, ?_⟩
      rw [hfill.content?, if_pos rfl]
    have hload : ((Store.load (Store.pathFor root.path)).run empty).1 =
        .error (.corrupted (.malformed (Store.pathFor root.path) StoreDocument.complaint)) := by
      rw [Store.run_load h.hosts, h.content]
      rfl
    obtain ⟨-, -, -, -, hrejected⟩ := calls_atomic h source
    obtain ⟨hfailed, hkept⟩ := (hrejected _ hload).1 (.inject 3)
    exact ⟨h, ⟨_, hload⟩, hfailed, hkept⟩

end Root

end KeyChain
