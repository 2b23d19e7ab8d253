import KeyChain.Proofs.Deeds
import KeyChain.Proofs.StoreRuns
import KeyChain.Root
/-! Calls on a root. Each call opens the store from its file and lets it go again.

   1. `addLinkOn_alike`, `deleteChain_alike`: what a store remembers besides its links (whether there are
      changes, which lock it holds) has no say in an operation;
   2. `deleteLinks_fault`, `deleteLinks_emptied`: deleting links finds nothing corrupted, and fills no slot;
   3. `run_get`, `run_set`, `run_delete`: unless the disk refuses a request, a call does to the links in
      the file what the operation does to the links of a store that is kept open. If it does refuse
      one, a call that would change something fails and leaves the links as they were. -/
namespace KeyChain

namespace Store

/-! What has no say. -/

/-- The store without what it remembers of its file. -/
def bare (s : Store) : Store := { s with dirty := false, lock := none }

variable {s t : Store}

theorem links_eq_of_bare (h : s.bare = t.bare) : s.links = t.links :=
  show s.bare.links = t.bare.links from congrArg _ h

theorem exists_of_bare (h : s.bare = t.bare) : ∃ path links mode dirty dirty' lock lock',
    s = ⟨path, links, dirty, mode, lock⟩ ∧ t = ⟨path, links, dirty', mode, lock'⟩ := by
  obtain ⟨path, links, dirty, mode, lock⟩ := s
  obtain ⟨path', links', dirty', mode', lock'⟩ := t
  simp only [bare, mk.injEq] at h
  obtain ⟨rfl, rfl, -, rfl, -⟩ := h
  exact ⟨path, links, mode, dirty, dirty', lock, lock', rfl, rfl⟩

theorem insertLinkOn_alike (h : s.bare = t.bare) (parent child : Key) (source : RandomSource) :
    (s.insertLinkOn parent child source).1 = (t.insertLinkOn parent child source).1 ∧
      (s.insertLinkOn parent child source).2.1.bare = (t.insertLinkOn parent child source).2.1.bare ∧
      (s.insertLinkOn parent child source).2.2 = (t.insertLinkOn parent child source).2.2 := by
  obtain ⟨path, links, mode, dirty, dirty', lock, lock', rfl, rfl⟩ := exists_of_bare h
  unfold insertLinkOn insertOn insert ensureWritable lookup?
  cases mode with
  | shared => exact ⟨rfl, rfl, rfl⟩
  | exclusive => cases links.get? parent.id <;> exact ⟨rfl, rfl, rfl⟩

theorem addLinkOn_alike (h : s.bare = t.bare) (parent : Key) (target : LinkTarget) (source : RandomSource) :
    (s.addLinkOn parent target source).1 = (t.addLinkOn parent target source).1 ∧
      (s.addLinkOn parent target source).2.1.bare = (t.addLinkOn parent target source).2.1.bare ∧
      (s.addLinkOn parent target source).2.2 = (t.addLinkOn parent target source).2.2 := by
  have hlinks := links_eq_of_bare h
  unfold addLinkOn
  rw [hlinks]
  cases Chain.resolve t.links parent .ignoreMissing with
  | error e => exact ⟨rfl, h, rfl⟩
  | ok chain =>
    dsimp only
    cases hchoose : chooseChild chain target source with
    | mk chosen source' =>
      cases chosen with
      | error e => exact ⟨rfl, h, rfl⟩
      | ok child =>
        cases hrest : chain.rest with
        | cons second _ => exact ⟨rfl, h, rfl⟩
        | nil => exact insertLinkOn_alike h parent child source'

theorem deleteLink_alike (h : s.bare = t.bare) (parent : Key) (required : Bool) :
    (s.deleteLink parent required).map (fun r => (r.1, r.2.bare)) =
      (t.deleteLink parent required).map fun r => (r.1, r.2.bare) := by
  obtain ⟨path, links, mode, dirty, dirty', lock, lock', rfl, rfl⟩ := exists_of_bare h
  rw [deleteLink_eq, deleteLink_eq]
  unfold remove ensureWritable lookup?
  cases mode with
  | shared => rfl
  | exclusive =>
    cases links.get? parent.id with
    | some record => rfl
    | none => cases required <;> rfl

theorem deleteLinks_alike (scope : DeleteScope) (h : s.bare = t.bare) (keys : List Key) :
    (deleteLinks scope s keys).1 = (deleteLinks scope t keys).1 ∧
      (deleteLinks scope s keys).2.bare = (deleteLinks scope t keys).2.bare := by
  induction keys generalizing s t with
  | nil => exact ⟨rfl, h⟩
  | cons key rest ih =>
    have hlink := deleteLink_alike h key (rest.head?.map Key.id).isSome
    unfold deleteLinks
    dsimp only
    cases hs : s.deleteLink key (rest.head?.map Key.id).isSome with
    | error e =>
      cases ht : t.deleteLink key (rest.head?.map Key.id).isSome with
      | error e' =>
        rw [hs, ht] at hlink
        cases hlink
        exact ⟨rfl, h⟩
      | ok r => rw [hs, ht] at hlink; cases hlink
    | ok r =>
      cases ht : t.deleteLink key (rest.head?.map Key.id).isSome with
      | error e' => rw [hs, ht] at hlink; cases hlink
      | ok r' =>
        obtain ⟨found, s'⟩ := r
        obtain ⟨found', t'⟩ := r'
        rw [hs, ht] at hlink
        have hbare : s'.bare = t'.bare := by
          injection hlink with hlink
          exact (Prod.mk.inj hlink).2
        cases scope with
        | first => exact ⟨rfl, hbare⟩
        | full =>
          obtain ⟨hresult, hrest⟩ := ih hbare
          dsimp only
          cases hs' : deleteLinks .full s' rest with
          | mk result s'' =>
            cases ht' : deleteLinks .full t' rest with
            | mk result' t'' =>
              rw [hs', ht'] at hresult hrest
              obtain rfl : result = result' := hresult
              cases result <;> exact ⟨rfl, hrest⟩

theorem deleteChain_alike (h : s.bare = t.bare) (chain : Chain) (scope : DeleteScope) :
    (s.deleteChain chain scope).1 = (t.deleteChain chain scope).1 ∧
      (s.deleteChain chain scope).2.bare = (t.deleteChain chain scope).2.bare :=
  deleteLinks_alike scope h chain.keys

/-! What deleting leaves. -/

theorem deleteLink_fault {parent : Key} {required : Bool} {e : KeychainError}
    (h : s.deleteLink parent required = .error e) (what : Corruption) : e ≠ .corrupted what := by
  rw [deleteLink_eq] at h
  unfold remove ensureWritable at h
  cases hmode : s.mode with
  | shared =>
    simp only [hmode] at h
    cases h
    exact fun he => by cases he
  | exclusive =>
    simp only [hmode] at h
    cases hslot : s.lookup? parent.id with
    | some record => simp only [hslot] at h; cases h
    | none =>
      simp only [hslot] at h
      split at h
      · cases h
        exact fun he => by cases he
      · cases h

/-- Deleting links finds nothing corrupted. -/
theorem deleteLinks_fault (scope : DeleteScope) (s : Store) (keys : List Key) (what : Corruption) :
    (deleteLinks scope s keys).1 ≠ .error (.corrupted what) := by
  induction keys generalizing s with
  | nil => exact fun h => by cases h
  | cons key rest ih =>
    unfold deleteLinks
    dsimp only
    cases hlink : s.deleteLink key (rest.head?.map Key.id).isSome with
    | error e =>
      intro h
      injection h with h
      exact deleteLink_fault hlink what h
    | ok outcome =>
      obtain ⟨found, s'⟩ := outcome
      cases scope with
      | first => exact fun h => by cases h
      | full =>
        have hrest := ih s'
        dsimp only
        cases hs' : deleteLinks .full s' rest with
        | mk result s'' =>
          rw [hs'] at hrest
          cases result with
          | error e => exact hrest
          | ok removed => exact fun h => by cases h

/-- Deleting links empties slots and fills none. -/
theorem deleteLinks_emptied (scope : DeleteScope) (s : Store) (keys : List Key) (id : KeyId) :
    (deleteLinks scope s keys).2.links.get? id = none ∨
      (deleteLinks scope s keys).2.links.get? id = s.links.get? id := by
  refine deleteLinks_keeps (P := fun t => t.links.get? id = none ∨ t.links.get? id = s.links.get? id) scope
    (.inr rfl) fun id' _ t t' found ht h => ?_
  rw [get?_remove h]
  split
  · exact .inl rfl
  · exact ht

end Store

/-! Calls. -/

/-- Whether a machine keeps links as the store of a root, and nobody holds its lock. -/
def Machine.Stores (m : Machine) (root : Path) (dir : Location) (links : Links) : Prop :=
  ∃ content, m.Holds root dir content none ∧ Store.spelled (Store.pathFor root) content = .ok links

/-- Whether a disk can be believed: it may refuse any request, but does not say of a store file that it is
    not there. -/
def DiskFaults.Honest (f : DiskFaults) : Prop := f.read ≠ some .noSuchFile

theorem DiskFaults.lets_all {f : DiskFaults} (h : f = {}) : f.Honest ∧ f.canOpen ∧ f.canWrite := by
  subst h
  exact ⟨fun he => (by cases he), ⟨rfl, rfl⟩, rfl, rfl, rfl⟩

namespace Store

/-- Links that are loaded from a disk that can be believed are those that the file spells. -/
theorem spelled_of_loaded {f : DiskFaults} (hhonest : f.Honest) {path : Path} {content : Option Bytes} {links : Links}
    (h : loaded path f content = .ok links) : spelled path content = .ok links := by
  unfold loaded at h
  cases hread : f.read with
  | none =>
    rw [hread] at h
    exact h
  | some cause =>
    rw [hread] at h
    cases cause with
    | noSuchFile => exact absurd hread hhonest
    | _ => cases h

/-- A store that is opened has been granted its lock, or needs none, and has the links of the file. -/
theorem openAt_ok {m m' : Machine} {root : Path} {dir : Location} {mode : LockMode} {s : Store}
    (h : m.disk.Keeps root dir) (hhonest : m.diskFaults.Honest) (hrun : (openAt root mode).run m = (.ok s, m')) :
    ∃ lock links, Acquired m root dir mode (.ok lock) m' ∧
      spelled (pathFor root) (m.disk.content? (dir.child fileName)) = .ok links ∧
        s = ⟨pathFor root, links, false, mode, lock⟩ := by
  obtain ⟨acquired, m₁, hacquired, hopen⟩ := run_openAt_keeps h mode
  rw [hrun] at hopen
  cases acquired with
  | error e => cases hopen
  | ok lock =>
    dsimp only at hopen
    cases hloaded : loaded (pathFor root) m.diskFaults (m.disk.content? (dir.child fileName)) with
    | error e =>
      rw [hloaded] at hopen
      cases hopen
    | ok links =>
      rw [hloaded] at hopen
      cases hopen
      exact ⟨lock, links, hacquired, spelled_of_loaded hhonest hloaded, rfl⟩

end Store

theorem Machine.Stores.unique {m : Machine} {root : Path} {dir : Location} {links links' : Links}
    (h : m.Stores root dir links) (h' : m.Stores root dir links') : links = links' := by
  obtain ⟨content, hholds, hspelled⟩ := h
  obtain ⟨content', hholds', hspelled'⟩ := h'
  obtain rfl : content = content' := hholds.content.symm.trans hholds'.content
  exact Except.ok.inj (hspelled.symm.trans hspelled')

namespace Root

variable {m : Machine} {root : Root} {dir : Location} {links : Links} {content : Option Bytes}

/-- A disk that can be believed lets the links be opened that the file spells, or refuses. -/
theorem opens_cases {f : DiskFaults} (hhonest : f.Honest)
    (hspelled : Store.spelled (Store.pathFor root.path) content = .ok links) (mode : LockMode) :
    Store.opens root.path mode f content = .ok links ∨
      ¬ f.canOpen ∧ Barred (Store.opens root.path mode f content) := by
  unfold Store.opens
  cases herror : f.lockError? mode with
  | some cause =>
    have hlock : f.lock = some cause := (Option.filter_eq_some_iff.1 herror).1
    exact .inr ⟨fun hcan => (by cases hlock.symm.trans hcan.1), .store ..⟩
  | none =>
    unfold Store.loaded
    cases hread : f.read with
    | none => exact .inl hspelled
    | some cause =>
      have hclosed : ¬ f.canOpen := fun hcan => by cases hread.symm.trans hcan.2
      cases cause with
      | noSuchFile => exact absurd hread hhonest
      | _ => exact .inr ⟨hclosed, .store ..⟩

/-- The store that a call works on. -/
theorem run_open (h : m.Stores root.path dir links) (hhonest : m.diskFaults.Honest) (mode : LockMode) :
    ∃ result m', (Store.openAt root.path mode).run m = (result, m') ∧ m'.diskFaults = m.diskFaults ∧
      (¬ m.diskFaults.canOpen ∧ Barred result ∧ m'.Stores root.path dir links ∨
        ∃ lock content, result = .ok ⟨Store.pathFor root.path, links, false, mode, lock⟩ ∧
          m'.Holds root.path dir content lock ∧
          Store.spelled (Store.pathFor root.path) content = .ok links) := by
  obtain ⟨content, hholds, hspelled⟩ := h
  obtain ⟨result, lock, m', hrun, hsame, hheld, rfl⟩ := Store.run_openAt hholds mode
  refine ⟨_, m', hrun, hsame, ?_⟩
  rcases opens_cases hhonest hspelled mode with hopens | ⟨hclosed, hbarred⟩
  · rw [hopens] at hheld ⊢
    exact .inr ⟨lock, content, rfl, hheld, hspelled⟩
  · generalize Store.opens root.path mode m.diskFaults content = opened at hbarred hheld
    cases hbarred
    exact .inl ⟨hclosed, .store .., content, hheld, hspelled⟩

variable {s t : Store}

/-- Closing a store writes what it has not written yet, if the disk lets it. -/
theorem run_close (h : m.Holds root.path dir content s.lock) (hs : s.path = Store.pathFor root.path)
    (hspelled : Store.spelled (Store.pathFor root.path) content = .ok s.links) (hedited : s.Edited t) :
    ∃ m', t.close.run m = ((), m') ∧ m'.diskFaults = m.diskFaults ∧
      (m.diskFaults.canWrite ∧ m'.Stores root.path dir t.links ∨
        ¬ m.diskFaults.canWrite ∧ m'.Stores root.path dir s.links) := by
  obtain ⟨m', hrun, hsame, h'⟩ := Store.run_close (hedited.lock ▸ h) (hedited.path.trans hs)
  refine ⟨m', hrun, hsame, ?_⟩
  unfold Store.written at h'
  by_cases hcan : m.diskFaults.canWrite
  · refine .inl ⟨hcan, _, h', ?_⟩
    cases hdirty : t.dirty with
    | true =>
      rw [if_pos ⟨rfl, hcan⟩]
      exact Store.spelled_content _ _
    | false =>
      rw [if_neg fun hboth => (by cases hboth.1), hedited.links_eq hdirty]
      exact hspelled
  · rw [if_neg fun hboth => hcan hboth.2] at h'
    exact .inr ⟨hcan, content, h', hspelled⟩

/-- Closing a store without an edit. -/
theorem run_close_same (h : m.Holds root.path dir content s.lock) (hs : s.path = Store.pathFor root.path)
    (hspelled : Store.spelled (Store.pathFor root.path) content = .ok s.links) :
    ∃ m', s.close.run m = ((), m') ∧ m'.diskFaults = m.diskFaults ∧ m'.Stores root.path dir s.links := by
  obtain ⟨m', hrun, hsame, hstores⟩ := run_close h hs hspelled (.refl s)
  exact ⟨m', hrun, hsame, hstores.elim And.right And.right⟩

/-- Finishing an edit that succeeded writes the links, or tells that they cannot be written. -/
theorem run_finish_ok {α : Type} (h : m.Holds root.path dir content s.lock)
    (hs : s.path = Store.pathFor root.path)
    (hspelled : Store.spelled (Store.pathFor root.path) content = .ok s.links) (hedited : s.Edited t) (a : α) :
    ∃ result m', (finish t (.ok a)).run m = (result, m') ∧ m'.diskFaults = m.diskFaults ∧
      (result = .ok a ∧ m'.Stores root.path dir t.links ∨
        ¬ m.diskFaults.canWrite ∧ Barred result ∧ m'.Stores root.path dir s.links) := by
  have ht : t.path = Store.pathFor root.path := hedited.path.trans hs
  obtain ⟨flushed, m₁, hflush, hsame₁, h₁, hcases⟩ := Store.run_flush (hedited.lock ▸ h) ht
  have hrun : (finish t (.ok a)).run m = _ := Program.run_bind ..
  rw [hrun, hflush]
  unfold Store.written at h₁
  rcases hcases with ⟨hwrites, rfl⟩ | ⟨hdirty, hcannot, hbarred⟩
  · have hstored : Store.spelled (Store.pathFor root.path)
        (if t.dirty = true ∧ m.diskFaults.canWrite then some (StoreDocument.content t.links) else content) =
          .ok t.links := by
      cases hdirty : t.dirty with
      | true =>
        rw [if_pos ⟨rfl, hwrites hdirty⟩]
        exact Store.spelled_content _ _
      | false =>
        rw [if_neg fun hboth => (by cases hboth.1), hedited.links_eq hdirty]
        exact hspelled
    -- The flush has written what there was, and closing finds a store that is not dirty.
    generalize hflushed : (if m.diskFaults.canWrite then { t with dirty := false } else t) = t'
    have ht' : t'.path = t.path ∧ t'.lock = t.lock ∧ t'.links = t.links := by
      rw [← hflushed]
      split <;> exact ⟨rfl, rfl, rfl⟩
    obtain ⟨hpath, hlock, hlinks⟩ := ht'
    obtain ⟨m', hclose, hsame, hstores⟩ := @run_close_same m₁ root dir _ t' (hlock ▸ h₁) (hpath.trans ht)
      (hlinks ▸ hstored)
    refine ⟨.ok a, m', ?_, hsame.trans hsame₁, .inl ⟨rfl, hlinks ▸ hstores⟩⟩
    dsimp only
    rw [Program.run_bind, hclose]
    rfl
  · rw [if_neg hcannot]
    rw [if_neg fun hboth => hcannot hboth.2] at h₁
    -- Closing tries to write once more, and is refused again.
    obtain ⟨m', hclose, hsame, hstores⟩ := run_close (hedited.lock ▸ h₁) hs hspelled hedited
    obtain ⟨path, cause⟩ := hbarred
    refine ⟨.error (.store path cause), m', ?_, hsame.trans hsame₁, .inr ⟨hcannot, .store .., ?_⟩⟩
    · dsimp only
      rw [Program.run_bind, hclose]
      rfl
    · rcases hstores with ⟨hcan, -⟩ | ⟨-, hstores⟩
      · exact absurd (hsame₁ ▸ hcan) hcannot
      · exact hstores

/-- A look-up gives what the links that are opened give, and leaves the file alone. -/
theorem run_get_opens (h : m.Holds root.path dir content none) (key : Key) (mode : ChainMode) :
    ∃ m', (root.get key mode).run m =
        (do Chain.resolve (← Store.opens root.path .shared m.diskFaults content) key mode, m') ∧
      m'.diskFaults = m.diskFaults ∧ m'.Holds root.path dir content none := by
  obtain ⟨result, lock, m₁, hopen, hsame₁, h₁, rfl⟩ := Store.run_openAt h .shared
  have hrun : (root.get key mode).run m = _ := Program.run_bind ..
  rw [hrun, hopen]
  cases hlinks : Store.opens root.path .shared m.diskFaults content with
  | error e =>
    rw [hlinks] at h₁
    exact ⟨m₁, rfl, hsame₁, h₁⟩
  | ok links =>
    rw [hlinks] at h₁
    let opened : Store := ⟨Store.pathFor root.path, links, false, .shared, lock⟩
    obtain ⟨m', hclose, hsame, h'⟩ := @Store.run_close_clean m₁ root.path dir content opened h₁ rfl rfl
    refine ⟨m', ?_, hsame.trans hsame₁, h'⟩
    show ((do opened.close; return Chain.resolve links key mode : Program _).run m₁) = _
    rw [Program.run_bind, hclose]
    rfl

/-- A look-up gives what the links give and leaves them alone. -/
theorem run_get (h : m.Stores root.path dir links) (hhonest : m.diskFaults.Honest) (key : Key)
    (mode : ChainMode) :
    ∃ result m', (root.get key mode).run m = (result, m') ∧ m'.diskFaults = m.diskFaults ∧
      m'.Stores root.path dir links ∧
      (¬ m.diskFaults.canOpen ∧ Barred result ∨ result = Chain.resolve links key mode) := by
  obtain ⟨content, hholds, hspelled⟩ := h
  obtain ⟨m', hrun, hsame, h'⟩ := run_get_opens hholds key mode
  refine ⟨_, m', hrun, hsame, ⟨content, h', hspelled⟩, ?_⟩
  rcases opens_cases hhonest hspelled .shared with hopens | ⟨hclosed, hbarred⟩
  · rw [hopens]
    exact .inr rfl
  · generalize Store.opens root.path .shared m.diskFaults content = opened at hbarred
    cases hbarred
    exact .inl ⟨hclosed, .store ..⟩

/-- The store that a change works on is the store that is kept open, but for what has no say. -/
theorem run_open_alike (h : m.Stores root.path dir s.links) (hhonest : m.diskFaults.Honest)
    (hs : s.path = Store.pathFor root.path) (hmode : s.mode = .exclusive) :
    ∃ result m', (Store.openAt root.path .exclusive).run m = (result, m') ∧ m'.diskFaults = m.diskFaults ∧
      (¬ m.diskFaults.canOpen ∧ Barred result ∧ m'.Stores root.path dir s.links ∨
        ∃ opened content, result = .ok opened ∧ opened.bare = s.bare ∧
          m'.Holds root.path dir content opened.lock ∧ opened.path = Store.pathFor root.path ∧
          Store.spelled (Store.pathFor root.path) content = .ok opened.links) := by
  obtain ⟨result, m', hopen, hsame, hcases⟩ := run_open h hhonest .exclusive
  refine ⟨result, m', hopen, hsame, hcases.imp_right ?_⟩
  intro h
  obtain ⟨lock, content, rfl, h', hspelled⟩ := h
  refine ⟨_, content, rfl, ?_, h', rfl, hspelled⟩
  unfold Store.bare
  rw [hs, hmode]

/-- Linking does to the links what it does to those of a store that is kept open. -/
theorem run_set (h : m.Stores root.path dir s.links) (hhonest : m.diskFaults.Honest)
    (hs : s.path = Store.pathFor root.path) (hmode : s.mode = .exclusive) (parent : Key)
    (target : LinkTarget) (source : RandomSource) :
    ∃ result m', (root.set parent target source).run m = (result, m') ∧ m'.diskFaults = m.diskFaults ∧
      (¬ (m.diskFaults.canOpen ∧ m.diskFaults.canWrite) ∧ Barred result.1 ∧
          m'.Stores root.path dir s.links ∨
        result = ((s.addLinkOn parent target source).1, (s.addLinkOn parent target source).2.2) ∧
          m'.Stores root.path dir (s.addLinkOn parent target source).2.1.links) := by
  obtain ⟨result, m₁, hopen, hsame₁, hcases⟩ := run_open_alike h hhonest hs hmode
  have hrun : (root.set parent target source).run m = _ := Program.run_bind ..
  rw [hrun, hopen]
  rcases hcases with ⟨hclosed, hbarred, hstores⟩ | ⟨opened, content, rfl, hbare, h₁, hpath, hspelled⟩
  · cases hbarred
    exact ⟨_, m₁, rfl, hsame₁, .inl ⟨fun hclear => hclosed hclear.1, .store .., hstores⟩⟩
  obtain ⟨hresult, hafter, hsource⟩ := Store.addLinkOn_alike hbare parent target source
  have hedited : opened.Edited (opened.addLinkOn parent target source).2.1 :=
    opened.after_edited (.addLink parent target source)
  rw [← hresult, ← hsource, ← Store.links_eq_of_bare hafter, ← Store.links_eq_of_bare hbare]
  rw [Store.addLinkOn_eq] at hedited ⊢
  dsimp only
  cases hadd : opened.addLink parent target source with
  | mk result source' =>
    rw [hadd] at hedited
    cases result with
    | error e =>
      obtain ⟨m', hclose, hsame, hstores⟩ := run_close_same h₁ hpath hspelled
      refine ⟨_, m', ?_, hsame.trans hsame₁, .inr ⟨rfl, hstores⟩⟩
      dsimp only
      rw [Program.run_bind, finish, Program.run_bind, hclose]
      rfl
    | ok t =>
      obtain ⟨finished, m', hfinish, hsame, hend⟩ := run_finish_ok h₁ hpath hspelled hedited ()
      refine ⟨(finished, source'), m', ?_, hsame.trans hsame₁, ?_⟩
      · dsimp only at hfinish ⊢
        rw [Program.run_bind, hfinish]
        rfl
      · rcases hend with ⟨rfl, hstores⟩ | ⟨hcannot, hbarred, hstores⟩
        · exact .inr ⟨rfl, hstores⟩
        · rw [hsame₁] at hcannot
          exact .inl ⟨fun hclear => hcannot hclear.2, hbarred, hstores⟩

/-- Deleting a chain does to the links what it does to those of a store that is kept open. -/
theorem run_delete (h : m.Stores root.path dir s.links) (hhonest : m.diskFaults.Honest)
    (hs : s.path = Store.pathFor root.path) (hmode : s.mode = .exclusive) (key : Key) (scope : DeleteScope) :
    ∃ result m', (root.delete key scope).run m = (result, m') ∧ m'.diskFaults = m.diskFaults ∧
      (¬ (m.diskFaults.canOpen ∧ m.diskFaults.canWrite) ∧ Barred result ∧
          m'.Stores root.path dir s.links ∨
        match Chain.resolve s.links key .use with
        | .error e => result = .error e ∧ m'.Stores root.path dir s.links
        | .ok chain =>
          result = (s.deleteChain chain scope).1 ∧
            m'.Stores root.path dir (s.deleteChain chain scope).2.links) := by
  obtain ⟨result, m₁, hopen, hsame₁, hcases⟩ := run_open_alike h hhonest hs hmode
  have hrun : (root.delete key scope).run m = _ := Program.run_bind ..
  rw [hrun, hopen]
  rcases hcases with ⟨hclosed, hbarred, hstores⟩ | ⟨opened, content, rfl, hbare, h₁, hpath, hspelled⟩
  · cases hbarred
    exact ⟨_, m₁, rfl, hsame₁, .inl ⟨fun hclear => hclosed hclear.1, .store .., hstores⟩⟩
  rw [← Store.links_eq_of_bare hbare]
  dsimp only
  cases Chain.resolve opened.links key .use with
  | error e =>
    obtain ⟨m', hclose, hsame, hstores⟩ := run_close_same h₁ hpath hspelled
    refine ⟨.error e, m', ?_, hsame.trans hsame₁, .inr ⟨rfl, hstores⟩⟩
    dsimp only
    rw [finish, Program.run_bind, hclose]
    rfl
  | ok chain =>
    obtain ⟨hresult, hafter⟩ := Store.deleteChain_alike hbare chain scope
    have hedited : opened.Edited (opened.deleteChain chain scope).2 :=
      opened.after_edited (.deleteChain chain scope)
    dsimp only
    rw [← hresult, ← Store.links_eq_of_bare hafter]
    cases hdelete : opened.deleteChain chain scope with
    | mk result t =>
      rw [hdelete] at hedited
      obtain ⟨finished, m', hfinish, hsame, hend⟩ := run_finish_ok h₁ hpath hspelled hedited ()
      dsimp only at hfinish ⊢
      rw [Program.run_bind, hfinish]
      rcases hend with ⟨rfl, hstores⟩ | ⟨hcannot, hbarred, hstores⟩
      · exact ⟨_, m', rfl, hsame.trans hsame₁, .inr ⟨rfl, hstores⟩⟩
      · rw [hsame₁] at hcannot
        cases hbarred
        exact ⟨_, m', rfl, hsame.trans hsame₁, .inl ⟨fun hclear => hcannot hclear.2, .store .., hstores⟩⟩

/-! Calls on a machine that refuses nothing. -/

theorem run_get_faultless (h : m.Stores root.path dir links) (hfaultless : m.diskFaults = {}) (key : Key)
    (mode : ChainMode) :
    ∃ m', (root.get key mode).run m = (Chain.resolve links key mode, m') ∧ m'.diskFaults = {} ∧
      m'.Stores root.path dir links := by
  obtain ⟨hhonest, hopen, -⟩ := DiskFaults.lets_all hfaultless
  obtain ⟨result, m', hrun, hsame, hstores, hcases⟩ := run_get h hhonest key mode
  rcases hcases with ⟨hclosed, -⟩ | rfl
  · exact absurd hopen hclosed
  · exact ⟨m', hrun, hsame.trans hfaultless, hstores⟩

theorem run_set_faultless (h : m.Stores root.path dir s.links) (hfaultless : m.diskFaults = {})
    (hs : s.path = Store.pathFor root.path) (hmode : s.mode = .exclusive) (parent : Key)
    (target : LinkTarget) (source : RandomSource) :
    ∃ m', (root.set parent target source).run m =
        (((s.addLinkOn parent target source).1, (s.addLinkOn parent target source).2.2), m') ∧
      m'.diskFaults = {} ∧ m'.Stores root.path dir (s.addLinkOn parent target source).2.1.links := by
  obtain ⟨hhonest, hclear⟩ := DiskFaults.lets_all hfaultless
  obtain ⟨result, m', hrun, hsame, hcases⟩ := run_set h hhonest hs hmode parent target source
  rcases hcases with ⟨hrefused, -⟩ | ⟨rfl, hstores⟩
  · exact absurd hclear hrefused
  · exact ⟨m', hrun, hsame.trans hfaultless, hstores⟩

theorem run_delete_faultless (h : m.Stores root.path dir s.links) (hfaultless : m.diskFaults = {})
    (hs : s.path = Store.pathFor root.path) (hmode : s.mode = .exclusive) (key : Key) (scope : DeleteScope) :
    ∃ result m', (root.delete key scope).run m = (result, m') ∧ m'.diskFaults = {} ∧
      match Chain.resolve s.links key .use with
      | .error e => result = .error e ∧ m'.Stores root.path dir s.links
      | .ok chain =>
        result = (s.deleteChain chain scope).1 ∧
          m'.Stores root.path dir (s.deleteChain chain scope).2.links := by
  obtain ⟨hhonest, hclear⟩ := DiskFaults.lets_all hfaultless
  obtain ⟨result, m', hrun, hsame, hcases⟩ := run_delete h hhonest hs hmode key scope
  rcases hcases with ⟨hrefused, -⟩ | hcalled
  · exact absurd hclear hrefused
  · exact ⟨result, m', hrun, hsame.trans hfaultless, hcalled⟩

end Root

end KeyChain
