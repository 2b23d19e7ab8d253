import KeyChain.Proofs.Actions
import KeyChain.Proofs.StoreRuns
/-! What marks a root. The search for a root takes the nearest directory upwards that holds a store or its lock
   file; a look-up can make the lock file, and takes nothing away.

   1. `walk_extends`: where a walk finds something, it finds it on a disk that has more;
   2. `run_findRoot`: the search finds `Machine.rootOf`, and changes nothing;
   3. `run_grown`, `get_marks`: a look-up keeps all there is on the disk, and if the lock file can be made, the
      root is marked after it. -/
namespace KeyChain

namespace Disk

variable {d d' : Disk}

/-- Whether a disk has all that another has. -/
def Extends (d d' : Disk) : Prop := ∀ l n, d.node? l = some n → d'.node? l = some n

theorem Extends.refl (d : Disk) : d.Extends d := fun _ _ h => h

theorem Extends.trans {d₁ d₂ d₃ : Disk} (h₁ : d₁.Extends d₂) (h₂ : d₂.Extends d₃) : d₁.Extends d₃ :=
  fun l n h => h₂ l n (h₁ l n h)

/-- A walk goes the same way on a disk that has more, and finds what it found. Where it found nothing there may be
    a file now. -/
theorem walk_extends (h : d.Extends d') {aim : Aim} (haim : aim ≠ .entry) {l : Location} {n : Option Node}
    (hfree : n = none → d'.IsFree l) :
    ∀ {links : Nat} {way : List Step} {here : Location}, d.walk aim links here way = .ok ⟨l, n⟩ →
      d'.walk .target links here way = .ok ⟨l, n.or (d'.node? l)⟩
  | links, [], here, hwalk => by
    rw [walk] at hwalk ⊢
    cases hwalk
    rfl
  | links, .slash :: way, here, hwalk => by
    rw [walk] at hwalk ⊢
    exact walk_extends h haim hfree hwalk
  | links, .part .root :: way, here, hwalk => by
    rw [walk] at hwalk ⊢
    exact walk_extends h haim hfree hwalk
  | links, .part .here :: way, here, hwalk => by
    rw [walk] at hwalk ⊢
    exact walk_extends h haim hfree hwalk
  | links, .part .up :: way, here, hwalk => by
    rw [walk] at hwalk ⊢
    exact walk_extends h haim hfree hwalk
  | links, .part (.name name) :: way, here, hwalk => by
    by_cases hslash : aim = .file ∧ way = [.slash]
    · rw [walk, if_pos hslash] at hwalk
      cases hwalk
    by_cases hsize : maxNameSize < name.utf8ByteSize
    · rw [walk, if_neg hslash, if_pos hsize] at hwalk
      cases hwalk
    rw [walk, if_neg hslash, if_neg hsize] at hwalk
    cases hnode : d.node? (here.child name) with
    | none =>
      rw [hnode] at hwalk
      dsimp only at hwalk
      split at hwalk
      · next hend =>
        cases hwalk
        subst hend
        exact walk_name (Nat.not_lt.1 hsize) (hfree rfl).not_link .target links
      · cases hwalk
    | some node =>
      rw [walk, if_neg (by simp), if_neg hsize, h _ _ hnode]
      rw [hnode] at hwalk
      cases node with
      | directory => exact walk_extends h haim hfree hwalk
      | file serial content =>
        dsimp only at hwalk ⊢
        split at hwalk
        · cases hwalk
          rw [if_pos ‹_›]
          rfl
        · cases hwalk
      | link target =>
        dsimp only at hwalk ⊢
        rw [if_neg fun hend => haim hend.2] at hwalk
        rw [if_neg fun hend => by cases hend.2]
        cases links with
        | zero => cases hwalk
        | succ links => exact walk_extends h haim hfree hwalk
termination_by links way => (links, way.length)

/-- What a walk ends at is what is there, or a directory. -/
theorem walk_node {aim : Aim} {links : Nat} {here l : Location} {way : List Step} {n : Option Node}
    (hwalk : d.walk aim links here way = .ok ⟨l, n⟩) : n = d.node? l ∨ n = some .directory := by
  fun_induction d.walk aim links here way <;> grind [SystemError.barsWriting]

/-- What a path leads to stays. -/
theorem locate_extends (h : d.Extends d') {p : Path} {l : Location} {n : Node}
    (hlocate : d.locate .target p = .ok ⟨l, some n⟩) : d'.locate .target p = .ok ⟨l, some n⟩ := by
  rw [locate_ok_iff] at hlocate ⊢
  obtain ⟨hempty, hnul, hsize, hwalk⟩ := hlocate
  exact ⟨hempty, hnul, hsize, walk_extends h (by decide) (fun hnone => by cases hnone) hwalk⟩

theorem isPresent_extends (h : d.Extends d') {p : Path} (hp : d.isPresent p = true) : d'.isPresent p = true := by
  unfold isPresent at hp ⊢
  split at hp
  · next hlocate => rw [locate_extends h hlocate]
  · cases hp

theorem isDirectory_extends (h : d.Extends d') {p : Path} (hp : d.isDirectory p = true) :
    d'.isDirectory p = true := by
  unfold isDirectory at hp ⊢
  split at hp
  · next hlocate => rw [locate_extends h hlocate]
  · cases hp

/-- A walk does not fail because nothing can be written. -/
theorem walk_error {aim : Aim} {links : Nat} {here : Location} {way : List Step} {e : SystemError}
    (hwalk : d.walk aim links here way = .error e) : e.barsWriting = false := by
  fun_induction d.walk aim links here way <;> grind [SystemError.barsWriting]

/-- A disk with a file put where it was, or where nothing was, and the walk that it was put at the end of. -/
theorem extends_put {p : Path} {l : Location} {n : Option Node} {serial serial' : Nat} {content : Bytes}
    (hlocate : d.locate .file p = .ok ⟨l, n⟩) (hn : n = none ∨ n = some (.file serial content)) :
    d.Extends { d.put l (.file serial content) with nextSerial := serial' } ∧
      Disk.isPresent { d.put l (.file serial content) with nextSerial := serial' } p = true := by
  obtain ⟨hempty, hnul, hsize, hwalk⟩ := locate_ok_iff.1 hlocate
  have hthere : n = d.node? l := (walk_node hwalk).resolve_right fun hdir => by rcases hn with rfl | rfl <;> cases hdir
  have hroot : l ≠ Location.root := by
    rintro rfl
    rw [hthere] at hn
    rcases hn with hn | hn <;> cases hn
  have hput : ∀ l', Disk.node? { d.put l (.file serial content) with nextSerial := serial' } l' =
      if l' = l then some (.file serial content) else d.node? l' := fun l' => node?_put d l l' _ hroot
  have hextends : d.Extends { d.put l (.file serial content) with nextSerial := serial' } := by
    intro l' n' hl'
    rw [hput]
    split
    · next he =>
      subst he
      rw [← hthere] at hl'
      rcases hn with rfl | rfl
      · cases hl'
      · exact hl'
    · exact hl'
  have hfile : Disk.node? { d.put l (.file serial content) with nextSerial := serial' } l =
      some (.file serial content) := by rw [hput, if_pos rfl]
  refine ⟨hextends, ?_⟩
  have hlocate' : Disk.locate { d.put l (.file serial content) with nextSerial := serial' } .target p =
      .ok ⟨l, some (.file serial content)⟩ := by
    refine locate_ok_iff.2 ⟨hempty, hnul, hsize, ?_⟩
    rw [walk_extends hextends (by decide) (fun _ => .inr ⟨serial, content, hfile⟩) hwalk, hfile]
    rcases hn with rfl | rfl <;> rfl
  rw [isPresent, hlocate']

/-- Opening a file makes it, if it is not there, and takes nothing away. -/
theorem openFile_extends {p : Path} {serial : Nat} (hopen : d.openFile p id = .ok (d', serial)) :
    d.Extends d' ∧ d'.isPresent p = true := by
  unfold openFile at hopen
  split at hopen
  · cases hopen
  · next l hlocate =>
    cases hopen
    exact extends_put hlocate (.inl rfl)
  · next l serial' content hlocate =>
    cases hopen
    exact extends_put hlocate (.inr rfl)
  · cases hopen

theorem shortTrail_error {p : Path} {e : SystemError} (h : shortTrail p = .error e) :
    e.barsWriting = false := by
  unfold shortTrail trail at h
  by_cases hempty : p.text = ""
  · rw [if_pos hempty] at h
    cases h
    decide
  · rw [if_neg hempty] at h
    split at h
    · cases h
      decide
    · by_cases hsize : maxPathSize < p.text.utf8ByteSize
      · simp only [Bind.bind, Except.bind, if_pos hsize] at h
        cases h
        decide
      · simp only [Bind.bind, Except.bind, if_neg hsize] at h
        cases h

theorem openFile_error {p : Path} {change : Bytes → Bytes} {e : SystemError}
    (hopen : d.openFile p change = .error e) : e.barsWriting = false := by
  unfold openFile at hopen
  split at hopen
  · next hlocate =>
    cases hopen
    unfold locate at hlocate
    cases htrail : shortTrail p with
    | error e' =>
      rw [htrail] at hlocate
      cases hlocate
      exact shortTrail_error htrail
    | ok way =>
      rw [htrail] at hlocate
      exact walk_error hlocate
  · cases hopen
  · cases hopen
  · cases hopen
    decide

end Disk

namespace Machine

variable {m m' : Machine}

/-- Whether a directory holds a store or the lock file of one. -/
def isMarked (m : Machine) (l : Location) : Bool :=
  m.disk.isPresent (Store.lockPathFor l.path) || m.disk.isPresent (Store.pathFor l.path)

/-- The root that a file belongs to. -/
def rootOf (m : Machine) (l : Location) : Location :=
  (l.ancestors.find? m.isMarked).getD (if m.disk.isDirectory l.path then l else l.parent)

/-- Whether a machine has the disk of another and maybe more files on it, and the same vault. -/
structure Grown (m m' : Machine) : Prop where
  disk : m.disk.Extends m'.disk
  vault : m'.vault = m.vault
  vaultFaults : m'.vaultFaults = m.vaultFaults

theorem Grown.refl (m : Machine) : m.Grown m := ⟨.refl m.disk, rfl, rfl⟩

theorem Grown.trans {m₁ m₂ m₃ : Machine} (h₁ : m₁.Grown m₂) (h₂ : m₂.Grown m₃) : m₁.Grown m₃ :=
  ⟨h₁.disk.trans h₂.disk, h₂.vault.trans h₁.vault, h₂.vaultFaults.trans h₁.vaultFaults⟩

theorem isMarked_extends (h : m.disk.Extends m'.disk) {l : Location} (hl : m.isMarked l = true) :
    m'.isMarked l = true := by
  unfold isMarked at hl ⊢
  rw [Bool.or_eq_true] at hl ⊢
  exact hl.imp (Disk.isPresent_extends h) (Disk.isPresent_extends h)

theorem lockFile_grown (m : Machine) (path : Path) (mode : LockMode) : m.Grown (m.lockFile path mode).2 := by
  unfold lockFile
  split
  · exact .refl m
  · next disk serial hopen =>
    have hextends : m.disk.Extends disk := by
      cases hfault : m.diskFaults.lock with
      | some e => rw [hfault] at hopen; cases hopen
      | none =>
        rw [hfault] at hopen
        exact (Disk.openFile_extends hopen).1
    split <;> exact ⟨hextends, rfl, rfl⟩

theorem answer_grown {r : Request} (hr : r.IsInquiry ∨ r.IsLookUp) : m.Grown (m.answer r).2 := by
  cases r with
  | lock path mode => exact m.lockFile_grown path mode
  | realPath | isPresent | isDirectory | read | prompt | unlock => exact ⟨.refl m.disk, rfl, rfl⟩
  | _ => exact absurd hr (by rintro (h | h) <;> exact h)

end Machine

/-- Inquiries and look-ups take nothing away. -/
theorem Program.Uses.run_grown {α : Type} {p : Program α} (hp : p.Uses fun r => r.IsInquiry ∨ r.IsLookUp)
    (m : Machine) : m.Grown (p.run m).2 := by
  have hstep : ∀ (r : Request) m', r.IsInquiry ∨ r.IsLookUp → m.Grown m' → m.Grown (m'.answer r).2 :=
    fun _ _ hr hm => hm.trans (Machine.answer_grown hr)
  exact hp.run hstep (.refl m)

/-- Where a store can be kept, the marks are its file and its lock file. -/
theorem isMarked_of_hosts {m : Machine} {l : Location} (h : m.disk.Hosts l.path l) :
    m.isMarked l = ((m.disk.node? (l.child (Store.fileName ++ ".lock"))).isSome ||
      (m.disk.node? (l.child Store.fileName)).isSome) := by
  have hpresent : ∀ n ∈ Disk.storeNames, m.disk.isPresent (l.path.join n) = (m.disk.node? (l.child n)).isSome := by
    intro n hn
    rw [Disk.isPresent, h.locate_file hn]
    cases m.disk.node? (l.child n) <;> rfl
  rw [Machine.isMarked, Store.lockPathFor_eq, hpresent _ Store.lockName_mem, Store.pathFor,
    hpresent _ Store.fileName_mem]

theorem rootOf_root (m : Machine) : m.rootOf Location.root = Location.root := by
  have hancestors : Location.root.ancestors = [Location.root] := rfl
  rw [Machine.rootOf, hancestors, List.find?_singleton, if_pos (isDirectory_root m.disk)]
  split <;> rfl

theorem run_firstStore (ls : List Location) (m : Machine) : (firstStore ls).run m = (ls.find? m.isMarked, m) := by
  induction ls with
  | nil => rfl
  | cons l rest ih =>
    have hholds : (holdsStore l).run m = (m.isMarked l, m) := by
      unfold holdsStore
      rw [Program.run_bind]
      show (if m.disk.isPresent (Store.lockPathFor l.path) = true then _ else _ : Program Bool).run m = _
      unfold Machine.isMarked
      cases m.disk.isPresent (Store.lockPathFor l.path) <;> rfl
    unfold firstStore
    rw [Program.run_bind, hholds, List.find?_cons]
    cases m.isMarked l
    · exact ih
    · rfl

theorem run_findRoot (l : Location) (m : Machine) : (findRoot l).run m = (m.rootOf l, m) := by
  unfold findRoot Machine.rootOf
  rw [Program.run_bind, run_firstStore]
  cases l.ancestors.find? m.isMarked <;> rfl

/-! A look-up marks the root, if the lock file can be made. -/

open KeyChain.Action

variable {m m' : Machine}

theorem acquire_marks {path : Path} {lock : Option LockId} (hfault : m.diskFaults.lock = none)
    (h : (Store.acquire path .shared).run m = (.ok lock, m')) : m'.disk.isPresent path = true := by
  have hrun : (Store.acquire path .shared).run m = _ := Program.run_bind ..
  have hlock : (Program.lock path .shared).run m = m.lockFile path .shared := rfl
  rw [hrun, hlock, Machine.lockFile, hfault] at h
  cases hopen : m.disk.openFile path id with
  | error cause =>
    rw [hopen] at h
    have hbars := Disk.openFile_error hopen
    dsimp only [Machine.barring] at h
    rw [if_neg (by simp [hbars])] at h
    cases h
  | ok opened =>
    obtain ⟨disk, serial⟩ := opened
    rw [hopen] at h
    dsimp only [Machine.barring] at h
    cases hgrants : m.grants serial .shared with
    | true =>
      rw [if_pos hgrants] at h
      cases h
      exact (Disk.openFile_extends hopen).2
    | false =>
      rw [if_neg (by simp [hgrants])] at h
      cases h

/-- What is present stays, whatever is looked up. -/
theorem Program.Uses.run_present {α : Type} {p : Program α} (hp : p.Uses Request.IsLookUp) {path : Path}
    (h : m.disk.isPresent path = true) : (p.run m).2.disk.isPresent path = true :=
  Disk.isPresent_extends ((hp.mono fun _ => .inr).run_grown m).disk h

theorem openAt_marks {root : Path} {s : Store} (hfault : m.diskFaults.lock = none)
    (h : (Store.openAt root .shared).run m = (.ok s, m')) :
    m'.disk.isPresent (Store.lockPathFor root) = true := by
  have hrun : (Store.openAt root .shared).run m = _ := Program.run_bind ..
  rw [hrun] at h
  cases hacquire : (Store.acquire (Store.lockPathFor root) .shared).run m with
  | mk acquired m₁ =>
    rw [hacquire] at h
    cases acquired with
    | error e => cases h
    | ok lock =>
      have hload : (Store.load (Store.pathFor root)).Uses Request.IsLookUp := by
        refine .bind (.request trivial) fun content => ?_
        split <;> exact .pure _
      have hmarked := hload.run_present (acquire_marks hfault hacquire)
      dsimp only at h
      rw [Program.run_bind] at h
      cases hloaded : (Store.load (Store.pathFor root)).run m₁ with
      | mk loaded m₂ =>
        rw [hloaded] at h hmarked
        cases loaded with
        | ok links => cases h; exact hmarked
        | error e =>
          dsimp only at h
          rw [Program.run_bind] at h
          cases h

theorem get_marks {root : Root} {key : Key} {mode : ChainMode} {chain : Chain} (hfault : m.diskFaults.lock = none)
    (h : (root.get key mode).run m = (.ok chain, m')) :
    m'.disk.isPresent (Store.lockPathFor root.path) = true := by
  have hrun : (root.get key mode).run m = _ := Program.run_bind ..
  rw [hrun] at h
  have hfresh := (Store.openAt_fresh root.path .shared).run m
  cases hopened : (Store.openAt root.path .shared).run m with
  | mk opened m₁ =>
    rw [hopened] at h hfresh
    cases opened with
    | error e => cases h
    | ok s =>
      have hmarked := (Store.close_uses_clean (hfresh s rfl).2).run_present (openAt_marks hfault hopened)
      dsimp only at h
      rw [Program.run_bind] at h
      obtain rfl : (s.close.run m₁).2 = m' := congrArg Prod.snd h
      exact hmarked

/-- A chain is that of its key. -/
theorem get_root (root : Root) (key : Key) (mode : ChainMode) :
    (root.get key mode).Yields fun result => ∀ chain, result = .ok chain → chain.root = key := by
  refine .after fun opened => ?_
  cases opened with
  | error e => exact .pure fun _ h => by cases h
  | ok s =>
    refine .after fun _ => .pure fun chain h => ?_
    by_cases hlinkless : s.links.get? key.id = none ∧ mode = .use
    · rw [Chain.resolve, if_pos hlinkless] at h
      cases h
    · rw [Chain.resolve, if_neg hlinkless] at h
      split at h <;> cases h
      rfl

/-- The chain that a key is used with is its own. If it was looked up with a lock, then the root is marked. -/
theorem runOn_chainFor_ok {c : Config} {root : Location} {key : Key} {choice : ChainChoice} {chain : Chain}
    (h : (chainFor c root key choice).runOn m = (.ok chain, m')) :
    chain.root = key ∧ m.Grown m' ∧ (choice = .ignored → m' = m) ∧
      (choice ≠ .ignored → m.diskFaults.lock = none → m'.isMarked root = true) := by
  have hlookedUp : ∀ mode, (during (.resolving key.id) (Root.get ⟨root.path⟩ key mode)).runOn m = (.ok chain, m') →
      chain.root = key ∧ m.Grown m' ∧ (m.diskFaults.lock = none → m'.isMarked root = true) := by
    intro mode h
    rw [runOn_during] at h
    cases hget : (Root.get ⟨root.path⟩ key mode).run m with
    | mk result m₁ =>
      rw [hget] at h
      cases result with
      | error e => cases h
      | ok chain' =>
        cases h
        have hroot := (get_root ⟨root.path⟩ key mode).run m
        have hgrown := ((Root.get_uses ⟨root.path⟩ key mode).mono fun _ => .inr).run_grown m
        rw [hget] at hroot hgrown
        refine ⟨hroot chain rfl, hgrown, fun hfault => ?_⟩
        rw [Machine.isMarked, get_marks hfault hget, Bool.true_or]
  cases choice with
  | ignored =>
    cases h
    exact ⟨rfl, .refl m, fun _ => rfl, fun hne => absurd rfl hne⟩
  | required | configured =>
    obtain ⟨hroot, hgrown, hmarked⟩ := hlookedUp _ h
    exact ⟨hroot, hgrown, (fun hc => by cases hc), fun _ => hmarked⟩

end KeyChain
