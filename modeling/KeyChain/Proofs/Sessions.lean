import KeyChain.Proofs.StoreRoundTrip
/-! Calls on a root, one after the other, beside the same operations on one store that is kept open. Each
   call locks, reads, writes and unlocks; nothing of that can be told from the answers.

   1. `addDecoys_alike`: decoys do not depend on what a store remembers of its file;
   2. `session_linking`: linking keys from the last to the first makes a chain of them;
   3. `Root.run_respond`: one call is one operation on the links in the file;
   4. `session_reopens`: any number of calls are as many operations on one store. -/
namespace KeyChain

/-- A call on the chains of a root. -/
inductive Call where
  | set (parent : Key) (target : LinkTarget)
  | delete (key : Key) (scope : DeleteScope)
  | inject (count : Nat)
  | get (key : Key) (mode : ChainMode)
  | linkCount

/-- The calls that make a chain of keys, from its last link to its first. -/
def Call.linking (first : Key) : List Key → List Call
  | [] => [.set first .terminal]
  | next :: rest => linking next rest ++ [.set first (.key next)]

/-- What a call is answered with. -/
inductive Reply where
  | set (result : Except KeychainError Unit)
  | delete (result : Except KeychainError (List RemovedLink))
  | inject (result : Except KeychainError (List (KeyId × KeyId)))
  | get (result : Except KeychainError Chain)
  | linkCount (result : Except KeychainError Nat)

/-- Makes one call. -/
def Root.respond (root : Root) (source : RandomSource) : Call → Program (Reply × RandomSource)
  | .set parent target => do
    let (result, source) ← root.set parent target source
    return (.set result, source)
  | .delete key scope => do
    let result ← root.delete key scope
    return (.delete result, source)
  | .inject count => do
    let (result, source) ← root.inject count source
    return (.inject result, source)
  | .get key mode => do
    let result ← root.get key mode
    return (.get result, source)
  | .linkCount => do
    let result ← root.linkCount
    return (.linkCount result, source)

/-- Makes calls one after the other. -/
def Root.session (root : Root) : List Call → RandomSource → Program (List Reply × RandomSource)
  | [], source => return ([], source)
  | call :: rest, source => do
    let (reply, source) ← root.respond source call
    let (replies, source) ← root.session rest source
    return (reply :: replies, source)

namespace Store

/-- The operation of a call on a store that is open. -/
def respond (s : Store) (source : RandomSource) : Call → Reply × Store × RandomSource
  | .set parent target =>
    match s.addLink parent target source with
    | (.ok s', source) => (.set (.ok ()), s', source)
    | (.error e, source) => (.set (.error e), s, source)
  | .delete key scope =>
    match Chain.resolve s.links key .use with
    | .error e => (.delete (.error e), s, source)
    | .ok chain =>
      let (result, s) := s.deleteChain chain scope
      (.delete result, s, source)
  | .inject count =>
    let (result, s, source) := s.inject count source
    (.inject result, s, source)
  | .get key mode => (.get (Chain.resolve s.links key mode), s, source)
  | .linkCount => (.linkCount (.ok s.size), s, source)

/-- The operations of calls one after the other, on a store that stays open. -/
def session (s : Store) : List Call → RandomSource → List Reply × Store × RandomSource
  | [], source => ([], s, source)
  | call :: rest, source =>
    let (reply, s, source) := s.respond source call
    let (replies, s, source) := session s rest source
    (reply :: replies, s, source)

variable {s t : Store}

/-! What has no say. -/

/-- Whether two outcomes are the same, but for what the stores remember of their file. -/
def Alike {α : Type} (x y : α × Store × RandomSource) : Prop :=
  x.1 = y.1 ∧ x.2.1.bare = y.2.1.bare ∧ x.2.2 = y.2.2

/-- An insertion succeeds or fails in both of two stores that are alike. -/
theorem insertLink_alike (h : s.bare = t.bare) (parent child : Key) (source : RandomSource) :
    (∃ s' t' source', s.insertLink parent child source = (.ok s', source') ∧
        t.insertLink parent child source = (.ok t', source') ∧ s'.bare = t'.bare) ∨
      ∃ e source', s.insertLink parent child source = (.error e, source') ∧
        t.insertLink parent child source = (.error e, source') := by
  obtain ⟨hresult, hafter, hsource⟩ := insertLinkOn_alike h parent child source
  rw [insertLinkOn_eq, insertLinkOn_eq] at hresult hafter hsource
  cases hs : s.insertLink parent child source with
  | mk result source' =>
    cases ht : t.insertLink parent child source with
    | mk result' source'' =>
      rw [hs, ht] at hresult hafter hsource
      cases result with
      | ok s' =>
        cases result' with
        | ok t' =>
          obtain rfl : source' = source'' := hsource
          exact .inl ⟨s', t', source', rfl, rfl, hafter⟩
        | error e' => cases hresult
      | error e =>
        cases result' with
        | ok t' => cases hresult
        | error e' =>
          obtain rfl : source' = source'' := hsource
          cases hresult
          exact .inr ⟨e, source', rfl, rfl⟩

/-- Adding decoys depends on the links, the mode and the random bytes alone, however it ends. -/
theorem addDecoys_alike (count spare : Nat) {s t : Store} (h : s.bare = t.bare) (source : RandomSource) :
    Alike (addDecoys count spare s source) (addDecoys count spare t source) := by
  match count with
  | 0 =>
    rw [addDecoys, addDecoys]
    exact ⟨rfl, h, rfl⟩
  | count + 1 =>
    rw [addDecoys_succ, addDecoys_succ]
    rcases insertLink_alike h (Key.random .invalid source).1
        (Key.random .invalid (Key.random .invalid source).2).1
        (Key.random .invalid (Key.random .invalid source).2).2 with
      ⟨s', t', source', hs, ht, hbare⟩ | ⟨e, source', hs, ht⟩
    · rw [hs, ht]
      obtain ⟨hresult, hafter⟩ := addDecoys_alike count spare hbare source'
      exact ⟨congrArg (Except.map _) hresult, hafter⟩
    · rw [hs, ht]
      cases e with
      | chainExists p c =>
        match spare with
        | 0 => exact ⟨rfl, h, rfl⟩
        | spare + 1 => exact addDecoys_alike (count + 1) spare h source'
      | _ => exact ⟨rfl, h, rfl⟩
termination_by (count, spare)

theorem inject_alike (h : s.bare = t.bare) (count : Nat) (source : RandomSource) :
    Alike (s.inject count source) (t.inject count source) := by
  unfold inject
  split
  · exact ⟨rfl, h, rfl⟩
  · exact addDecoys_alike count maxCollisions h source

/-- The decoy of a draw whose slot is empty. -/
theorem inject_one (hs : s.mode = .exclusive) {parent child : Key} {source source₁ source₂ : RandomSource}
    (hparent : Key.random .invalid source = (parent, source₁))
    (hchild : Key.random .invalid source₁ = (child, source₂)) (hslot : s.links.get? parent.id = none) :
    s.inject 1 source = (.ok [(parent.id, child.id)], s.linked parent child source₂) := by
  have hadded := addDecoys_succ 0 maxCollisions s source
  rw [hparent] at hadded
  dsimp only at hadded
  rw [hchild] at hadded
  dsimp only at hadded
  rw [insertLink_of_empty hs hslot] at hadded
  dsimp only at hadded
  rw [addDecoys] at hadded
  exact hadded

/-! Operations of calls. -/

theorem respond_set (s : Store) (parent : Key) (target : LinkTarget) (source : RandomSource) :
    s.respond source (.set parent target) =
      (.set (s.addLinkOn parent target source).1, (s.addLinkOn parent target source).2) := by
  rw [respond, addLinkOn_eq]
  cases s.addLink parent target source with
  | mk result source' => cases result <;> rfl

/-- An operation leaves the place of its file and its mode to a store. -/
theorem respond_edited (s : Store) (source : RandomSource) (call : Call) :
    s.Edited (s.respond source call).2.1 := by
  cases call with
  | set parent target =>
    rw [respond_set]
    exact s.after_edited (.addLink parent target source)
  | delete key scope =>
    rw [respond]
    cases Chain.resolve s.links key .use with
    | error e => exact .refl s
    | ok chain => exact s.after_edited (.deleteChain chain scope)
  | inject count => exact s.after_edited (.inject count source)
  | get key mode => exact .refl s
  | linkCount => exact .refl s

theorem session_append (s : Store) (calls calls' : List Call) (source : RandomSource) :
    s.session (calls ++ calls') source =
      ((s.session calls source).1 ++
          ((s.session calls source).2.1.session calls' (s.session calls source).2.2).1,
        ((s.session calls source).2.1.session calls' (s.session calls source).2.2).2) := by
  induction calls generalizing s source with
  | nil => rfl
  | cons call rest ih => simp only [List.cons_append, session, ih]

/-- Keys of distinct identifiers whose slots are empty are made a chain, link by link. The others must be such
    as can be read back from a link; the first may be any key. No other slot is filled. -/
theorem session_linking (hs : s.mode = .exclusive) {first : Key} {rest : List Key}
    (hdistinct : ((first :: rest).map Key.id).Nodup)
    (hempty : ∀ k ∈ first :: rest, s.links.get? k.id = none)
    (hrest : ∀ k ∈ rest, k.Sound ∧ k.isTerminal = false ∧ k.index = none) (source : RandomSource) :
    ∃ s' source', s.session (Call.linking first rest) source =
        (List.replicate (rest.length + 1) (.set (.ok ())), s', source') ∧ s'.mode = .exclusive ∧
      (∀ mode, Chain.resolve s'.links first mode = .ok ⟨first, rest⟩) ∧
      s'.size = s.size + (rest.length + 1) ∧
      ∀ id, id ∉ (first :: rest).map Key.id → s'.links.get? id = s.links.get? id := by
  induction rest generalizing first with
  | nil =>
    have hslot := hempty first List.mem_cons_self
    obtain ⟨s', source', hadd, hlinked⟩ := addLink_terminal hs hslot source
    have hlinks := congrArg Store.links (Prod.mk.inj hlinked).1
    refine ⟨s', source', ?_, ?_, fun mode => ?_, ?_, fun id hid => ?_⟩
    · simp only [Call.linking, session, respond, hadd]
      rfl
    · exact (congrArg Store.mode (Prod.mk.inj hlinked).1).trans hs
    · rw [hlinks]
      exact Chain.resolve_insert_closed _ mode (Link.decrypt_encryptWith _ first (.inl rfl)) rfl
    · rw [size, hlinks]
      exact OrderedMap.size_insert hslot _
    · rw [hlinks]
      exact Chain.get?_insert_ne (fun he : id = first.id => hid (he ▸ List.mem_cons_self)) _ _
  | cons next more ih =>
    obtain ⟨hfirst, hdistinct'⟩ := List.nodup_cons.1 hdistinct
    obtain ⟨s₁, source₁, hsession, hs₁, hchain, hsize, hframe⟩ := ih hdistinct'
      (fun k hk => hempty k (List.mem_cons_of_mem _ hk)) fun k hk => hrest k (List.mem_cons_of_mem _ hk)
    obtain ⟨hsound, hchild, hindex⟩ := hrest next List.mem_cons_self
    -- The slot of the first key is still empty, as it is none of the others.
    have hslot : s₁.links.get? first.id = none :=
      (hframe _ hfirst).trans (hempty first List.mem_cons_self)
    have hne : next.id ≠ first.id := fun he => hfirst (he ▸ List.mem_cons_self)
    have hadd : s₁.addLink first (.key next) source₁ =
        (.ok (s₁.linked first next source₁).1, (s₁.linked first next source₁).2) :=
      addLink_ok_iff.2 ⟨hs₁, hslot, fun _ hk => (by cases hk; exact hne), rfl⟩
    have hdecrypt : Link.decrypt first (Link.encrypt first next source₁).1.bytes = .ok next :=
      (Link.decrypt_encryptWith _ first hsound).trans (by rw [← hindex])
    refine ⟨(s₁.linked first next source₁).1, (s₁.linked first next source₁).2, ?_, hs₁, fun mode => ?_, ?_,
      fun id hid => ?_⟩
    · rw [Call.linking, session_append, hsession]
      simp only [session, respond, hadd, List.length_cons, List.replicate_succ']
    · exact Chain.resolve_insert_leads mode hdecrypt hchild (hchain .ignoreMissing) hfirst
    · rw [List.length_cons, ← Nat.add_assoc, ← hsize]
      exact OrderedMap.size_insert hslot _
    · obtain ⟨hid₁, hid₂⟩ := not_or.1 (mt List.mem_cons.2 hid)
      exact (Chain.get?_insert_ne hid₁ _ _).trans (hframe id hid₂)

end Store

namespace Root

variable {m : Machine} {root : Root} {dir : Location} {links : Links} {s : Store}

/-- Adding decoys does to the links what it does to those of a store that is kept open. Those that were added
    before a failure are written when the store is closed. -/
theorem run_inject_faultless (h : m.Stores root.path dir s.links) (hfaultless : m.diskFaults = {})
    (hs : s.path = Store.pathFor root.path) (hmode : s.mode = .exclusive) (count : Nat)
    (source : RandomSource) :
    ∃ m', (root.inject count source).run m =
        (((s.inject count source).1, (s.inject count source).2.2), m') ∧
      m'.diskFaults = {} ∧ m'.Stores root.path dir (s.inject count source).2.1.links := by
  obtain ⟨hhonest, hcan, -⟩ := DiskFaults.lets_all hfaultless
  obtain ⟨result, m₁, hopen, hsame₁, hcases⟩ := run_open_alike h hhonest hs hmode
  have hrun : (root.inject count source).run m = _ := Program.run_bind ..
  rw [hrun, hopen]
  rcases hcases with ⟨hclosed, -⟩ | ⟨opened, content, rfl, hbare, h₁, hpath, hspelled⟩
  · exact absurd hcan hclosed
  have hfaultless₁ : m₁.diskFaults = {} := hsame₁.trans hfaultless
  obtain ⟨-, -, hcan₁⟩ := DiskFaults.lets_all hfaultless₁
  -- The call works on a store with another lock and a clean flag.
  obtain ⟨hresult, hafter, hsource⟩ := Store.inject_alike hbare count source
  have hedited : opened.Edited (opened.inject count source).2.1 := opened.after_edited (.inject count source)
  rw [← hresult, ← hsource, ← Store.links_eq_of_bare hafter]
  dsimp only
  cases hinject : opened.inject count source with
  | mk result after =>
    obtain ⟨t, source'⟩ := after
    rw [hinject] at hedited
    cases result with
    | error e =>
      -- Nothing is flushed here, but the store is closed with its changes still to be written.
      obtain ⟨m', hclose, hsame, hstores⟩ := run_close h₁ hpath hspelled hedited
      refine ⟨m', ?_, hsame.trans hfaultless₁, ?_⟩
      · dsimp only
        rw [Program.run_bind, finish, Program.run_bind, hclose]
        rfl
      · rcases hstores with ⟨-, hstores⟩ | ⟨hcannot, -⟩
        · exact hstores
        · exact absurd hcan₁ hcannot
    | ok added =>
      obtain ⟨finished, m', hfinish, hsame, hend⟩ := run_finish_ok h₁ hpath hspelled hedited added
      refine ⟨m', ?_, hsame.trans hfaultless₁, ?_⟩
      · dsimp only at hfinish ⊢
        rw [Program.run_bind, hfinish]
        rcases hend with ⟨rfl, -⟩ | ⟨hcannot, -⟩
        · rfl
        · exact absurd hcan₁ hcannot
      · rcases hend with ⟨-, hstores⟩ | ⟨hcannot, -⟩
        · exact hstores
        · exact absurd hcan₁ hcannot

theorem run_linkCount_faultless (h : m.Stores root.path dir links) (hfaultless : m.diskFaults = {}) :
    ∃ m', root.linkCount.run m = (.ok links.size, m') ∧ m'.diskFaults = {} ∧
      m'.Stores root.path dir links := by
  obtain ⟨hhonest, hcan, -⟩ := DiskFaults.lets_all hfaultless
  obtain ⟨result, m₁, hopen, hsame₁, hcases⟩ := run_open h hhonest .shared
  have hrun : root.linkCount.run m = _ := Program.run_bind ..
  rw [hrun, hopen]
  rcases hcases with ⟨hclosed, -⟩ | ⟨lock, content, rfl, h₁, hspelled⟩
  · exact absurd hcan hclosed
  · let opened : Store := ⟨Store.pathFor root.path, links, false, .shared, lock⟩
    obtain ⟨m', hclose, hsame, hstores⟩ := @run_close_same m₁ root dir content opened h₁ rfl hspelled
    refine ⟨m', ?_, (hsame.trans hsame₁).trans hfaultless, hstores⟩
    dsimp only
    rw [Program.run_bind, hclose]
    rfl

/-- One call is one operation on the links in the file. -/
theorem run_respond (h : m.Stores root.path dir s.links) (hfaultless : m.diskFaults = {})
    (hs : s.path = Store.pathFor root.path) (hmode : s.mode = .exclusive) (source : RandomSource)
    (call : Call) :
    ∃ m', (root.respond source call).run m =
        (((s.respond source call).1, (s.respond source call).2.2), m') ∧
      m'.diskFaults = {} ∧ m'.Stores root.path dir (s.respond source call).2.1.links := by
  cases call with
  | set parent target =>
    obtain ⟨m', hrun, hm'⟩ := run_set_faultless h hfaultless hs hmode parent target source
    rw [Store.respond_set]
    refine ⟨m', ?_, hm'⟩
    rw [respond, Program.run_bind, hrun]
    rfl
  | delete key scope =>
    obtain ⟨result, m', hrun, hfaultless', hcalled⟩ := run_delete_faultless h hfaultless hs hmode key scope
    have hrun' : (root.respond source (.delete key scope)).run m = ((.delete result, source), m') := by
      rw [respond, Program.run_bind, hrun]
      rfl
    refine ⟨m', ?_⟩
    rw [hrun']
    rw [Store.respond]
    cases hresolve : Chain.resolve s.links key .use with
    | error e =>
      rw [hresolve] at hcalled
      obtain ⟨rfl, hstores⟩ := hcalled
      exact ⟨rfl, hfaultless', hstores⟩
    | ok chain =>
      rw [hresolve] at hcalled
      obtain ⟨rfl, hstores⟩ := hcalled
      exact ⟨rfl, hfaultless', hstores⟩
  | inject count =>
    obtain ⟨m', hrun, hm'⟩ := run_inject_faultless h hfaultless hs hmode count source
    refine ⟨m', ?_, hm'⟩
    rw [respond, Program.run_bind, hrun]
    rfl
  | get key mode =>
    obtain ⟨m', hrun, hm'⟩ := run_get_faultless h hfaultless key mode
    refine ⟨m', ?_, hm'⟩
    rw [respond, Program.run_bind, hrun]
    rfl
  | linkCount =>
    obtain ⟨m', hrun, hm'⟩ := run_linkCount_faultless h hfaultless
    refine ⟨m', ?_, hm'⟩
    rw [respond, Program.run_bind, hrun]
    rfl

/-- Calls are as many operations on the links in the file. -/
theorem run_session (calls : List Call) (h : m.Stores root.path dir s.links)
    (hfaultless : m.diskFaults = {}) (hs : s.path = Store.pathFor root.path) (hmode : s.mode = .exclusive)
    (source : RandomSource) :
    ∃ m', (root.session calls source).run m =
        (((s.session calls source).1, (s.session calls source).2.2), m') ∧
      m'.diskFaults = {} ∧ m'.Stores root.path dir (s.session calls source).2.1.links := by
  induction calls generalizing m s source with
  | nil => exact ⟨m, rfl, hfaultless, h⟩
  | cons call rest ih =>
    obtain ⟨m₁, hrun, hfaultless₁, h₁⟩ := run_respond h hfaultless hs hmode source call
    -- The store after the operation is again one of this root and open for changes.
    have hedited := s.respond_edited source call
    obtain ⟨m', hrest, hm'⟩ := ih h₁ hfaultless₁ (hedited.path.trans hs) (hedited.mode.trans hmode)
      (s.respond source call).2.2
    refine ⟨m', ?_, hm'⟩
    rw [session, Program.run_bind, hrun]
    dsimp only
    rw [Program.run_bind, hrest]
    rfl

/-- Keys of distinct identifiers become a chain of a root without a store file. -/
theorem run_linking (h : m.Holds root.path dir none none) (hfaultless : m.diskFaults = {}) {first : Key}
    {rest : List Key} (hdistinct : ((first :: rest).map Key.id).Nodup)
    (hrest : ∀ k ∈ rest, k.Sound ∧ k.isTerminal = false ∧ k.index = none) (source : RandomSource) :
    ∃ source' m' links, (root.session (Call.linking first rest) source).run m =
        ((List.replicate (rest.length + 1) (.set (.ok ())), source'), m') ∧
      m'.diskFaults = {} ∧ m'.Stores root.path dir links ∧
      ∀ mode, Chain.resolve links first mode = .ok ⟨first, rest⟩ := by
  let s : Store := ⟨Store.pathFor root.path, OrderedMap.empty, false, .exclusive, none⟩
  obtain ⟨s', source', hlinking, -, hchain, -⟩ :=
    @Store.session_linking s rfl first rest hdistinct (fun _ _ => rfl) hrest source
  obtain ⟨m', hrun, hfaultless', hstores⟩ := @run_session m root dir s (Call.linking first rest) ⟨none, h, rfl⟩
    hfaultless rfl rfl source
  rw [hlinking] at hrun hstores
  exact ⟨source', m', s'.links, hrun, hfaultless', hstores, hchain⟩

/-- Reopening cannot be seen. From a root without a store file on, whatever calls are made, with whatever random
    bytes, each opening the store anew: the answers and the random bytes left are those of the operations on
    one store that was opened once and never closed, and the file then gives the links of that store. -/
theorem session_reopens (h : m.Holds root.path dir none none) (hfaultless : m.diskFaults = {})
    (calls : List Call) (source : RandomSource) :
    ∃ lock opened m',
      let s : Store := ⟨Store.pathFor root.path, OrderedMap.empty, false, .exclusive, lock⟩
      (Store.openAt root.path .exclusive).run m = (.ok s, opened) ∧
        (root.session calls source).run m =
          (((s.session calls source).1, (s.session calls source).2.2), m') ∧
        (Store.load (Store.pathFor root.path)).run m' = (.ok (s.session calls source).2.1.links, m') := by
  have hstores : m.Stores root.path dir OrderedMap.empty := ⟨none, h, rfl⟩
  obtain ⟨hhonest, hcan, -⟩ := DiskFaults.lets_all hfaultless
  obtain ⟨result, opened, hopen, -, hcases⟩ := run_open hstores hhonest .exclusive
  rcases hcases with ⟨hclosed, -⟩ | ⟨lock, content, rfl, -⟩
  · exact absurd hcan hclosed
  let s : Store := ⟨Store.pathFor root.path, OrderedMap.empty, false, .exclusive, lock⟩
  obtain ⟨m', hrun, hfaultless', content', h', hspelled⟩ :=
    @run_session m root dir s calls hstores hfaultless rfl rfl source
  refine ⟨lock, opened, m', hopen, hrun, ?_⟩
  rw [Store.run_load_faultless h' hfaultless', hspelled]

/-- Decoys are added, none at first, and then a chain of two keys is. Its first key keeps its link. -/
theorem session_reopens_chain :
    let root : Root := ⟨⟨"/"⟩⟩
    let a := Key.ofByte 1
    let b := Key.ofByte 2
    let decoy := (Key.ofByte 0).id
    let source : RandomSource := ⟨fun _ => 0, 0⟩
    let m := Machine.new Disk.empty
    let calls := [.inject 0, .inject 1] ++ Call.linking a [b] ++ [.set a .terminal, .get a .use, .linkCount]
    m.Holds root.path Location.root none none ∧ m.diskFaults = {} ∧
      ((root.session calls source).run m).1.1 =
        [.inject (.error (.usage .noDecoys)), .inject (.ok [(decoy, decoy)]), .set (.ok ()), .set (.ok ()),
          .set (.error (.chainExists a.id b.id)), .get (.ok ⟨a, [b]⟩), .linkCount (.ok 3)] := by
  intro root a b decoy source m calls
  obtain ⟨lock, opened, m', -, hrun, -⟩ := @session_reopens m root Location.root holds_new rfl calls source
  refine ⟨holds_new, rfl, ?_⟩
  rw [hrun]
  generalize hs : (⟨Store.pathFor root.path, OrderedMap.empty, false, .exclusive, lock⟩ : Store) = s
  have hmode : s.mode = .exclusive := by rw [← hs]
  have hlinks : s.links = OrderedMap.empty := by rw [← hs]
  -- The bytes that are drawn are zeros, and so both keys of the decoy have the secret of zeros.
  let zeros : Key := .ofSecret .invalid (.zero secretSize)
  have hparent : Key.random .invalid source = (zeros, ⟨fun _ => 0, 64⟩) := by rfl
  have hchild : Key.random .invalid ⟨fun _ => 0, 64⟩ = (zeros, ⟨fun _ => 0, 128⟩) := by rfl
  have hzeros : zeros.id = decoy := congrArg Secret.keyId (by decide)
  have hnone : s.inject 0 source = (.error (.usage .noDecoys), s, source) := rfl
  have hone := Store.inject_one hmode hparent hchild (by rw [hlinks]; rfl)
  rw [hzeros] at hone
  have hinject : s.session [.inject 0, .inject 1] source = ([.inject (.error (.usage .noDecoys)),
      .inject (.ok [(decoy, decoy)])], s.linked zeros zeros ⟨fun _ => 0, 128⟩) := by
    simp only [Store.session, Store.respond, hnone, hone]
  -- No key of the chain has the slot of the decoy.
  obtain ⟨hdecoy, hdistinct⟩ := List.nodup_cons.1 Key.ids_ofByte_nodup
  have hempty : ∀ k ∈ [a, b], (s.linked zeros zeros ⟨fun _ => 0, 128⟩).1.links.get? k.id = none := by
    intro k hk
    have hne : k.id ≠ zeros.id := by
      intro he
      have hmem : k.id ∈ [a, b].map Key.id := List.mem_map_of_mem hk
      rw [he, hzeros] at hmem
      exact hdecoy hmem
    exact (Chain.get?_insert_ne hne _ _).trans (by rw [hlinks]; rfl)
  obtain ⟨s₂, source₂, hlinking, -, hchain, hsize, -⟩ := Store.session_linking (by exact hmode) hdistinct hempty
    (by simpa using ⟨Key.sound_ofByte 2, rfl, rfl⟩) (s.linked zeros zeros ⟨fun _ => 0, 128⟩).2
  have hkept : ∃ source₃, s₂.addLink a .terminal source₂ = (.error (.chainExists a.id b.id), source₃) := by
    rw [Store.addLink_eq, hchain]
    exact ⟨_, rfl⟩
  obtain ⟨source₃, hkept⟩ := hkept
  have hget : Chain.resolve s₂.links a .use = .ok ⟨a, [b]⟩ := hchain .use
  have hcount : s₂.size = 3 := by
    rw [hsize, Store.size, Store.linked, hlinks]
    rfl
  rw [Store.session_append, Store.session_append, hinject, hlinking]
  simp only [Store.session, Store.respond, hkept, hget, hcount]
  rfl

end Root

end KeyChain
