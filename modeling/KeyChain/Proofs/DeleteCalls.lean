import KeyChain.Proofs.Sessions
/-! Deleting a chain: nothing, or all that was asked for.

   1. `deleteLinks_ok`: along keys of distinct identifiers of which all but the last own a link, deleting
      cannot fail half way, since removing one link leaves the slots of the others alone;
   2. `deleteChain_ok`: a chain that was just resolved is such a list of keys;
   3. `delete_exact`: so a deletion fails where a look-up does and then leaves the file alone, or reports
      the hops that were asked for and empties the slots of their owners. -/
namespace KeyChain

/-- Each key of a list with the one behind it; behind the last there is none. -/
def hopsOf : List KeyId → List RemovedLink
  | [] => []
  | id :: rest => ⟨id, rest.head?⟩ :: hopsOf rest

namespace Store

variable {s : Store}

/-- An exclusive store empties a slot that is occupied, or need not be. -/
theorem deleteLink_ok (hmode : s.mode = .exclusive) {parent : Key} {required : Bool}
    (howned : required = true → s.links.get? parent.id ≠ none) :
    ∃ found s', s.deleteLink parent required = .ok (found, s') ∧ s'.mode = .exclusive ∧
      ∀ id, s'.links.get? id = if id = parent.id then none else s.links.get? id := by
  obtain ⟨found, s', hremove⟩ : ∃ found s', s.remove parent.id = .ok (found, s') := by
    unfold remove ensureWritable lookup?
    rw [hmode]
    cases s.links.get? parent.id <;> exact ⟨_, _, rfl⟩
  obtain ⟨-, hfound, hs'⟩ := remove_ok hremove
  have hmode' : s'.mode = .exclusive := by
    rw [hs']
    split <;> exact hmode
  rw [deleteLink_eq, hremove]
  cases found with
  | some record => exact ⟨true, s', rfl, hmode', get?_remove hremove⟩
  | none =>
    have hfree : required = false := by
      cases required with
      | false => rfl
      | true => exact absurd hfound.symm (howned rfl)
    subst hfree
    exact ⟨false, s', rfl, hmode', get?_remove hremove⟩

variable {key : Key} {rest : List Key}

/-- A key that owns a link, or is the last, loses its link and no other key does. With the smaller scope this is all,
    and else the others follow. -/
theorem deleteLinks_cons (hmode : s.mode = .exclusive) (howned : rest ≠ [] → s.links.get? key.id ≠ none) :
    ∃ s₁, s₁.mode = .exclusive ∧ (∀ id, s₁.links.get? id = if id = key.id then none else s.links.get? id) ∧
      deleteLinks .first s (key :: rest) = (.ok [⟨key.id, rest.head?.map Key.id⟩], s₁) ∧
      ∀ result s', deleteLinks .full s₁ rest = (result, s') →
        deleteLinks .full s (key :: rest) = (result.map (⟨key.id, rest.head?.map Key.id⟩ :: ·), s') := by
  have hrequired : (rest.head?.map Key.id).isSome = true → s.links.get? key.id ≠ none := by
    intro hsome
    refine howned fun hnil => ?_
    rw [hnil] at hsome
    cases hsome
  obtain ⟨found, s₁, hdelete, hmode₁, hslots₁⟩ := deleteLink_ok hmode hrequired
  refine ⟨s₁, hmode₁, hslots₁, ?_, fun result s' hrest => ?_⟩
  · rw [deleteLinks]
    simp only [hdelete]
  · rw [deleteLinks]
    simp only [hdelete, hrest]
    cases result <;> rfl

/-- A slot that was emptied for one key leaves what keys of other identifiers own. -/
theorem get?_emptied {s₁ : Store} (hslots : ∀ id, s₁.links.get? id = if id = key.id then none else s.links.get? id)
    (hkey : key.id ∉ rest.map Key.id) : ∀ k ∈ rest, s₁.links.get? k.id = s.links.get? k.id := by
  intro k hk
  have hne : k.id ≠ key.id := fun he => hkey (he ▸ List.mem_map_of_mem hk)
  rw [hslots, if_neg hne]

/-- Deleting along distinct keys of which all but the last own a link succeeds. It reports each with the
    next, and empties their slots and no others. -/
theorem deleteLinks_ok (scope : DeleteScope) (hmode : s.mode = .exclusive) {keys : List Key}
    (hnodup : (keys.map Key.id).Nodup) (howned : ∀ k ∈ keys.dropLast, s.links.get? k.id ≠ none) :
    ∃ s', deleteLinks scope s keys = (.ok (scope.part (hopsOf (keys.map Key.id))), s') ∧
      ∀ id, s'.links.get? id = if id ∈ scope.part (keys.map Key.id) then none else s.links.get? id := by
  induction keys generalizing s with
  | nil => cases scope <;> exact ⟨s, rfl, fun id => by simp [DeleteScope.part]⟩
  | cons key rest ih =>
    rw [List.map_cons, List.nodup_cons] at hnodup
    have hfirst : rest ≠ [] → s.links.get? key.id ≠ none := fun hrest =>
      howned key (by simp [List.dropLast_cons_of_ne_nil hrest])
    obtain ⟨s₁, hmode₁, hslots₁, honly, hmore⟩ := deleteLinks_cons hmode hfirst
    rw [List.map_cons, hopsOf, List.head?_map]
    cases scope with
    | first => exact ⟨s₁, honly, fun id => by simp [hslots₁, DeleteScope.part]⟩
    | full =>
      have howned₁ : ∀ k ∈ rest.dropLast, s₁.links.get? k.id ≠ none := by
        intro k hk
        have hmem : k ∈ rest := List.dropLast_subset rest hk
        rw [get?_emptied hslots₁ hnodup.1 k hmem]
        refine howned k ?_
        rw [List.dropLast_cons_of_ne_nil (List.ne_nil_of_mem hmem)]
        exact List.mem_cons_of_mem _ hk
      obtain ⟨s', hrest, hslots⟩ := ih hmode₁ hnodup.2 howned₁
      refine ⟨s', hmore _ _ hrest, fun id => ?_⟩
      rw [hslots, hslots₁]
      simp only [DeleteScope.part, List.mem_cons]
      by_cases hid : id = key.id <;> simp [hid]

/-- A chain that was just resolved is deleted without a failure on the way. -/
theorem deleteChain_ok (hmode : s.mode = .exclusive) {key : Key} {mode : ChainMode} {chain : Chain}
    (hchain : Chain.resolve s.links key mode = .ok chain) (scope : DeleteScope) :
    ∃ s', s.deleteChain chain scope = (.ok (scope.part (hopsOf chain.ids)), s') ∧
      ∀ id, s'.links.get? id = if id ∈ scope.part chain.ids then none else s.links.get? id := by
  obtain ⟨-, before, tail, walk, hkeys, -⟩ := Chain.resolve_ok_iff.1 hchain
  unfold deleteChain Chain.ids
  rw [hkeys]
  refine deleteLinks_ok scope hmode walk.nodup fun k hk => ?_
  rw [List.dropLast_concat] at hk
  exact walk.occupied k hk

/-- There is then something to write: the first key had a link. -/
theorem dirty_deleteChain (hmode : s.mode = .exclusive) {key : Key} {chain : Chain}
    (hchain : Chain.resolve s.links key .use = .ok chain) (scope : DeleteScope) :
    (s.deleteChain chain scope).2.dirty = true := by
  obtain ⟨s', hdelete, hslots⟩ := deleteChain_ok hmode hchain scope
  rcases (s.after_edited (.deleteChain chain scope)).marked with hdirty | ⟨-, hlinks⟩
  · exact hdirty
  · have hfirst : key.id ∈ scope.part chain.ids := by
      rw [← (Chain.resolve_shape hchain).1]
      cases scope <;> simp [DeleteScope.part, Chain.ids, Chain.keys]
    have hemptied := hslots key.id
    rw [if_pos hfirst, ← show (s.deleteChain chain scope).2 = s' from congrArg Prod.snd hdelete] at hemptied
    rw [show (s.deleteChain chain scope).2.links = s.links from hlinks] at hemptied
    exact absurd ⟨rfl, hemptied⟩ (Chain.resolve_ok_iff.1 hchain).1

example (a b : KeyId) : DeleteScope.first.part (hopsOf [a, b]) = [⟨a, some b⟩] := rfl

example (a b : KeyId) : DeleteScope.full.part (hopsOf [a, b]) = [⟨a, some b⟩, ⟨b, none⟩] := rfl

/-! What is opened, and what is done with it. -/

/-- What is opened for changes is what is opened for look-ups, if that needs a lock as well. -/
theorem opens_exclusive {f : DiskFaults} (hbars : ∀ cause, f.lock = some cause → cause.barsWriting = false)
    (root : Path) (content : Option Bytes) : opens root .exclusive f content = opens root .shared f content := by
  have hsame : f.lockError? .exclusive = f.lockError? .shared := by
    unfold DiskFaults.lockError?
    cases hlock : f.lock with
    | none => rfl
    | some cause => simp [Option.filter_some, hbars cause hlock]
  unfold opens
  rw [hsame]

/-- A store is opened for changes with the links that are there to look up, or not at all. -/
theorem opens_exclusive_cases (root : Path) (f : DiskFaults) (content : Option Bytes) :
    opens root .exclusive f content = opens root .shared f content ∨
      ∃ cause, f.lock = some cause ∧
        opens root .exclusive f content = .error (.store (lockPathFor root) cause) := by
  cases hlock : f.lock with
  | none => exact .inl (opens_exclusive (by simp [hlock]) root content)
  | some cause => exact .inr ⟨cause, rfl, by simp [opens, DiskFaults.lockError?, hlock, Option.filter_some]⟩

end Store

namespace Root

variable {m : Machine} {root : Root} {dir : Location} {content : Option Bytes}

/-- Where the chain is not resolved, a deletion tells why and leaves the file alone. -/
theorem run_delete_refused (h : m.Holds root.path dir content none) {key : Key} {e : KeychainError}
    (he : (do Chain.resolve (← Store.opens root.path .exclusive m.diskFaults content) key .use) = .error e)
    (scope : DeleteScope) :
    ∃ m', (root.delete key scope).run m = (.error e, m') ∧ m'.Holds root.path dir content none := by
  obtain ⟨result, lock, m₁, hopen, -, h₁, rfl⟩ := Store.run_openAt h .exclusive
  have hrun : (root.delete key scope).run m = _ := Program.run_bind ..
  rw [hrun, hopen]
  cases hlinks : Store.opens root.path .exclusive m.diskFaults content with
  | error e' =>
    rw [hlinks] at h₁ he
    cases he
    exact ⟨m₁, rfl, h₁⟩
  | ok links =>
    rw [hlinks] at h₁ he
    have hresolve : Chain.resolve links key .use = .error e := he
    let opened : Store := ⟨Store.pathFor root.path, links, false, .exclusive, lock⟩
    obtain ⟨m', hclose, -, h'⟩ := @Store.run_close_clean m₁ root.path dir content opened h₁ rfl rfl
    refine ⟨m', ?_, h'⟩
    dsimp only [Except.map]
    rw [hresolve]
    dsimp only
    rw [finish, Program.run_bind, hclose]
    rfl

/-- A chain that was looked up is one of the links that the file spells. -/
theorem spelled_of_opens {f : DiskFaults} {key : Key} {chain : Chain}
    (hchain : (do Chain.resolve (← Store.opens root.path .shared f content) key .use) = .ok chain)
    (hlock : f.lock = none) :
    f.read = none ∧ ∃ links, Store.spelled (Store.pathFor root.path) content = .ok links ∧
      Chain.resolve links key .use = .ok chain := by
  have hopens : Store.opens root.path .shared f content =
      Store.loaded (Store.pathFor root.path) f content := by
    simp [Store.opens, DiskFaults.lockError?, hlock]
  rw [hopens] at hchain
  unfold Store.loaded at hchain
  cases hread : f.read with
  | none =>
    rw [hread] at hchain
    dsimp only at hchain
    refine ⟨rfl, ?_⟩
    cases hlinks : Store.spelled (Store.pathFor root.path) content with
    | error e => rw [hlinks] at hchain; cases hchain
    | ok links =>
      rw [hlinks] at hchain
      exact ⟨links, rfl, hchain⟩
  | some cause =>
    rw [hread] at hchain
    cases cause with
    | noSuchFile =>
      -- No link is found then, so no chain is.
      have hnone : Chain.resolve OrderedMap.empty key .use = .ok chain := hchain
      exact absurd ⟨rfl, OrderedMap.get?_empty _⟩ (Chain.resolve_ok_iff.1 hnone).1
    | _ => cases hchain

/-- Deleting is atomic and exact, for every content of the store file, key and scope, whatever the disk
    refuses. If the look-up of the key fails, so does the deletion, and leaves the file alone; the error is
    the same, unless a root in which no lock can be made is looked up without one. If the look-up gives a
    chain, and the lock is granted and the file can be written, the deletion reports the hops that were
    asked for, and of the links in the file exactly those of their owners are gone. For deleting a chain
    that was just resolved never fails on the way. -/
theorem delete_exact (h : m.Holds root.path dir content none) (key : Key) (scope : DeleteScope) :
    (∀ e, ((root.get key .use).run m).1 = .error e →
      ∃ e' m', (root.delete key scope).run m = (.error e', m') ∧
        m'.disk.content? (dir.child Store.fileName) = content ∧
        ((∀ cause, m.diskFaults.lock = some cause → cause.barsWriting = false) → e' = e)) ∧
    (∀ chain, ((root.get key .use).run m).1 = .ok chain →
      m.diskFaults.lock = none → m.diskFaults.canWrite →
      ∃ links links' m', Store.spelled (Store.pathFor root.path) content = .ok links ∧
        (root.delete key scope).run m = (.ok (scope.part (hopsOf chain.ids)), m') ∧
        m'.Stores root.path dir links' ∧
        ∀ id, links'.get? id = if id ∈ scope.part chain.ids then none else links.get? id) ∧
    ∀ (s : Store) (chain : Chain), s.mode = .exclusive → Chain.resolve s.links key .use = .ok chain →
      ∃ s', s.deleteChain chain scope = (.ok (scope.part (hopsOf chain.ids)), s') ∧
        ∀ id, s'.links.get? id = if id ∈ scope.part chain.ids then none else s.links.get? id := by
  obtain ⟨_, hget, -⟩ := run_get_opens h key .use
  rw [hget]
  refine ⟨fun e he => ?_, fun chain hchain hlock hcan => ?_, fun s chain hmode hchain =>
    Store.deleteChain_ok hmode hchain scope⟩
  · rcases Store.opens_exclusive_cases root.path m.diskFaults content with hsame | ⟨cause, hlock, hrefused⟩
    · obtain ⟨m', hdelete, h'⟩ := run_delete_refused h (hsame ▸ he) scope
      exact ⟨e, m', hdelete, h'.content, fun _ => rfl⟩
    · obtain ⟨m', hdelete, h'⟩ := @run_delete_refused m root dir content h key _ (by rw [hrefused]; rfl) scope
      refine ⟨_, m', hdelete, h'.content, fun hbars => ?_⟩
      -- A lock that is needed either way is refused either way.
      rw [← Store.opens_exclusive hbars, hrefused] at he
      cases he
      rfl
  · obtain ⟨hread, links, hspelled, hresolve⟩ := spelled_of_opens hchain hlock
    let s : Store := ⟨Store.pathFor root.path, links, false, .exclusive, none⟩
    obtain ⟨s', hdeleted, hslots⟩ := @Store.deleteChain_ok s rfl _ _ _ hresolve scope
    have hhonest : m.diskFaults.Honest := by
      rw [DiskFaults.Honest, hread]
      simp
    obtain ⟨result, m', hdelete, -, hcases⟩ :=
      @run_delete m root dir s ⟨content, h, hspelled⟩ hhonest rfl rfl key scope
    rcases hcases with ⟨hrefused, -⟩ | hcalled
    · exact absurd ⟨⟨hlock, hread⟩, hcan⟩ hrefused
    rw [hresolve] at hcalled
    dsimp only at hcalled
    rw [hdeleted] at hcalled
    obtain ⟨rfl, hstores⟩ := hcalled
    exact ⟨links, s'.links, m', hspelled, hdelete, hstores, hslots⟩

/-- A chain of three keys, of which either the first link is deleted or every one. -/
theorem delete_exact_chain :
    let root : Root := ⟨⟨"/"⟩⟩
    let a := Key.ofByte 0
    let b := Key.ofByte 1
    let c := Key.ofByte 2
    let m := ((root.session (Call.linking a [b, c]) ⟨fun _ => 0, 0⟩).run (Machine.new Disk.empty)).2
    ∃ content links, m.Holds root.path Location.root content none ∧ m.diskFaults = {} ∧
      Store.spelled (Store.pathFor root.path) content = .ok links ∧
      ((root.get a .use).run m).1 = .ok ⟨a, [b, c]⟩ ∧
      (∃ links' m', (root.delete a .first).run m = (.ok [⟨a.id, some b.id⟩], m') ∧
        m'.Stores root.path Location.root links' ∧
        ∀ id, links'.get? id = if id ∈ [a.id] then none else links.get? id) ∧
      ∃ links' m', (root.delete a .full).run m =
          (.ok [⟨a.id, some b.id⟩, ⟨b.id, some c.id⟩, ⟨c.id, none⟩], m') ∧
        m'.Stores root.path Location.root links' ∧
        ∀ id, links'.get? id = if id ∈ [a.id, b.id, c.id] then none else links.get? id := by
  intro root a b c m
  obtain ⟨source', m₁, links, hrun, hfaultless, ⟨content, h, hspelled⟩, hchain⟩ := @run_linking
    (Machine.new Disk.empty) root Location.root holds_new rfl a [b, c] Key.ids_ofByte_nodup
    (by simpa using ⟨⟨Key.sound_ofByte 1, rfl, rfl⟩, Key.sound_ofByte 2, rfl, rfl⟩) ⟨fun _ => 0, 0⟩
  have hm : m = m₁ := congrArg Prod.snd hrun
  rw [← hm] at hfaultless h
  obtain ⟨m₂, hget, -⟩ := run_get_faultless ⟨content, h, hspelled⟩ hfaultless a .use
  have hchain' : ((root.get a .use).run m).1 = .ok ⟨a, [b, c]⟩ := by
    rw [hget]
    exact hchain .use
  obtain ⟨-, -, hcan⟩ := DiskFaults.lets_all hfaultless
  have hlock : m.diskFaults.lock = none := by rw [hfaultless]
  have hdelete := fun scope => (delete_exact h a scope).2.1 _ hchain' hlock hcan
  refine ⟨content, links, h, hfaultless, hspelled, hchain', ?_, ?_⟩
  · obtain ⟨links₀, links', m', hlinks, hfirst, hstores, hslots⟩ := hdelete .first
    obtain rfl := Except.ok.inj (hspelled.symm.trans hlinks)
    exact ⟨links', m', hfirst, hstores, hslots⟩
  · obtain ⟨links₀, links', m', hlinks, hfull, hstores, hslots⟩ := hdelete .full
    obtain rfl := Except.ok.inj (hspelled.symm.trans hlinks)
    exact ⟨links', m', hfull, hstores, hslots⟩

end Root

end KeyChain
