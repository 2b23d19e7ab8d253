import KeyChain.Proofs.Loop
import KeyChain.Proofs.RootCalls
/-! Loops in the store of a root. Linking looks at the chain of the parent only, so it refuses a child that
   is on that chain, and makes a link that closes a loop through the chain of the child.

   1. `Attempt.run_loopFree`: on links without a loop, a call makes one exactly if it succeeds in making
      a link that closes one;
   2. `clear_iff`: look-ups and deletions are free of loops exactly if the links are;
   3. `set_both_ways`: two calls that succeed and leave a chain that can neither be resolved nor
      deleted;
   4. `clear_attempts_iff`: along every list of calls that begins without a loop, look-ups and deletions
      stay free of loops exactly if no call on the way makes a link that closes one. -/
namespace KeyChain

/-- A call that changes the chains of a root. -/
inductive Edit where
  | set (parent : Key) (target : LinkTarget)
  | delete (key : Key) (scope : DeleteScope)
  deriving DecidableEq

/-- The call, and the random bytes it leaves. -/
def Edit.call (root : Root) (source : RandomSource) : Edit → Program RandomSource
  | .set parent target => do
    let (_, source) ← root.set parent target source
    return source
  | .delete key scope => do
    let _ ← root.delete key scope
    return source

/-- What a disk that can be believed refuses during a call. -/
structure Refusals where
  faults : DiskFaults
  honest : faults.Honest

/-- Nothing is refused. -/
def Refusals.none : Refusals := ⟨{}, (DiskFaults.lets_all rfl).1⟩

/-- A machine whose disk refuses these requests. -/
def Machine.facing (m : Machine) (refusals : Refusals) : Machine := { m with diskFaults := refusals.faults }

/-- A call, and what the disk refuses while it is made. -/
structure Attempt where
  edit : Edit
  refusals : Refusals

/-- The random bytes and the machine after an attempt. -/
def Attempt.run (root : Root) (now : RandomSource × Machine) (a : Attempt) : RandomSource × Machine :=
  (a.edit.call root now.1).run (now.2.facing a.refusals)

/-- Attempts one after the other. -/
def Root.attempts (root : Root) : List Attempt → RandomSource × Machine → RandomSource × Machine
  | [], now => now
  | a :: rest, now => root.attempts rest (a.run root now)

/-- Whether an attempt succeeds in making a link that closes a loop over the links that were there. -/
def Attempt.ClosesLoop (root : Root) (dir : Location) (now : RandomSource × Machine) (a : Attempt) : Prop :=
  ∃ parent target source' m' links links' record, a.edit = .set parent target ∧
    (root.set parent target now.1).run (now.2.facing a.refusals) = ((.ok (), source'), m') ∧
    now.2.Stores root.path dir links ∧ m'.Stores root.path dir links' ∧
    links'.get? parent.id = some record ∧ Chain.Closes links parent.id record

/-- Whether no look-up and no deletion fails with a loop, whatever the disk refuses. -/
def Root.Clear (root : Root) (m : Machine) : Prop :=
  ∀ refusals key last back,
    (∀ mode, ((root.get key mode).run (m.facing refusals)).1 ≠ .error (.corrupted (.loop last back))) ∧
    ∀ scope, ((root.delete key scope).run (m.facing refusals)).1 ≠ .error (.corrupted (.loop last back))

variable {m : Machine} {root : Root} {dir : Location} {links : Links}

theorem Machine.facing_none (h : m.diskFaults = {}) : m.facing .none = m := by
  show ({ m with diskFaults := {} } : Machine) = m
  rw [← h]

theorem Machine.Stores.facing (h : m.Stores root.path dir links) (refusals : Refusals) :
    (m.facing refusals).Stores root.path dir links := by
  obtain ⟨content, hholds, hspelled⟩ := h
  exact ⟨content, ⟨hholds.hosts, hholds.content, hholds.locks⟩, hspelled⟩

/-- The store of a root that is kept open. -/
def Store.keeping (root : Path) (links : Links) : Store := ⟨Store.pathFor root, links, false, .exclusive, none⟩

/-! One call. -/

namespace Attempt

variable {now : RandomSource × Machine} {parent : Key} {target : LinkTarget} {refusals : Refusals}

/-- An attempt to link leaves the random bytes and the machine that the call leaves. -/
theorem run_set_eq {result : Except KeychainError Unit × RandomSource} {m' : Machine}
    (hrun : (root.set parent target now.1).run (now.2.facing refusals) = (result, m')) :
    run root now ⟨.set parent target, refusals⟩ = (result.2, m') := by
  unfold run Edit.call
  rw [Program.run_bind, hrun]
  rfl

theorem run_of_set {result : Except KeychainError Unit × RandomSource} {m' : Machine}
    (hrun : (root.set parent target now.1).run (now.2.facing refusals) = (result, m')) :
    (run root now ⟨.set parent target, refusals⟩).2 = m' :=
  congrArg Prod.snd (run_set_eq hrun)

theorem run_of_delete {key : Key} {scope : DeleteScope} {result : Except KeychainError (List RemovedLink)}
    {m' : Machine} (hrun : (root.delete key scope).run (now.2.facing refusals) = (result, m')) :
    (run root now ⟨.delete key scope, refusals⟩).2 = m' := by
  unfold run Edit.call
  rw [Program.run_bind, hrun]
  rfl

/-- A call that fails makes no link. -/
theorem not_closesLoop_of_error {e : KeychainError} {source' : RandomSource} {m' : Machine}
    (hrun : (root.set parent target now.1).run (now.2.facing refusals) = ((.error e, source'), m')) :
    ¬ ClosesLoop root dir now ⟨.set parent target, refusals⟩ := by
  intro hcloses
  obtain ⟨parent', target', source'', m'', old, new, record, hedit, hok, -⟩ := hcloses
  cases hedit
  rw [hrun] at hok
  cases hok

/-- A call that succeeds makes a link that closes a loop exactly if the record in the parent's slot does. -/
theorem closesLoop_iff {source' : RandomSource} {m' : Machine} {record : Record}
    (hrun : (root.set parent target now.1).run (now.2.facing refusals) = ((.ok (), source'), m'))
    (h : now.2.Stores root.path dir links)
    (h' : m'.Stores root.path dir (links.insert parent.id record)) :
    ClosesLoop root dir now ⟨.set parent target, refusals⟩ ↔ Chain.Closes links parent.id record := by
  constructor
  · intro hcloses
    obtain ⟨parent', target', source'', m'', old, new, record', hedit, hok, hold, hnew, hslot, hcloses⟩ := hcloses
    cases hedit
    rw [hrun] at hok
    obtain rfl : m' = m'' := (Prod.mk.inj hok).2
    obtain rfl := hold.unique h
    obtain rfl := hnew.unique h'
    obtain rfl := Option.some.inj (hslot.symm.trans (Chain.get?_insert_self _ _ _))
    exact hcloses
  · intro hcloses
    exact ⟨parent, target, source', m', links, _, record, rfl, hrun, h, h', Chain.get?_insert_self _ _ _, hcloses⟩

theorem run_set_loopFree (h : now.2.Stores root.path dir links) (hfree : Chain.LoopFree links)
    (parent : Key) (target : LinkTarget) (refusals : Refusals) :
    ∃ links', (run root now ⟨.set parent target, refusals⟩).2.Stores root.path dir links' ∧
      (Chain.LoopFree links' ↔ ¬ ClosesLoop root dir now ⟨.set parent target, refusals⟩) := by
  obtain ⟨⟨outcome, source'⟩, m', hrun, -, hcases⟩ := @Root.run_set _ root dir (Store.keeping root.path links)
    (h.facing refusals) refusals.honest rfl rfl parent target now.1
  rw [run_of_set hrun]
  rcases hcases with ⟨-, hbarred, hstores⟩ | ⟨hresult, hstores⟩
  · cases hbarred
    exact ⟨links, hstores, iff_of_true hfree (not_closesLoop_of_error hrun)⟩
  rw [Store.addLinkOn_eq] at hresult hstores
  cases hadd : (Store.keeping root.path links).addLink parent target now.1 with
  | mk added source'' =>
    rw [hadd] at hresult hstores
    cases added with
    | error e =>
      cases hresult
      exact ⟨links, hstores, iff_of_true hfree (not_closesLoop_of_error hrun)⟩
    | ok s' =>
      cases hresult
      obtain ⟨-, hparent, -, hlinked⟩ := Store.addLink_ok_iff.1 hadd
      obtain ⟨rfl, -⟩ := Prod.mk.inj hlinked
      exact ⟨_, hstores, (Chain.loopFree_insert_iff hparent hfree).trans
        (not_congr (closesLoop_iff hrun h hstores).symm)⟩

theorem run_delete_loopFree (h : now.2.Stores root.path dir links) (hfree : Chain.LoopFree links)
    (key : Key) (scope : DeleteScope) (refusals : Refusals) :
    ∃ links', (run root now ⟨.delete key scope, refusals⟩).2.Stores root.path dir links' ∧
      Chain.LoopFree links' := by
  obtain ⟨result, m', hrun, -, hcases⟩ := @Root.run_delete _ root dir (Store.keeping root.path links)
    (h.facing refusals) refusals.honest rfl rfl key scope
  rw [run_of_delete hrun]
  rcases hcases with ⟨-, -, hstores⟩ | hcalled
  · exact ⟨links, hstores, hfree⟩
  cases hresolve : Chain.resolve (Store.keeping root.path links).links key .use with
  | error e =>
    rw [hresolve] at hcalled
    exact ⟨links, hcalled.2, hfree⟩
  | ok chain =>
    rw [hresolve] at hcalled
    have hslots := Store.deleteLinks_emptied scope (Store.keeping root.path links) chain.keys
    exact ⟨_, hcalled.2, Chain.loopFree_of_emptied hfree hslots⟩

/-- On links without a loop, an attempt makes one exactly if it succeeds in making a link that closes one. -/
theorem run_loopFree (h : now.2.Stores root.path dir links) (hfree : Chain.LoopFree links) (a : Attempt) :
    ∃ links', (a.run root now).2.Stores root.path dir links' ∧
      (Chain.LoopFree links' ↔ ¬ a.ClosesLoop root dir now) := by
  obtain ⟨edit, refusals⟩ := a
  cases edit with
  | set parent target => exact run_set_loopFree h hfree parent target refusals
  | delete key scope =>
    obtain ⟨links', h', hfree'⟩ := run_delete_loopFree h hfree key scope refusals
    refine ⟨links', h', iff_of_true hfree' fun hcloses => ?_⟩
    obtain ⟨parent, target, source', m'', old, new, record, hedit, -⟩ := hcloses
    cases hedit

end Attempt

theorem Barred.ne_corrupted {α : Type} {result : Except KeychainError α} (h : Barred result)
    (what : Corruption) : result ≠ .error (.corrupted what) := by
  intro he
  cases h
  cases he

/-- Look-ups and deletions are free of loops exactly if the links are. -/
theorem clear_iff (h : m.Stores root.path dir links) : root.Clear m ↔ Chain.LoopFree links := by
  constructor
  · intro hclear key mode last back hloop
    obtain ⟨result, m', hrun, -, -, hcases⟩ :=
      Root.run_get (h.facing .none) Refusals.none.honest key mode
    rcases hcases with ⟨hclosed, -⟩ | rfl
    · exact hclosed ⟨rfl, rfl⟩
    · refine (hclear .none key last back).1 mode ?_
      rw [hrun]
      exact hloop
  · intro hfree refusals key last back
    constructor
    · intro mode
      obtain ⟨result, m', hrun, -, -, hcases⟩ := Root.run_get (h.facing refusals) refusals.honest key mode
      rw [hrun]
      rcases hcases with ⟨-, hbarred⟩ | rfl
      · exact hbarred.ne_corrupted _
      · exact hfree key mode last back
    · intro scope
      obtain ⟨result, m', hrun, -, hcases⟩ := @Root.run_delete _ root dir (Store.keeping root.path links)
        (h.facing refusals) refusals.honest rfl rfl key scope
      rw [hrun]
      rcases hcases with ⟨-, hbarred, -⟩ | hcalled
      · exact hbarred.ne_corrupted _
      cases hresolve : Chain.resolve (Store.keeping root.path links).links key .use with
      | error e =>
        rw [hresolve] at hcalled
        rw [hcalled.1]
        intro he
        injection he with he
        exact hfree key .use last back (he ▸ hresolve)
      | ok chain =>
        rw [hresolve] at hcalled
        rw [hcalled.1]
        exact Store.deleteLinks_fault scope (Store.keeping root.path links) chain.keys _

/-! A loop of two. -/

/-- Two links between two keys, one in each direction, are a loop. -/
theorem loop_of_both_links {a b : Key} (hids : a.id ≠ b.id) (nonce nonce' : FixedBytes 24)
    (ha : a.Sound ∧ a.isTerminal = false) (hb : b.Sound ∧ b.isTerminal = false)
    (hslot : links.get? a.id = some (Link.encryptWith nonce a b))
    (hslot' : links.get? b.id = some (Link.encryptWith nonce' b a)) (mode : ChainMode) :
    Chain.resolve links a mode = .error (.corrupted (.loop b.id a.id)) := by
  have hforth : Chain.opening links a = .leads { b with index := none } :=
    Chain.opening_eq_leads.2 ⟨_, hslot, Link.decrypt_encryptWith nonce a hb.1, hb.2⟩
  have hback : Chain.opening links { b with index := none } = .leads { a with index := none } :=
    Chain.opening_eq_leads.2 ⟨_, hslot', Link.decrypt_encryptWith nonce' b ha.1, ha.2⟩
  refine Chain.resolve_loop_iff.2 ⟨[a], _, _, Chain.Walk.hop .start hforth ?_, hback, ?_, rfl, rfl⟩
  · simpa using hids.symm
  · simp

/-- Linking two keys in both directions succeeds both times: the second link is checked against a chain that
    has only its parent. -/
theorem addLink_both_ways {a b : Key} (hids : a.id ≠ b.id) (path : Path) (source : RandomSource) :
    ∃ s₁ source₁ s₂ source₂ nonce nonce',
      (Store.keeping path .empty).addLink a (.key b) source = (.ok s₁, source₁) ∧
      s₁.addLink b (.key a) source₁ = (.ok s₂, source₂) ∧
      s₁.path = Store.pathFor path ∧ s₁.mode = .exclusive ∧
      s₂.links.get? a.id = some (Link.encryptWith nonce a b) ∧
      s₂.links.get? b.id = some (Link.encryptWith nonce' b a) := by
  let s := Store.keeping path .empty
  let s₁ := (s.linked a b source).1
  let source₁ := (s.linked a b source).2
  have hempty : s₁.links.get? b.id = none := Chain.get?_insert_ne hids.symm _ _
  have hadd : s.addLink a (.key b) source = (.ok s₁, source₁) :=
    Store.addLink_ok_iff.2 ⟨rfl, rfl, fun _ hk => (by cases hk; exact hids.symm), rfl⟩
  have hadd₁ : s₁.addLink b (.key a) source₁ = (.ok (s₁.linked b a source₁).1, (s₁.linked b a source₁).2) :=
    Store.addLink_ok_iff.2 ⟨rfl, hempty, fun _ hk => (by cases hk; exact hids), rfl⟩
  refine ⟨s₁, source₁, _, _, (source.draw 24).1, (source₁.draw 24).1, hadd, hadd₁, rfl, rfl, ?_, ?_⟩
  · exact (Chain.get?_insert_ne hids _ _).trans (Chain.get?_insert_self _ _ _)
  · exact Chain.get?_insert_self _ _ _

/-- Calls that link two keys in both directions both succeed, and leave a loop. -/
theorem run_set_both_ways {a b : Key} (hids : a.id ≠ b.id) (ha : a.Sound ∧ a.isTerminal = false)
    (hb : b.Sound ∧ b.isTerminal = false) (hfaultless : m.diskFaults = {})
    (h : m.Holds root.path dir none none) (source : RandomSource) :
    ∃ source₁ m₁ source₂ m₂ links,
      (root.set a (.key b) source).run m = ((.ok (), source₁), m₁) ∧ m₁.diskFaults = {} ∧
      (root.set b (.key a) source₁).run m₁ = ((.ok (), source₂), m₂) ∧ m₂.diskFaults = {} ∧
      m₂.Stores root.path dir links ∧
      ∀ mode, Chain.resolve links a mode = .error (.corrupted (.loop b.id a.id)) := by
  obtain ⟨s₁, source₁, s₂, source₂, nonce, nonce', hadd, hadd₁, hpath, hmode, hslot, hslot'⟩ :=
    addLink_both_ways hids root.path source
  have hstores : m.Stores root.path dir (Store.keeping root.path .empty).links := ⟨none, h, rfl⟩
  obtain ⟨m₁, hrun₁, hfaultless₁, h₁⟩ := Root.run_set_faultless hstores hfaultless rfl rfl a (.key b) source
  rw [Store.addLinkOn_eq, hadd] at hrun₁ h₁
  obtain ⟨m₂, hrun₂, hfaultless₂, h₂⟩ :=
    @Root.run_set_faultless m₁ root dir s₁ h₁ hfaultless₁ hpath hmode b (.key a) source₁
  rw [Store.addLinkOn_eq, hadd₁] at hrun₂ h₂
  exact ⟨source₁, m₁, source₂, m₂, s₂.links, hrun₁, hfaultless₁, hrun₂, hfaultless₂, h₂,
    loop_of_both_links hids nonce nonce' ha hb hslot hslot'⟩

/-- Afterwards the chain can neither be resolved nor deleted. -/
theorem set_both_ways {a b : Key} (hids : a.id ≠ b.id) (ha : a.Sound ∧ a.isTerminal = false)
    (hb : b.Sound ∧ b.isTerminal = false) (hfaultless : m.diskFaults = {})
    (h : m.Holds root.path dir none none) (source : RandomSource) :
    let first := (root.set a (.key b) source).run m
    let second := (root.set b (.key a) first.1.2).run first.2
    first.1.1 = .ok () ∧ second.1.1 = .ok () ∧
      (∀ mode, ((root.get a mode).run second.2).1 = .error (.corrupted (.loop b.id a.id))) ∧
      ∀ scope, ((root.delete a scope).run second.2).1 = .error (.corrupted (.loop b.id a.id)) := by
  obtain ⟨source₁, m₁, source₂, m₂, links, hrun₁, -, hrun₂, hfaultless₂, h₂, hloop⟩ :=
    run_set_both_ways hids ha hb hfaultless h source
  intro first second
  have hfirst : first = ((.ok (), source₁), m₁) := hrun₁
  have hsecond : second = ((.ok (), source₂), m₂) := by
    show (root.set b (.key a) first.1.2).run first.2 = _
    rw [hfirst]
    exact hrun₂
  rw [hfirst, hsecond]
  refine ⟨rfl, rfl, fun mode => ?_, fun scope => ?_⟩
  · obtain ⟨m₃, hrun₃, -⟩ := Root.run_get_faultless h₂ hfaultless₂ a mode
    rw [hrun₃]
    exact hloop mode
  · obtain ⟨result, m₃, hrun₃, -, hcalled⟩ := @Root.run_delete_faultless m₂ root dir
      (Store.keeping root.path links) h₂ hfaultless₂ rfl rfl a scope
    rw [show Chain.resolve (Store.keeping root.path links).links a .use = _ from hloop .use] at hcalled
    rw [hrun₃]
    exact hcalled.1

/-- As attempts, they leave a root that is not clear. -/
theorem attempts_both_ways {a b : Key} (hids : a.id ≠ b.id) (ha : a.Sound ∧ a.isTerminal = false)
    (hb : b.Sound ∧ b.isTerminal = false) (hfaultless : m.diskFaults = {})
    (h : m.Holds root.path dir none none) (source : RandomSource) :
    ∃ source₁ m₁ source₂ m₂,
      (root.set a (.key b) source).run m = ((.ok (), source₁), m₁) ∧
      (root.set b (.key a) source₁).run m₁ = ((.ok (), source₂), m₂) ∧
      root.attempts [⟨.set a (.key b), .none⟩, ⟨.set b (.key a), .none⟩] (source, m) = (source₂, m₂) ∧
      ¬ root.Clear m₂ := by
  obtain ⟨source₁, m₁, source₂, m₂, links, hrun₁, hfaultless₁, hrun₂, -, h₂, hloop⟩ :=
    run_set_both_ways hids ha hb hfaultless h source
  have hrun₁' := hrun₁
  have hrun₂' := hrun₂
  rw [← Machine.facing_none hfaultless] at hrun₁'
  rw [← Machine.facing_none hfaultless₁] at hrun₂'
  refine ⟨source₁, m₁, source₂, m₂, hrun₁, hrun₂, ?_, fun hclear => (clear_iff h₂).1 hclear a .use _ _ (hloop .use)⟩
  rw [Root.attempts, @Attempt.run_set_eq root (source, m) _ _ _ _ _ hrun₁', Root.attempts,
    @Attempt.run_set_eq root (source₁, m₁) _ _ _ _ _ hrun₂', Root.attempts]

/-! Lists of calls. -/

/-- Whether something holds of every part that a list begins with, said from the first element on. -/
theorem forall_prefix_cons {α : Type} {P : List α → Prop} {a : α} {rest : List α} :
    (∀ past, past <+: a :: rest → P past) ↔ P [] ∧ ∀ past, past <+: rest → P (a :: past) := by
  constructor
  · intro h
    exact ⟨h [] List.nil_prefix, fun past hpast => h (a :: past) (List.cons_prefix_cons.2 ⟨rfl, hpast⟩)⟩
  · intro h past hpast
    obtain ⟨hnil, hcons⟩ := h
    rcases List.prefix_cons_iff.1 hpast with rfl | ⟨past, rfl, hrest⟩
    · exact hnil
    · exact hcons past hrest

/-- A root that begins without a loop stays clear exactly if no attempt on the way makes a link that closes
    one. -/
theorem clear_attempts_iff {now : RandomSource × Machine} (h : now.2.Stores root.path dir links)
    (hfree : Chain.LoopFree links) (attempts : List Attempt) :
    (∀ past, past <+: attempts → root.Clear (root.attempts past now).2) ↔
      ∀ past a, past ++ [a] <+: attempts → ¬ a.ClosesLoop root dir (root.attempts past now) := by
  induction attempts generalizing now links with
  | nil =>
    constructor
    · intro _ past a hpast
      simpa using List.prefix_nil.1 hpast
    · intro _ past hpast
      obtain rfl := List.prefix_nil.1 hpast
      exact (clear_iff h).2 hfree
  | cons a rest ih =>
    -- After the first attempt the induction goes on with the links that it left.
    obtain ⟨links', h', hstep⟩ := a.run_loopFree h hfree
    rw [forall_prefix_cons]
    constructor
    · intro h past a' hpast
      obtain ⟨-, hrest⟩ := h
      have hfree' : Chain.LoopFree links' := (clear_iff h').1 (hrest [] List.nil_prefix)
      cases past with
      | nil =>
        obtain ⟨rfl, -⟩ := List.cons_prefix_cons.1 hpast
        exact hstep.1 hfree'
      | cons first past =>
        obtain ⟨rfl, hpast'⟩ := List.cons_prefix_cons.1 hpast
        exact (ih h' hfree').1 hrest past a' hpast'
    · intro hopen
      have hfree' := hstep.2 (hopen [] a (List.cons_prefix_cons.2 ⟨rfl, List.nil_prefix⟩))
      refine ⟨(clear_iff h).2 hfree, (ih h' hfree').2 fun past a' hpast => ?_⟩
      exact hopen (a :: past) a' (List.cons_prefix_cons.2 ⟨rfl, hpast⟩)

/-- From a root without a store file on, whatever calls are made and whatever the disk refuses, no look-up
    and no deletion finds a loop exactly if no call on the way succeeds in making a link that closes one. -/
theorem attempts_clear_iff (h : m.Holds root.path dir none none) (attempts : List Attempt)
    (source : RandomSource) :
    (∀ past, past <+: attempts → root.Clear (root.attempts past (source, m)).2) ↔
      ∀ past a, past ++ [a] <+: attempts → ¬ a.ClosesLoop root dir (root.attempts past (source, m)) := by
  have hstores : m.Stores root.path dir OrderedMap.empty := ⟨none, h, rfl⟩
  exact @clear_attempts_iff root dir OrderedMap.empty (source, m) hstores Chain.loopFree_empty attempts

/-- Two calls that succeed, each of which links one of two keys to the other. A look-up then finds a loop, so one
    of them makes a link that closes it. -/
theorem attempts_clear_iff_both_ways :
    let a := Key.ofByte 1
    let b := Key.ofByte 2
    let root : Root := ⟨⟨"/"⟩⟩
    let source : RandomSource := ⟨fun _ => 0, 0⟩
    let m := Machine.new Disk.empty
    let attempts : List Attempt := [⟨.set a (.key b), .none⟩, ⟨.set b (.key a), .none⟩]
    m.Holds root.path Location.root none none ∧
    ∃ source₁ m₁ source₂ m₂,
      (root.set a (.key b) source).run m = ((.ok (), source₁), m₁) ∧
      (root.set b (.key a) source₁).run m₁ = ((.ok (), source₂), m₂) ∧
      root.attempts attempts (source, m) = (source₂, m₂) ∧ ¬ root.Clear m₂ ∧
      ∃ past a, past ++ [a] <+: attempts ∧ a.ClosesLoop root Location.root (root.attempts past (source, m)) := by
  intro a b root source m attempts
  obtain ⟨source₁, m₁, source₂, m₂, hrun₁, hrun₂, hattempts, hloops⟩ := @attempts_both_ways m root Location.root a b
    Key.id_ofByte_ne ⟨Key.sound_ofByte 1, rfl⟩ ⟨Key.sound_ofByte 2, rfl⟩ rfl holds_new source
  refine ⟨holds_new, source₁, m₁, source₂, m₂, hrun₁, hrun₂, hattempts, hloops, ?_⟩
  by_contra hnone
  refine hloops ?_
  have hclear := (attempts_clear_iff holds_new attempts source).2
    (fun past a hpast hcloses => hnone ⟨past, a, hpast, hcloses⟩) attempts (List.prefix_refl _)
  rw [hattempts] at hclear
  exact hclear

/-- Two links in opposite directions between two keys of repeated bytes. -/
theorem set_closes_loop :
    let a := Key.ofSecret .aes256Xts ⟨List.replicate 64 1, rfl⟩
    let b := Key.ofSecret .aes256Xts ⟨List.replicate 64 2, rfl⟩
    let root : Root := ⟨⟨"/"⟩⟩
    let first := (root.set a (.key b) ⟨fun _ => 0, 0⟩).run (Machine.new Disk.empty)
    let second := (root.set b (.key a) first.1.2).run first.2
    first.1.1 = .ok () ∧ second.1.1 = .ok () ∧
      (∀ mode, ((root.get a mode).run second.2).1 = .error (.corrupted (.loop b.id a.id))) ∧
      ∀ scope, ((root.delete a scope).run second.2).1 = .error (.corrupted (.loop b.id a.id)) := by
  intro a b root
  have hids : a.id ≠ b.id := Key.id_ofByte_ne
  have ha : a.Sound ∧ a.isTerminal = false := ⟨Key.sound_ofSecret _ _, Key.isTerminal_ofSecret _ _⟩
  have hb : b.Sound ∧ b.isTerminal = false := ⟨Key.sound_ofSecret _ _, Key.isTerminal_ofSecret _ _⟩
  exact set_both_ways hids ha hb rfl holds_new ⟨fun _ => 0, 0⟩

end KeyChain
