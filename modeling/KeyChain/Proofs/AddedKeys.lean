import KeyChain.Proofs.Actions
import KeyChain.Proofs.VaultRuns
/-! What is told of an installation that fails. A key is added in memory first, and only then is the entry
   written, so a key whose addition fails is in memory as well: either the entry could not be written, or the
   key's identifier was there before. The number of keys that are said to have been added is taken from memory.

   1. `find?_of_add`: once it has been tried, a key is in memory, whatever became of it;
   2. `install_fails_iff`: an installation fails at the key of a position, with those before it added;
   3. `countLeading_of_failsAt`: the key it failed at is counted, and so are those behind it that were there
      before;
   4. `added_overstated`: so a command that fails to add a key says that it has added it. -/
namespace KeyChain

namespace Keyring

variable {r r' : Keyring} {key : Key} {id : KeyId}

/-- Keys that are all installed count before those behind them. -/
theorem countLeading_append {before : List Key} (h : ∀ k ∈ before, (r.find? k.id).isSome) (after : List Key) :
    r.countLeading (before ++ after) = before.length + r.countLeading after := by
  unfold countLeading
  rw [List.takeWhile_append_of_pos h, List.length_append]

theorem countLeading_congr {keys : List Key} (h : ∀ k ∈ keys, r'.find? k.id = r.find? k.id) :
    r'.countLeading keys = r.countLeading keys := by
  induction keys with
  | nil => rfl
  | cons k rest ih =>
    have hrest := ih fun k' hk' => h k' (List.mem_cons_of_mem k hk')
    unfold countLeading at hrest ⊢
    rw [List.takeWhile_cons, List.takeWhile_cons, h k List.mem_cons_self]
    split
    · rw [List.length_cons, List.length_cons, hrest]
    · rfl

/-- A key cannot be added only if its identifier is there. -/
theorem find?_of_add_error {e : KeychainError} (h : r.add key = .error e) : (r.find? key.id).isSome := by
  unfold add at h
  split at h
  · cases h
  · next installed hinstalled =>
    rw [hinstalled]
    rfl

end Keyring

namespace VaultKeyring

variable {v v' : VaultKeyring} {key : Key} {requests : List Request} {result : Except KeychainError Unit}

/-- Adding a key changes nothing, as the identifier is there, or makes the change and then saves it. -/
theorem add_cases (h : (v.add key).Ends requests (result, v')) :
    (∃ e, v.keyring.add key = .error e ∧ result = .error e ∧ v' = v ∧ requests = []) ∨
      ∃ r, v.keyring.add key = .ok r ∧ v' = { v with keyring := r } ∧ v'.save.Ends requests result := by
  unfold add commit at h
  cases hadd : v.keyring.add key with
  | error e =>
    rw [hadd] at h
    obtain ⟨rfl, he⟩ := Program.ends_pure.1 h
    cases he
    exact .inl ⟨e, rfl, rfl, rfl, rfl⟩
  | ok r =>
    rw [hadd] at h
    obtain ⟨first, second, saved, rfl, hsave, hend⟩ := Program.ends_bind.1 h
    obtain ⟨rfl, he⟩ := Program.ends_pure.1 hend
    cases he
    rw [List.append_nil]
    exact .inr ⟨r, rfl, rfl, hsave⟩

/-- Once it has been tried, a key is in memory, whatever became of it. -/
theorem find?_of_add (h : (v.add key).Ends requests (result, v')) : (v'.keyring.find? key.id).isSome := by
  rcases add_cases h with ⟨e, hadd, -, rfl, -⟩ | ⟨r, hadd, rfl, -⟩
  · exact Keyring.find?_of_add_error hadd
  · rw [Keyring.find?_add hadd]
    rfl

theorem find?_add_of_ne {id : KeyId} (h : (v.add key).Ends requests (result, v')) (hne : id ≠ key.id) :
    v'.keyring.find? id = v.keyring.find? id := by
  rcases add_cases h with ⟨e, -, -, rfl, -⟩ | ⟨r, hadd, rfl, -⟩
  · rfl
  · exact Keyring.find?_add_of_ne hadd hne

/-- Nothing goes from memory while keys are added. -/
theorem find?_add_mono {id : KeyId} (h : (v.add key).Ends requests (result, v'))
    (hid : (v.keyring.find? id).isSome) : (v'.keyring.find? id).isSome := by
  by_cases hne : id = key.id
  · exact hne ▸ find?_of_add h
  · rwa [find?_add_of_ne h hne]

/-- Where an installation fails: at the key of a position, after those before it were added. -/
def FailsAt (keys : List Key) (v : VaultKeyring) (i : Nat) (requests : List Request) (e : KeychainError)
    (v' : VaultKeyring) : Prop :=
  ∃ key first second v₁, keys[i]? = some key ∧ requests = first ++ second ∧
    ((installKeys adding (keys.take i)).run v).Ends first (.ok (), v₁) ∧ (v₁.add key).Ends second (.error e, v')

/-- How keys are installed: the first is added, and if it was, the others are. -/
theorem ends_installKeys_cons {rest : List Key} :
    ((installKeys adding (key :: rest)).run v).Ends requests (result, v') ↔
      (∃ e, result = .error e ∧ (v.add key).Ends requests (.error e, v')) ∨
      ∃ first second v₁, requests = first ++ second ∧ (v.add key).Ends first (.ok (), v₁) ∧
        ((installKeys adding rest).run v₁).Ends second (result, v') := by
  constructor
  · intro h
    obtain ⟨first, second, ⟨added, v₁⟩, rfl, hfirst, hsecond⟩ := Program.ends_bind.1 h
    cases added with
    | error e =>
      obtain ⟨rfl, he⟩ := Program.ends_pure.1 hsecond
      cases he
      rw [List.append_nil]
      exact .inl ⟨e, rfl, hfirst⟩
    | ok _ => exact .inr ⟨first, second, v₁, rfl, hfirst, hsecond⟩
  · intro h
    rcases h with ⟨e, rfl, hadd⟩ | ⟨first, second, v₁, rfl, hadd, hrest⟩
    · exact Program.ends_bind.2 ⟨requests, [], _, (List.append_nil _).symm, hadd, .done _⟩
    · exact Program.ends_bind.2 ⟨first, second, _, rfl, hadd, hrest⟩

theorem failsAt_zero {rest : List Key} {e : KeychainError} :
    FailsAt (key :: rest) v 0 requests e v' ↔ (v.add key).Ends requests (.error e, v') := by
  constructor
  · intro h
    obtain ⟨k, first, second, v₁, hk, rfl, hfirst, hsecond⟩ := h
    cases hk
    obtain ⟨rfl, hv⟩ := Program.ends_pure.1 hfirst
    cases hv
    exact hsecond
  · exact fun h => ⟨key, [], requests, v, rfl, rfl, .done _, h⟩

theorem failsAt_succ {rest : List Key} {i : Nat} {e : KeychainError} :
    FailsAt (key :: rest) v (i + 1) requests e v' ↔
      ∃ first second v₁, requests = first ++ second ∧ (v.add key).Ends first (.ok (), v₁) ∧
        FailsAt rest v₁ i second e v' := by
  constructor
  · intro h
    obtain ⟨k, first, second, v₂, hk, rfl, hfirst, hsecond⟩ := h
    rcases ends_installKeys_cons.1 hfirst with ⟨e', he', -⟩ | ⟨made, more, v₁, rfl, hadd, hmore⟩
    · cases he'
    · exact ⟨made, more ++ second, v₁, List.append_assoc .., hadd, k, more, second, v₂, hk, rfl, hmore, hsecond⟩
  · intro h
    obtain ⟨made, rest', v₁, rfl, hadd, k, more, second, v₂, hk, rfl, hmore, hsecond⟩ := h
    exact ⟨k, made ++ more, second, v₂, hk, (List.append_assoc ..).symm,
      ends_installKeys_cons.2 (.inr ⟨made, more, v₁, rfl, hadd, hmore⟩), hsecond⟩

/-- An installation fails at the key of a position, or not at all. -/
theorem installKeys_fails_iff {keys : List Key} {e : KeychainError} :
    ((installKeys adding keys).run v).Ends requests (.error e, v') ↔ ∃ i, FailsAt keys v i requests e v' := by
  induction keys generalizing v requests with
  | nil =>
    constructor
    · intro h
      obtain ⟨-, he⟩ := Program.ends_pure.1 h
      cases he
    · intro h
      obtain ⟨i, k, -, -, -, hk, -⟩ := h
      cases hk
  | cons key rest ih =>
    rw [ends_installKeys_cons]
    constructor
    · intro h
      rcases h with ⟨e', he', hadd⟩ | ⟨first, second, v₁, rfl, hadd, hrest⟩
      · cases he'
        exact ⟨0, failsAt_zero.2 hadd⟩
      · obtain ⟨i, hi⟩ := ih.1 hrest
        exact ⟨i + 1, failsAt_succ.2 ⟨first, second, v₁, rfl, hadd, hi⟩⟩
    · intro h
      obtain ⟨i, hi⟩ := h
      cases i with
      | zero => exact .inl ⟨e, rfl, failsAt_zero.1 hi⟩
      | succ i =>
        obtain ⟨first, second, v₁, rfl, hadd, hrest⟩ := failsAt_succ.1 hi
        exact .inr ⟨first, second, v₁, rfl, hadd, ih.2 ⟨i, hrest⟩⟩

/-- The installation of a chain ends as that of its keys does. -/
theorem ends_install {chain : Chain} {counted : Except KeychainError Nat} :
    (v.install chain).Ends requests (counted, v') ↔
      ∃ result, ((installKeys adding chain.keys).run v).Ends requests (result, v') ∧
        counted = result.map fun _ => chain.length := by
  constructor
  · intro h
    obtain ⟨first, second, ⟨result, v₁⟩, rfl, hfirst, hsecond⟩ := Program.ends_bind.1 h
    refine ⟨result, ?_⟩
    cases result with
    | error e =>
      obtain ⟨rfl, he⟩ := Program.ends_pure.1 hsecond
      cases he
      rw [List.append_nil]
      exact ⟨hfirst, rfl⟩
    | ok _ =>
      obtain ⟨rfl, he⟩ := Program.ends_pure.1 hsecond
      cases he
      rw [List.append_nil]
      exact ⟨hfirst, rfl⟩
  · intro h
    obtain ⟨result, hkeys, rfl⟩ := h
    refine Program.ends_bind.2 ⟨requests, [], _, (List.append_nil _).symm, hkeys, ?_⟩
    cases result <;> exact .done _

theorem install_fails_iff {chain : Chain} {e : KeychainError} :
    (v.install chain).Ends requests (.error e, v') ↔ ∃ i, FailsAt chain.keys v i requests e v' := by
  rw [ends_install, ← installKeys_fails_iff]
  constructor
  · intro h
    obtain ⟨result, hkeys, hresult⟩ := h
    cases result with
    | error e' => cases hresult; exact hkeys
    | ok _ => cases hresult
  · exact fun h => ⟨.error e, h, rfl⟩

/-- While keys are added nothing goes from memory, and keys that were added are there. -/
theorem find?_of_installKeys {keys : List Key} (h : ((installKeys adding keys).run v).Ends requests (.ok (), v')) :
    (∀ id, (v.keyring.find? id).isSome → (v'.keyring.find? id).isSome) ∧
      ∀ k ∈ keys, (v'.keyring.find? k.id).isSome := by
  induction keys generalizing v requests with
  | nil =>
    obtain ⟨-, he⟩ := Program.ends_pure.1 h
    cases he
    exact ⟨fun _ hid => hid, fun k hk => by cases hk⟩
  | cons key rest ih =>
    rcases ends_installKeys_cons.1 h with ⟨e, he, -⟩ | ⟨first, second, v₁, -, hadd, hrest⟩
    · cases he
    · obtain ⟨hmono, hthere⟩ := ih hrest
      refine ⟨fun id hid => hmono id (find?_add_mono hadd hid), fun k hk => ?_⟩
      rcases List.mem_cons.1 hk with rfl | hk
      · exact hmono _ (find?_of_add hadd)
      · exact hthere k hk

theorem find?_installKeys_of_notMem {keys : List Key} {id : KeyId}
    (h : ((installKeys adding keys).run v).Ends requests (.ok (), v')) (hid : id ∉ keys.map (·.id)) :
    v'.keyring.find? id = v.keyring.find? id := by
  induction keys generalizing v requests with
  | nil =>
    obtain ⟨-, he⟩ := Program.ends_pure.1 h
    cases he
    rfl
  | cons key rest ih =>
    rw [List.map_cons, List.mem_cons, not_or] at hid
    rcases ends_installKeys_cons.1 h with ⟨e, he, -⟩ | ⟨first, second, v₁, -, hadd, hrest⟩
    · cases he
    · rw [ih hrest hid.2, find?_add_of_ne hadd hid.1]

/-- The key that an installation failed at is counted. -/
theorem countLeading_of_failsAt {keys : List Key} {i : Nat} {e : KeychainError}
    (h : FailsAt keys v i requests e v') :
    v'.keyring.countLeading keys = i + 1 + v'.keyring.countLeading (keys.drop (i + 1)) := by
  obtain ⟨key, first, second, v₁, hkey, -, hfirst, hsecond⟩ := h
  have hi : i < keys.length := (List.getElem?_eq_some_iff.1 hkey).1
  have htried : keys.take (i + 1) = keys.take i ++ [key] := by rw [List.take_add_one, hkey, Option.toList_some]
  have hthere : ∀ k ∈ keys.take (i + 1), (v'.keyring.find? k.id).isSome := by
    intro k hk
    rw [htried, List.mem_append, List.mem_singleton] at hk
    rcases hk with hk | rfl
    · exact find?_add_mono hsecond ((find?_of_installKeys hfirst).2 k hk)
    · exact find?_of_add hsecond
  calc v'.keyring.countLeading keys
      = v'.keyring.countLeading (keys.take (i + 1) ++ keys.drop (i + 1)) := by rw [List.take_append_drop]
    _ = (keys.take (i + 1)).length + v'.keyring.countLeading (keys.drop (i + 1)) :=
        Keyring.countLeading_append hthere _
    _ = i + 1 + v'.keyring.countLeading (keys.drop (i + 1)) := by rw [List.length_take, Nat.min_eq_left hi]

/-- The keys of distinct identifiers that are counted behind it were there before. -/
theorem countLeading_drop_of_failsAt {keys : List Key} {i : Nat} {e : KeychainError}
    (h : FailsAt keys v i requests e v') (hdistinct : (keys.map (·.id)).Nodup) :
    v'.keyring.countLeading (keys.drop (i + 1)) = v.keyring.countLeading (keys.drop (i + 1)) := by
  obtain ⟨key, first, second, v₁, hkey, -, hfirst, hsecond⟩ := h
  have htried : keys.take (i + 1) = keys.take i ++ [key] := by rw [List.take_add_one, hkey, Option.toList_some]
  rw [← List.take_append_drop (i + 1) keys, List.map_append, List.nodup_append, htried] at hdistinct
  obtain ⟨-, -, hapart⟩ := hdistinct
  have hsame : ∀ k ∈ keys.drop (i + 1), v'.keyring.find? k.id = v.keyring.find? k.id := by
    intro k hk
    have hnew : k.id ∉ (keys.take i ++ [key]).map (·.id) := fun hmem =>
      hapart _ hmem _ (List.mem_map_of_mem hk) rfl
    rw [List.map_append, List.mem_append, not_or] at hnew
    rw [find?_add_of_ne hsecond fun he => hnew.2 (by simp [he]), find?_installKeys_of_notMem hfirst hnew.1]
  exact Keyring.countLeading_congr hsame

end VaultKeyring

/-! What the command tells. -/

/-- The line that a request prints. -/
def Request.line? : Request → Option String
  | print line => some line
  | _ => none

/-- The lines that requests print, one after the other. -/
def linesOf (requests : List Request) : List String := requests.filterMap Request.line?

theorem linesOf_append (first second : List Request) : linesOf (first ++ second) = linesOf first ++ linesOf second :=
  List.filterMap_append

theorem linesOf_eq_nil {requests : List Request} (h : ∀ r ∈ requests, r.IsInquiry ∨ r.IsOfFile ∨ r.IsOfVault) :
    linesOf requests = [] := by
  refine List.filterMap_eq_nil_iff.2 fun r hr => ?_
  cases r with
  | print line => exact absurd (h _ hr) (by rintro (h | (h | h) | h) <;> exact h)
  | _ => rfl

open KeyChain.Action

theorem ends_printIf {lines : List String} {requests : List Request} {outcome : Except Failure Unit}
    (h : (printIf true lines).run.Ends requests outcome) : outcome = .ok () ∧ linesOf requests = lines := by
  replace h : (lines.forM Action.print).run.Ends requests outcome := h
  induction lines generalizing requests with
  | nil =>
    obtain ⟨rfl, rfl⟩ := Program.ends_pure.1 h
    exact ⟨rfl, rfl⟩
  | cons line rest ih =>
    have hprint : ∀ {first : List Request} {passed : Except Failure Unit},
        (Action.print line).run.Ends first passed → passed = .ok () ∧ linesOf first = [line] := by
      intro first passed hends
      cases hends with
      | call _ hends =>
        obtain ⟨rfl, rfl⟩ := Program.ends_pure.1 hends
        exact ⟨rfl, rfl⟩
    rcases ends_bind h with ⟨e, -, hfailed⟩ | ⟨_, first, second, rfl, hfirst, hsecond⟩
    · cases (hprint hfailed).1
    · obtain ⟨houtcome, hlines⟩ := ih hsecond
      exact ⟨houtcome, by rw [linesOf_append, (hprint hfirst).2, hlines]; rfl⟩

/-- What a command that fails to add a key has told: it names the keys that are counted in memory. -/
theorem lines_addKey {c : Config} {key : KeyOptions} {choice : ChainChoice} {path : Path} {requests : List Request}
    {e : KeychainError} (h : (addKey c key choice true path).run.Ends requests (.error (.during .adding e))) :
    ∃ (v : VaultKeyring) (chain : Chain) (i : Nat) (made : List Request) (v' : VaultKeyring),
      VaultKeyring.FailsAt chain.keys v i made e v' ∧ made <:+: requests ∧
      linesOf requests =
        (chain.keys.take (v'.keyring.countLeading chain.keys)).map fun k => s!"Key added: {k.id}" := by
  -- What comes before the installation does not fail in this way.
  have hothers : ∀ {α : Type} {p : Action α} {made : List Request},
      FailsOnly (fun f => ∀ e, f ≠ .during .adding e) p →
        ¬ ∃ f, (.error (.during .adding e) : Except Failure UInt8) = .error f ∧ p.run.Ends made (.error f) := by
    intro α p made hp hearly
    obtain ⟨f, hf, hends⟩ := hearly
    cases hf
    exact hp _ _ hends _ rfl e rfl
  obtain ⟨root, first₁, rest₁, rfl, hroot, h⟩ := (ends_bind h).resolve_left
    (hothers (locateDirectory_fails path fun _ _ he => by cases he))
  obtain ⟨key, first₂, rest₂, rfl, hkey, h⟩ := (ends_bind h).resolve_left
    (hothers (readKey_fails _ _ _ (fun _ _ he => by cases he) fun _ _ he => by cases he))
  obtain ⟨chain, first₃, rest₃, rfl, hchain, h⟩ := (ends_bind h).resolve_left
    (hothers (chainFor_fails c root key choice fun _ _ he => by cases he))
  obtain ⟨v, first₄, rest₄, rfl, hv, h⟩ := (ends_bind h).resolve_left
    (hothers (connect_fails root fun _ _ he => by cases he))
  obtain ⟨⟨result, v'⟩, made, rest₅, rfl, hmade, h⟩ := (ends_bind h).resolve_left (hothers (failsOnly_always _))
  rcases ends_bind h with ⟨f, -, hprinted⟩ | ⟨_, told, rest₆, rfl, htold, h⟩
  · cases (ends_printIf hprinted).1
  obtain ⟨_, hok, hinstall⟩ := ends_always hmade
  cases hok
  cases result with
  | ok count =>
    obtain ⟨-, he⟩ := Program.ends_pure.1 h
    cases he
  | error e' =>
    obtain ⟨rfl, he⟩ := Program.ends_pure.1 h
    cases he
    obtain ⟨i, hi⟩ := VaultKeyring.install_fails_iff.1 hinstall
    have hsilent : linesOf first₁ = [] ∧ linesOf first₂ = [] ∧ linesOf first₃ = [] ∧ linesOf first₄ = [] ∧
        linesOf made = [] := by
      refine ⟨linesOf_eq_nil fun r hr => .inl ?_, linesOf_eq_nil fun r hr => .inl ?_,
        linesOf_eq_nil fun r hr => .inr (.inl (.inl ?_)), linesOf_eq_nil fun r hr => .inr (.inr ?_),
        linesOf_eq_nil fun r hr => .inr (.inr ?_)⟩
      · exact locateDirectory_inquires path _ _ hroot r hr
      · exact readKey_inquires _ _ _ _ _ hkey r hr
      · exact chainFor_looksUp c root key choice _ _ hchain r hr
      · exact connect_uses root _ _ hv r hr
      · exact v.install_uses chain _ _ hinstall r hr
    obtain ⟨h₁, h₂, h₃, h₄, h₅⟩ := hsilent
    refine ⟨v, chain, i, made, v', hi, ⟨first₁ ++ first₂ ++ first₃ ++ first₄, told, by simp⟩, ?_⟩
    simp only [linesOf_append, h₁, h₂, h₃, h₄, h₅, List.nil_append]
    rw [(ends_printIf htold).2]
    exact List.append_nil _

/-- A first key that the vault refuses to keep is in memory all the same. -/
theorem run_install_unsaved {m : Machine} {cause : String} (hfault : m.vaultFaults.setting = some cause)
    (root : String) (key : Key) :
    ((⟨root, Keyring.empty⟩ : VaultKeyring).install (Chain.single key)).run m =
      ((.error (.keyring (.notStored cause)), ⟨root, ⟨[key], OrderedMap.empty⟩⟩), m) := by
  have hset : ∀ text, (Program.setEntry root text).run m = (.error (.failed cause), m) := by
    intro text
    show m.answer (.setEntry root text) = _
    rw [Machine.answer, hfault]
    rfl
  have hsave : (⟨root, ⟨[key], OrderedMap.empty⟩⟩ : VaultKeyring).save.run m =
      (.error (.keyring (.notStored cause)), m) := by
    show (Program.setEntry root _ >>= _).run m = _
    rw [Program.run_bind, hset]
    rfl
  have hadd : ((⟨root, Keyring.empty⟩ : VaultKeyring).add key).run m =
      ((.error (.keyring (.notStored cause)), ⟨root, ⟨[key], OrderedMap.empty⟩⟩), m) := by
    show ((⟨root, ⟨[key], OrderedMap.empty⟩⟩ : VaultKeyring).save >>= _).run m = _
    rw [Program.run_bind, hsave]
    rfl
  show (((⟨root, Keyring.empty⟩ : VaultKeyring).add key >>= _) >>= _).run m = _
  rw [Program.run_bind, Program.run_bind, hadd]
  rfl

/-- A key is said to have been added even if the vault refuses to keep it. -/
theorem runOn_addKey_unsaved {m m₁ : Machine} {c : Config} {options : KeyOptions} {path : Path} {root : Location}
    {key : Key} {cause : String} (hroot : (locateDirectory path).runOn m = (.ok root, m))
    (hkey : (readKey (options.params c.keys) "passphrase" false).runOn m = (.ok key, m₁))
    (hentry : m₁.vault.get? root.path.text = none) (hfaults : m₁.vaultFaults = { setting := some cause }) :
    (addKey c options .ignored true path).runOn m =
      (.error (.during .adding (.keyring (.notStored cause))),
        { m₁ with lines := m₁.lines ++ [s!"Key added: {key.id}"] }) := by
  have hconnect : (connect root).runOn m₁ = (.ok ⟨root.path.text, Keyring.empty⟩, m₁) := by
    unfold connect
    rw [runOn_attempt, VaultKeyring.run_connect_of_readable (by rw [hfaults]) (by rw [hfaults]), hentry]
    rfl
  have hinstall := run_install_unsaved (m := m₁) (by rw [hfaults]) root.path.text key
  have hcounted : (⟨[key], OrderedMap.empty⟩ : Keyring).countLeading [key] = 1 := by
    simp [Keyring.countLeading, Keyring.find?]
  unfold addKey
  rw [runOn_bind_of_ok hroot, runOn_bind_of_ok hkey]
  show ((pure (Chain.single key) : Action Chain) >>= _).runOn m₁ = _
  rw [runOn_bind_of_ok (runOn_pure _ _), runOn_bind_of_ok hconnect, runOn_bind_of_ok (runOn_always _ _), hinstall]
  dsimp only
  show (printIf true ((List.take ((⟨[key], OrderedMap.empty⟩ : Keyring).countLeading [key]) [key]).map _) >>=
    _).runOn m₁ = _
  rw [hcounted]
  rfl

/-- What is told of a failed installation always goes too far. If the key at a position cannot be added, for
    whatever reason, then it is counted as well, and so are the keys right behind it that were there before.
    A command that ends with the failure to add a key has therefore said that it has added it. -/
theorem added_overstated {v v' : VaultKeyring} {chain : Chain} {made : List Request} {e : KeychainError} :
    ((v.install chain).Ends made (.error e, v') ↔ ∃ i, VaultKeyring.FailsAt chain.keys v i made e v') ∧
    (∀ i, VaultKeyring.FailsAt chain.keys v i made e v' →
      v'.keyring.countLeading chain.keys = i + 1 + v'.keyring.countLeading (chain.keys.drop (i + 1)) ∧
      ((chain.keys.map (·.id)).Nodup →
        v'.keyring.countLeading (chain.keys.drop (i + 1)) = v.keyring.countLeading (chain.keys.drop (i + 1)))) ∧
    ∀ (c : Config) (key : KeyOptions) (choice : ChainChoice) (path : Path) (requests : List Request),
      (addKey c key choice true path).run.Ends requests (.error (.during .adding e)) →
        ∃ (found : VaultKeyring) (used : Chain) (i : Nat) (tried : List Request) (left : VaultKeyring),
          VaultKeyring.FailsAt used.keys found i tried e left ∧ tried <:+: requests ∧
          linesOf requests = (used.keys.take (left.keyring.countLeading used.keys)).map fun k => s!"Key added: {k.id}" :=
  ⟨VaultKeyring.install_fails_iff,
    fun _ h => ⟨VaultKeyring.countLeading_of_failsAt h, VaultKeyring.countLeading_drop_of_failsAt h⟩,
    fun _ _ _ _ _ => lines_addKey⟩

/-- A terminal at which a passphrase is typed, and a vault that refuses to keep anything. -/
def refusing : Machine :=
  { Machine.new Disk.empty with vaultFaults := { setting := some "stub" }, answers := [some "alpha"] }

theorem exists_addKey_refusing :
    ∃ key : Key, (addKey Config.quick KeyOptions.unset .ignored true ⟨"/"⟩).runOn refusing =
      (.error (.during .adding (.keyring (.notStored "stub"))),
        { refusing with
          answers := [], prompts := ["Enter passphrase: "], lines := [s!"Key added: {key.id}"] }) := by
  obtain ⟨key, hread⟩ := exists_readKey_quick (m := refusing) rfl
  exact ⟨key, runOn_addKey_unsaved (runOn_locateDirectory_slash refusing) hread rfl rfl⟩

/-- A command that cannot keep the first key has named it. -/
theorem added_overstated_refusing :
    ∃ requests e, (addKey Config.quick KeyOptions.unset .ignored true ⟨"/"⟩).run.Ends requests
        (.error (.during .adding e)) ∧
      ∃ (v : VaultKeyring) (chain : Chain) (i : Nat) (made : List Request) (v' : VaultKeyring),
        (v.install chain).Ends made (.error e, v') ∧ i < v'.keyring.countLeading chain.keys ∧
        linesOf requests =
          (chain.keys.take (v'.keyring.countLeading chain.keys)).map fun k => s!"Key added: {k.id}" := by
  obtain ⟨key, hrun⟩ := exists_addKey_refusing
  obtain ⟨requests, hends, -⟩ := Program.exists_ends_run
    (addKey Config.quick KeyOptions.unset .ignored true ⟨"/"⟩).run refusing
  replace hends : (addKey Config.quick KeyOptions.unset .ignored true ⟨"/"⟩).run.Ends requests
      ((addKey Config.quick KeyOptions.unset .ignored true ⟨"/"⟩).runOn refusing).1 := hends
  rw [hrun] at hends
  obtain ⟨v, chain, i, made, v', hfails, -, hlines⟩ := lines_addKey hends
  obtain ⟨hinstall, hcounted, -⟩ := @added_overstated v v' chain made (.keyring (.notStored "stub"))
  have hcount := (hcounted i hfails).1
  exact ⟨requests, _, hends, v, chain, i, made, v', hinstall.2 ⟨i, hfails⟩, by omega, hlines⟩

/-- The first key cannot be added, and it is said that it was. -/
theorem addKey_tells_unsaved :
    ∃ (key : Key) (e : KeychainError) (m' : Machine),
      (addKey Config.quick KeyOptions.unset .ignored true ⟨"/"⟩).runOn refusing =
        (.error (.during .adding e), m') ∧
      m'.vault.get? "/" = none ∧ m'.lines = [s!"Key added: {key.id}"] ∧
      ∃ (made : List Request) (v' : VaultKeyring),
        VaultKeyring.FailsAt (Chain.single key).keys ⟨"/", Keyring.empty⟩ 0 made e v' ∧
        ¬ v'.keyring.countLeading (Chain.single key).keys ≤ 0 := by
  obtain ⟨key, hrun⟩ := exists_addKey_refusing
  refine ⟨key, _, _, hrun, rfl, rfl, ?_⟩
  obtain ⟨made, hmade, -⟩ := Program.exists_ends_run
    ((⟨"/", Keyring.empty⟩ : VaultKeyring).install (Chain.single key)) refusing
  rw [run_install_unsaved (m := refusing) rfl] at hmade
  obtain ⟨i, hi⟩ := VaultKeyring.install_fails_iff.1 hmade
  have hfirst : i = 0 := by
    obtain ⟨_, -, -, -, hkey, -⟩ := hi
    have hlt : i < 1 := (List.getElem?_eq_some_iff.1 hkey).1
    omega
  subst hfirst
  have hcount := VaultKeyring.countLeading_of_failsAt hi
  exact ⟨made, _, hi, by omega⟩

end KeyChain
