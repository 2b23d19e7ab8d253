import KeyChain.Proofs.AddLink
import KeyChain.Proofs.BoundDirectories
import KeyChain.Proofs.InstalledChains
/-! Chains removed from a keyring, key by key. A removal goes on past the keys that are not installed, so it takes away
   what belongs to the identifiers of the chain, wherever it is, and tells of the others.

   1. `without`: a keyring without some identifiers, which is consistent if the keyring is;
   2. `run_removeKeys`: what becomes of keys of distinct identifiers;
   3. `VaultKeyring.run_removeKeys`: the same becomes of them in a vault, and it is kept there;
   4. `runOn_deleteKey`: so that is what a command does, and its status tells of it;
   5. `uninstall_exact`: what is there after a chain was removed, and that this undoes an installation. -/
namespace KeyChain

namespace Keyring

/-- Removes a key. -/
def removing (key : Key) : StateM Keyring (Except KeychainError Unit) := (KeyringCall.remove key).act

/-- Removes the keys of a chain. -/
def uninstall (c : Chain) : StateM Keyring (List (KeyId × KeychainError)) := c.uninstall removing

/-- The keyring without the keys of some identifiers, and without the bindings to them. -/
def without (r : Keyring) (ids : List KeyId) : Keyring :=
  ⟨r.keys.filter fun k => k.id ∉ ids, r.bindings.filter fun b => b.2.2 ∉ ids⟩

/-- What is told of keys that are not installed. -/
def absences (r : Keyring) (keys : List Key) : List (KeyId × KeychainError) :=
  (r.missing keys).map fun k => (k.id, .notFound k.id)

variable {r r' : Keyring} {key : Key} {keys : List Key} {ids : List KeyId}

/-! What is left. -/

theorem find?_without (r : Keyring) (ids : List KeyId) (id : KeyId) :
    (r.without ids).find? id = if id ∈ ids then none else r.find? id := by
  rw [find?, without, List.find?_filter, find?]
  split
  · next hid =>
    refine List.find?_eq_none.2 fun k _ hk => ?_
    have hkept : k.id ∉ ids ∧ k.id = id := by simpa using hk
    exact hkept.1 (hkept.2 ▸ hid)
  · next hid =>
    congr 1
    funext k
    by_cases hk : k.id = id <;> simp [hk, hid]

theorem without_without (r : Keyring) (ids more : List KeyId) :
    (r.without ids).without more = r.without (ids ++ more) := by
  unfold without
  congr 1
  · rw [List.filter_filter]
    refine List.filter_congr fun k _ => ?_
    simp [Bool.and_comm]
  · refine OrderedMap.ext ?_
    show (List.filter _ (List.filter _ _)) = List.filter _ _
    rw [List.filter_filter]
    refine List.filter_congr fun b _ => ?_
    simp [Bool.and_comm]

/-- Nothing belongs to identifiers that are not installed. -/
theorem without_of_missing (hr : r.Sound) (h : ∀ id ∈ ids, r.find? id = none) : r.without ids = r := by
  have hkeys : r.keys.filter (fun k => k.id ∉ ids) = r.keys := by
    refine List.filter_eq_self.2 fun k hk => decide_eq_true fun hid => ?_
    exact find?_eq_none.1 (h _ hid) (List.mem_map_of_mem hk)
  have hbindings : r.bindings.filter (fun b => b.2.2 ∉ ids) = r.bindings := by
    refine OrderedMap.ext (List.filter_eq_self.2 fun b hb => decide_eq_true fun hid => ?_)
    have hinstalled := hr b hb
    rw [h _ hid] at hinstalled
    cases hinstalled
  rw [without, hkeys, hbindings]

theorem consistent_without (h : r.Consistent) (ids : List KeyId) : (r.without ids).Consistent := by
  refine ⟨h.distinct.sublist (List.filter_sublist.map Key.id), fun b hb => ?_⟩
  obtain ⟨hb, hid⟩ := List.mem_filter.1 hb
  rw [find?_without, if_neg (of_decide_eq_true hid)]
  exact h.sound b hb

/-- The bindings that are left are those to keys that are left. -/
theorem bindings_without (h : r.Sound) (ids : List KeyId) :
    (r.without ids).bindings = r.bindings.filter fun b => ((r.without ids).find? b.2.2).isSome := by
  refine OrderedMap.ext (List.filter_congr fun b hb => ?_)
  rw [find?_without]
  by_cases hid : b.2.2 ∈ ids
  · simp [hid]
  · simp [hid, h b hb]

/-- Keys that were added are gone again. -/
theorem without_extended (r : Keyring) (keys : List Key) :
    (r.extended keys).without (keys.map Key.id) = r.without (keys.map Key.id) := by
  have hgone : (r.missing keys).filter (fun k => k.id ∉ keys.map Key.id) = [] := by
    refine List.filter_eq_nil_iff.2 fun k hk hid => ?_
    exact of_decide_eq_true hid (List.mem_map_of_mem (List.mem_of_mem_filter hk))
  rw [without, extended, List.filter_append, hgone, List.append_nil]
  rfl

theorem consistent_extended (h : r.Consistent) (hkeys : (keys.map Key.id).Nodup) : (r.extended keys).Consistent := by
  refine ⟨distinct_extended h.distinct hkeys, fun b hb => ?_⟩
  obtain ⟨held, hfind⟩ := Option.isSome_iff_exists.1 (h.sound b hb)
  obtain ⟨hheld, hid⟩ := mem_of_find? hfind
  exact Option.isSome_iff_exists.2 (exists_find? (mem_extended.2 (.inl hheld)) hid)

/-! Removing keys. -/

/-- The first key of an identifier is the only one. -/
theorem eraseP_eq_filter (h : (keys.map Key.id).Nodup) (id : KeyId) :
    (keys.eraseP fun k => k.id == id) = keys.filter fun k => k.id ∉ [id] := by
  induction keys with
  | nil => rfl
  | cons key rest ih =>
    rw [List.map_cons, List.nodup_cons] at h
    by_cases hid : key.id = id
    · have hrest : rest.filter (fun k => k.id ∉ [id]) = rest := by
        refine List.filter_eq_self.2 fun k hk => decide_eq_true fun hk' => ?_
        exact h.1 (List.mem_map.2 ⟨k, hk, (List.mem_singleton.1 hk').trans hid.symm⟩)
      rw [List.eraseP_cons_of_pos (by simp [hid]), List.filter_cons_of_neg (by simp [hid]), hrest]
    · rw [List.eraseP_cons_of_neg (by simp [hid]), List.filter_cons_of_pos (by simp [hid]), ih h.2]

/-- What becomes of one key. -/
theorem run_removing (h : r.Consistent) (key : Key) :
    (removing key).run r =
      (if (r.find? key.id).isSome then .ok () else .error (.notFound key.id), r.without [key.id]) := by
  cases hfind : r.find? key.id with
  | none =>
    have hremove : (KeyringCall.remove key).change r = .error (.notFound key.id) :=
      remove_of_notMem (find?_eq_none.1 hfind)
    rw [removing, run_act_of_error hremove, without_of_missing h.sound (List.forall_mem_singleton.2 hfind)]
    rfl
  | some held =>
    have hremove : (KeyringCall.remove key).change r = .ok (r.without [key.id]) := by
      rw [KeyringCall.change, remove, hfind]
      dsimp only
      rw [eraseP_eq_filter h.distinct]
      congr 2
      refine OrderedMap.ext (List.filter_congr fun b _ => ?_)
      by_cases hb : b.2.2 = key.id <;> simp [hb]
    rw [removing, run_act_of_ok hremove]
    rfl

/-- What is told of a key that was tried, before what is told of others. -/
def noting (key : Key) (result : Except KeychainError Unit) (failures : List (KeyId × KeychainError)) :
    List (KeyId × KeychainError) :=
  match result with
  | .ok () => failures
  | .error e => (key.id, e) :: failures

theorem run_removeKeys_cons {result : Except KeychainError Unit} {failures : List (KeyId × KeychainError)}
    {r₁ : Keyring} (hkey : (removing key).run r = (result, r₁))
    (hkeys : (removeKeys removing keys).run r₁ = (failures, r')) :
    (removeKeys removing (key :: keys)).run r = (noting key result failures, r') := by
  show (removing key >>= fun result => removeKeys removing keys >>= _).run r = _
  rw [StateT.run_bind, hkey]
  show (removeKeys removing keys >>= _).run r₁ = _
  rw [StateT.run_bind, hkeys]
  cases result <;> rfl

/-- What becomes of keys of distinct identifiers. All that belongs to their identifiers goes, and they are told of if
    they were not installed at first. -/
theorem run_removeKeys (h : r.Consistent) (hkeys : (keys.map Key.id).Nodup) :
    (removeKeys removing keys).run r = (r.absences keys, r.without (keys.map Key.id)) := by
  induction keys generalizing r with
  | nil =>
    rw [List.map_nil, without_of_missing h.sound fun _ hid => absurd hid List.not_mem_nil]
    rfl
  | cons key rest ih =>
    rw [List.map_cons, List.nodup_cons] at hkeys
    -- The other identifiers are not touched, so the same of the other keys are installed.
    have hsame : (r.without [key.id]).absences rest = r.absences rest := by
      have hmissing : (r.without [key.id]).missing rest = r.missing rest := by
        refine List.filter_congr fun k hk => ?_
        have hne : k.id ∉ [key.id] := fun he => hkeys.1 (List.mem_singleton.1 he ▸ List.mem_map_of_mem hk)
        rw [find?_without, if_neg hne]
      rw [absences, hmissing, absences]
    have hrest := ih (consistent_without h [key.id]) hkeys.2
    rw [hsame, without_without] at hrest
    rw [run_removeKeys_cons (run_removing h key) hrest, List.map_cons]
    cases hfind : r.find? key.id <;> simp [noting, absences, missing, hfind]

theorem removalStatus_absences (r : Keyring) (keys : List Key) :
    removalStatus (r.absences keys) = if ∀ k ∈ keys, ∃ held ∈ r.keys, held.id = k.id then 0 else 3 := by
  have hinstalled : ∀ k : Key, (∃ held ∈ r.keys, held.id = k.id) ↔ ¬ r.find? k.id = none := by
    intro k
    rw [find?_eq_none, not_not, List.mem_map]
  have hall : (r.absences keys).isEmpty ↔ ∀ k ∈ keys, ∃ held ∈ r.keys, held.id = k.id := by
    simp [absences, missing, List.filter_eq_nil_iff, hinstalled]
  unfold removalStatus
  simp only [hall]
  split
  · rfl
  · rw [if_pos (List.all_eq_true.2 fun f hf => ?_)]
    obtain ⟨k, -, rfl⟩ := List.mem_map.1 hf
    rfl

end Keyring

/-! Removing keys in a vault. -/

namespace VaultKeyring

variable {m m' : Machine} {v : VaultKeyring}

/-- In a vault a call does to the keyring what it does in memory, and that is kept. -/
theorem run_call_eq (h : Kept m v) {c : KeyringCall} (hderived : ∀ key, c = .add key → key.IsDerived) :
    ∃ m', (v.call c).run m =
        (((c.act.run v.keyring).1, { v with keyring := (c.act.run v.keyring).2 }), m') ∧
      Kept m' { v with keyring := (c.act.run v.keyring).2 } := by
  rw [call_eq]
  rcases Keyring.run_act c v.keyring with ⟨r, hchange, hrun⟩ | ⟨e, hchange, hrun⟩
  · rw [hchange, hrun]
    obtain ⟨m', hcommit, hkept, -⟩ := run_commit_kept h.faultless v
      (KeyringCall.storable_change h.storable hderived hchange)
    exact ⟨m', hcommit, hkept⟩
  · rw [hchange, hrun]
    exact ⟨m, rfl, h⟩

/-- Keys are removed in a vault as they are in memory, and what is left is kept. -/
theorem run_removeKeys (h : Kept m v) (keys : List Key) {failures : List (KeyId × KeychainError)} {r : Keyring}
    (hrun : (removeKeys Keyring.removing keys).run v.keyring = (failures, r)) :
    ∃ m', ((removeKeys removing keys).run v).run m = ((failures, { v with keyring := r }), m') ∧
      Kept m' { v with keyring := r } := by
  induction keys generalizing m v failures with
  | nil =>
    cases hrun
    exact ⟨m, rfl, h⟩
  | cons key rest ih =>
    obtain ⟨m₁, hcall, hkept₁⟩ := @run_call_eq m v h (.remove key) nofun
    rcases hfirst : (Keyring.removing key).run v.keyring with ⟨result, r₁⟩
    rcases hrest : (removeKeys Keyring.removing rest).run r₁ with ⟨others, r₂⟩
    rw [Keyring.run_removeKeys_cons hfirst hrest] at hrun
    rw [show (KeyringCall.remove key).act.run v.keyring = (result, r₁) from hfirst] at hcall hkept₁
    cases hrun
    obtain ⟨m', hmore, hkept⟩ := ih hkept₁ hrest
    refine ⟨m', ?_, hkept⟩
    show ((removing key).run v >>= fun outcome => (removeKeys removing rest).run outcome.2 >>= _ : Program _).run m = _
    rw [Program.run_bind, show ((removing key).run v).run m = _ from hcall]
    dsimp only
    rw [Program.run_bind, hmore]
    cases result <;> rfl

end VaultKeyring

/-! The command. -/

open KeyChain.Action

/-- A chain that a key is used with was resolved, or is that of the key alone. -/
theorem chainFor_made (config : Config) (root : Location) (key : Key) (choice : ChainChoice) :
    Gives Chain.IsMade (chainFor config root key choice) := by
  have hget : ∀ mode, (Root.get ⟨root.path⟩ key mode).Yields fun result =>
      ∀ chain, result = .ok chain → chain.IsMade := by
    intro mode
    refine .after fun opened => ?_
    cases opened with
    | error e => exact .pure fun _ h => by cases h
    | ok s => exact .after fun _ => .pure fun chain h => .inl ⟨s.links, key, mode, h⟩
  cases choice with
  | ignored => exact .pure fun chain h => .inr ⟨key, (Except.ok.inj h).symm⟩
  | required | configured => exact gives_during (hget _)

theorem VaultKeyring.reachable_of_kept {root : String} {entry : Option String} {r : Keyring}
    (h : kept root entry = .ok r) : r.Reachable := by
  unfold kept at h
  split at h
  · cases h
    exact .empty
  split at h
  · cases h
  · exact .restored h

/-- Whatever leaves the vault can be done for one item after the other. -/
theorem runOn_forM {α : Type} {f : α → Action Unit}
    (hf : ∀ a m, ∃ m', (f a).runOn m = (.ok (), m') ∧ m'.vault = m.vault) (l : List α) (m : Machine) :
    ∃ m', (l.forM f).runOn m = (.ok (), m') ∧ m'.vault = m.vault := by
  induction l generalizing m with
  | nil => exact ⟨m, rfl, rfl⟩
  | cons a rest ih =>
    obtain ⟨m₁, hfirst, hvault₁⟩ := hf a m
    obtain ⟨m', hrest, hvault⟩ := ih m₁
    exact ⟨m', (runOn_bind_of_ok hfirst _).trans hrest, hvault.trans hvault₁⟩

/-- Once it has the keyring of the root and the chain, a command that removes keys ends well, whatever it could not
    remove, and the vault keeps what is left. -/
theorem runOn_deleteKey {config : Config} {options : KeyOptions} {choice : ChainChoice} {path : Path}
    {m m₁ m₂ : Machine} {root : Location} {key : Key} {chain : Chain} {v : VaultKeyring} {left : Keyring}
    {failures : List (KeyId × KeychainError)} (hfaultless : m.vaultFaults = {})
    (hroot : (locateDirectory path).runOn m = (.ok root, m))
    (hkey : (readKey (options.params config.keys) "passphrase" false).runOn m = (.ok key, m₁))
    (hchain : (chainFor config root key choice).runOn m₁ = (.ok chain, m₂))
    (hv : (connect root).runOn m₂ = (.ok v, m₂))
    (hremove : (Keyring.uninstall chain).run v.keyring = (failures, left)) (verbose : Bool) :
    ∃ m' after, (deleteKey config options choice verbose path).runOn m = (.ok (removalStatus failures), m') ∧
      VaultKeyring.kept v.root (m'.vault.get? v.root) = .ok after ∧ after.unplaced = left.unplaced := by
  obtain ⟨-, answers, prompts, rfl⟩ := runOn_readKey_ok hkey
  obtain ⟨-, hgrown, -, -⟩ := runOn_chainFor_ok hchain
  obtain ⟨-, -, -, hname, hkept⟩ := runOn_connect_ok hv
  have hkept₂ : VaultKeyring.Kept m₂ v :=
    ⟨hgrown.vaultFaults.trans hfaultless, VaultKeyring.storable_of_kept hkept, v.keyring, hname ▸ hkept, rfl⟩
  obtain ⟨m₃, hrun, hkept₃⟩ := VaultKeyring.run_removeKeys hkept₂ chain.keys hremove
  obtain ⟨after, hafter, hunplaced⟩ := hkept₃.restored
  have hremoved : (always (v.uninstall chain)).runOn m₂ = (.ok (failures, { v with keyring := left }), m₃) :=
    (runOn_always _ _).trans (congrArg (fun outcome => (Except.ok outcome.1, outcome.2)) hrun)
  obtain ⟨m₄, htold, hvault₄⟩ := runOn_forM (f := fun failure : KeyId × KeychainError =>
    always (Program.complain (.notDeleted failure.1 failure.2))) (fun _ _ => ⟨_, rfl, rfl⟩) failures m₃
  have hprint : ∀ lines, ∃ m', (printIf verbose lines).runOn m₄ = (.ok (), m') ∧ m'.vault = m₄.vault := by
    intro lines
    cases verbose with
    | false => exact ⟨m₄, rfl, rfl⟩
    | true => exact runOn_forM (fun line m => ⟨{ m with lines := m.lines ++ [line] }, rfl, rfl⟩) lines m₄
  obtain ⟨m', hprinted, hvault⟩ := hprint ((chain.keys.filter fun k => failures.all fun f => f.1 != k.id).map
    fun k => s!"Key deleted: {k.id}")
  refine ⟨m', after, ?_, by rw [hvault, hvault₄]; exact hafter, hunplaced⟩
  unfold deleteKey
  rw [runOn_bind_of_ok hroot, runOn_bind_of_ok hkey, runOn_bind_of_ok hchain, runOn_bind_of_ok hv,
    runOn_bind_of_ok hremoved, runOn_bind_of_ok htold, runOn_bind_of_ok hprinted]
  rfl

namespace Keyring

variable {r : Keyring}

/-- What becomes of a chain that is removed, wherever its keys are. The keys of its identifiers are gone and the others
    are there, in their order and with their bindings. The keys of the chain that were not installed are told of, in
    their order, and a command ends with status 0 if there are none of those and else with status 3. If none of the
    keys of the chain was installed, then the chain can be installed and removed again, and the keyring is what it
    was. -/
theorem uninstall_exact {c : Chain} (hr : r.Reachable) (hc : c.IsMade) :
    (∃ failures r', (uninstall c).run r = (failures, r') ∧
      r'.keys = r.keys.filter (fun k => k.id ∉ c.keys.map Key.id) ∧
      r'.bindings = r.bindings.filter (fun b => (r'.find? b.2.2).isSome) ∧
      failures = (c.keys.filter fun k => (r.find? k.id).isNone).map (fun k => (k.id, .notFound k.id)) ∧
      removalStatus failures = if ∀ k ∈ c.keys, ∃ held ∈ r.keys, held.id = k.id then 0 else 3) ∧
    ((∀ k ∈ c.keys, ¬ ∃ held ∈ r.keys, held.id = k.id) →
      ∃ n r₁, (install c).run r = (.ok n, r₁) ∧ (uninstall c).run r₁ = ([], r)) ∧
    ∀ (config : Config) (options : KeyOptions) (choice : ChainChoice) (verbose : Bool) (path : Path)
      (m m₁ m₂ : Machine) (root : Location) (key : Key) (chain : Chain) (v : VaultKeyring), m.vaultFaults = {} →
      (locateDirectory path).runOn m = (.ok root, m) →
      (readKey (options.params config.keys) "passphrase" false).runOn m = (.ok key, m₁) →
      (chainFor config root key choice).runOn m₁ = (.ok chain, m₂) → (connect root).runOn m₂ = (.ok v, m₂) →
      v.keyring.Reachable ∧ chain.IsMade ∧ ∃ failures left m' after,
        (uninstall chain).run v.keyring = (failures, left) ∧
        (deleteKey config options choice verbose path).runOn m = (.ok (removalStatus failures), m') ∧
        VaultKeyring.kept v.root (m'.vault.get? v.root) = .ok after ∧ after.unplaced = left.unplaced := by
  have hrun := run_removeKeys hr.consistent hc.distinct
  refine ⟨⟨_, _, hrun, rfl, bindings_without hr.consistent.sound _, rfl, removalStatus_absences r c.keys⟩, ?_, ?_⟩
  · intro hnone
    have hmissing : ∀ k ∈ c.keys, r.find? k.id = none := fun k hk =>
      find?_eq_none.2 fun hmem => hnone k hk (List.mem_map.1 hmem)
    have hclear : ∀ k ∈ c.keys, ¬ r.Clashes k := by
      rintro k hk ⟨held, hheld, hid, -⟩
      exact hnone k hk ⟨held, hheld, hid⟩
    refine ⟨_, _, run_install_of_keys (run_installKeys_of_clear hclear hc.distinct), ?_⟩
    have hundo := run_removeKeys (consistent_extended hr.consistent hc.distinct) hc.distinct
    rw [absences, missing_extended, without_extended, without_of_missing hr.consistent.sound fun id hid => ?_] at hundo
    · exact hundo
    · obtain ⟨k, hk, rfl⟩ := List.mem_map.1 hid
      exact hmissing k hk
  · intro config options choice verbose path m m₁ m₂ root key chain v hfaultless hroot hkey hchain hv
    obtain ⟨-, -, -, -, hkept⟩ := runOn_connect_ok hv
    have hgives : ∀ c, ((chainFor config root key choice).runOn m₁).1 = .ok c → c.IsMade :=
      (chainFor_made config root key choice).run m₁
    have hmade : chain.IsMade := hgives chain (congrArg Prod.fst hchain)
    obtain ⟨m', after, hdelete, hafter⟩ := runOn_deleteKey hfaultless hroot hkey hchain hv rfl verbose
    exact ⟨VaultKeyring.reachable_of_kept hkept, hmade, _, _, m', after, rfl, hdelete, hafter⟩

/-- Of a chain of two only the second key is installed. It goes, and the first is told of. A command that finds no key
    to remove ends with status 3. -/
theorem uninstall_exact_half :
    let b := Key.ofSecret .aes256Xts (.zero secretSize)
    let a : Key := { b with id := ⟨b.id.value + 1⟩ }
    let r := ((KeyringCall.add b).act.run empty).2
    let m : Machine := { Machine.new Disk.empty with answers := [some "alpha"] }
    r.Reachable ∧ Chain.IsMade ⟨a, [b]⟩ ∧
      (∃ failures r', (uninstall ⟨a, [b]⟩).run r = (failures, r') ∧ r'.keys = [] ∧
        failures = [(a.id, .notFound a.id)] ∧ removalStatus failures = 3) ∧
      ∃ m', (deleteKey Config.quick KeyOptions.unset .ignored true ⟨"/"⟩).runOn m = (.ok 3, m') := by
  intro b a r m
  have hsound : b.Sound := Key.sound_ofSecret _ _
  have hindex : b.index = none := Key.index_ofSecret _ _
  have hcipher : b.isTerminal = false := Key.isTerminal_ofSecret _ _
  clear_value b
  have hab : a.id ≠ b.id := fun h => absurd (congrArg KeyId.value h) (by simp [a])
  have hkeys : r.keys = [b] := rfl
  have hreachable : r.Reachable := .call _ .empty
  have hmade : Chain.IsMade ⟨a, [b]⟩ := Chain.isMade_pair hab hsound hindex hcipher
  obtain ⟨⟨failures, r', hrun, hleft, -, hfailures, hstatus⟩, -, hcommand⟩ := uninstall_exact hreachable hmade
  refine ⟨hreachable, hmade, ⟨failures, r', hrun, ?_, ?_, ?_⟩, ?_⟩
  · rw [hleft, hkeys]
    simp [Chain.keys]
  · rw [hfailures]
    simp [Chain.keys, find?, hkeys, hab.symm]
  · rw [hstatus, if_neg fun hall => ?_]
    obtain ⟨held, hheld, hid⟩ := hall a List.mem_cons_self
    rw [hkeys, List.mem_singleton] at hheld
    exact hab (hheld ▸ hid.symm)
  · obtain ⟨key, hkey⟩ := exists_readKey_quick (m := m) rfl
    have hconnect : (connect Location.root).runOn { m with answers := [], prompts := ["Enter passphrase: "] } =
        (.ok ⟨"/", empty⟩, { m with answers := [], prompts := ["Enter passphrase: "] }) := by
      unfold connect
      rw [runOn_attempt, VaultKeyring.run_connect rfl]
      rfl
    obtain ⟨-, hsingle, removed, left, m', -, hremove, hdelete, -⟩ := hcommand Config.quick KeyOptions.unset .ignored
      true ⟨"/"⟩ m _ _ Location.root key (.single key) _ rfl (runOn_locateDirectory_slash m) hkey (runOn_pure _ _)
      hconnect
    obtain ⟨⟨_, _, hrun', -, -, -, hstatus'⟩, -⟩ := uninstall_exact .empty hsingle
    rw [hremove] at hrun'
    obtain rfl := congrArg Prod.fst hrun'
    rw [if_neg fun hall => ?_] at hstatus'
    · exact ⟨m', hstatus' ▸ hdelete⟩
    · obtain ⟨held, hheld, -⟩ := hall key List.mem_cons_self
      cases hheld

end Keyring

end KeyChain
