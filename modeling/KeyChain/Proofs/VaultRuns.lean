import KeyChain.Keyring.Vault
import KeyChain.Machine
import KeyChain.Proofs.EntryText
import KeyChain.Proofs.LinkCodec
/-! Keyrings in the vault. A change is made in memory and then the whole entry is written, so what counts
   is that an entry gives back the keyring it was written from.

   1. `run_save`: saving leaves an entry that gives the keyring back, or none if there is no key: then
      there is no binding either, so nothing is lost;
   2. `run_call`: a call that succeeds saves, and one that fails changes nothing;
   3. `run_calls_faultless`: in memory, calls do what their changes do one after the other;
   4. `calls_persist`: so after any number of calls a new connection gives the keyring there is. -/
namespace KeyChain

namespace Keyring

/-! The places that keys remember have no say. -/

theorem keyAt?_unplaced (r : Keyring) (index : Nat) : r.unplaced.keyAt? index = r.keyAt? index := by
  simp only [keyAt?, unplaced, List.getElem?_map, Option.map_map]
  rfl

theorem listed_unplaced (r : Keyring) : r.unplaced.listed = r.listed := by
  have hkeyAt : r.unplaced.keyAt? = r.keyAt? := funext (keyAt?_unplaced r)
  unfold listed
  rw [hkeyAt]
  simp only [unplaced, List.length_map]

theorem pathKey?_unplaced (r : Keyring) (path : Path) : r.unplaced.pathKey? path = r.pathKey? path := by
  have hkeyAt : r.unplaced.keyAt? = r.keyAt? := funext (keyAt?_unplaced r)
  have hindexOf : r.unplaced.indexOf? = r.indexOf? := by
    funext id
    simp only [indexOf?, unplaced, List.findIdx?_map]
    rfl
  unfold pathKey?
  rw [hkeyAt, hindexOf]
  rfl

theorem unplaced_unplaced (r : Keyring) : r.unplaced.unplaced = r.unplaced := by
  simp only [unplaced, List.map_map]
  rfl

/-- An installed key has a place. -/
theorem exists_indexOf? {r : Keyring} {id : KeyId} {installed : Key} (h : r.find? id = some installed) :
    ∃ (i : Nat) (hi : i < r.keys.length), r.indexOf? id = some i ∧ r.keys[i] = installed := by
  obtain ⟨hid, i, hi, hget, hbefore⟩ := List.find?_eq_some_iff_getElem.1 h
  refine ⟨i, hi, List.findIdx?_eq_some_iff_getElem.2 ⟨hi, ?_, fun j hj => ?_⟩, hget⟩
  · rw [hget]
    exact hid
  · simpa using hbefore j hj

/-- A path that is bound to the only key gives that key. -/
theorem pathKey?_bound (key : Key) (path : Path) :
    (⟨[key], OrderedMap.empty.insert path.parts (path, key.id)⟩ : Keyring).pathKey? path = some (key.withIndex 0) := by
  simp [pathKey?, indexOf?, keyAt?, OrderedMap.get?_insert]

/-! What is installed after a key was added. -/

/-- The key that was there under the identifier stays there, and else it is the key that was added. -/
theorem find?_add {r r' : Keyring} {key : Key} (h : r.add key = .ok r') :
    r'.find? key.id = some ((r.find? key.id).getD key) := by
  unfold add at h
  split at h
  · next hnone =>
    cases h
    rw [hnone]
    unfold find? at hnone ⊢
    rw [List.find?_append, hnone]
    simp
  · next installed hinstalled =>
    split at h <;> cases h
    rw [hinstalled]
    rfl

theorem find?_add_of_ne {r r' : Keyring} {key : Key} {id : KeyId} (h : r.add key = .ok r') (hne : id ≠ key.id) :
    r'.find? id = r.find? id := by
  unfold add at h
  split at h
  · cases h
    have hkey : (key.id == id) = false := beq_false_of_ne hne.symm
    simp [find?, List.find?_append, hkey]
  · split at h <;> cases h
    rfl

/-- Without a key there is no binding. -/
theorem eq_empty {r : Keyring} (h : r.Sound) (hkeys : r.keys = []) : r = empty := by
  obtain ⟨keys, bindings⟩ := r
  dsimp only at hkeys
  subst hkeys
  have hbindings : bindings.entries = [] := by
    refine List.eq_nil_iff_forall_not_mem.2 fun b hb => ?_
    cases h b hb
  exact congrArg (Keyring.mk []) (OrderedMap.ext hbindings)

end Keyring

theorem Key.isDerived_ofByte (b : UInt8) : (Key.ofByte b).IsDerived :=
  ⟨.aes256Xts, ⟨List.replicate secretSize b, List.length_replicate⟩, rfl, rfl⟩

/-- A call on a keyring. -/
inductive KeyringCall where
  | add (key : Key)
  | remove (key : Key)
  | bindPath (path : Path) (key : Key)
  | clear

namespace KeyringCall

/-- The change that a call makes. -/
def change (r : Keyring) : KeyringCall → Except KeychainError Keyring
  | add key => r.add key
  | remove key => r.remove key
  | bindPath path key => r.bindPath path key
  | clear => .ok Keyring.empty

/-- How calls end whose changes are made one after the other, and what they leave. -/
def changes (r : Keyring) : List KeyringCall → List (Except KeychainError Unit) × Keyring
  | [] => ([], r)
  | c :: rest =>
    match c.change r with
    | .error e => (.error e :: (changes r rest).1, (changes r rest).2)
    | .ok r' => (.ok () :: (changes r' rest).1, (changes r' rest).2)

/-- Two keys are added and the second is bound to a path. The first is removed, and with it nothing else. -/
theorem changes_two {a b : Key} (hids : a.id ≠ b.id) (path : Path) :
    changes Keyring.empty [.add a, .add b, .bindPath path b, .remove a, .remove a] =
      ([.ok (), .ok (), .ok (), .ok (), .error (.notFound a.id)],
        ⟨[b], OrderedMap.empty.insert path.parts (path, b.id)⟩) := by
  have hkept : (OrderedMap.empty.insert path.parts (path, b.id)).filter (fun bound => bound.2.2 != a.id) =
      OrderedMap.empty.insert path.parts (path, b.id) :=
    OrderedMap.ext (by simp [OrderedMap.filter, OrderedMap.insert, OrderedMap.place, OrderedMap.empty, hids.symm])
  simp [changes, change, Keyring.add, Keyring.bindPath, Keyring.remove, Keyring.find?, Keyring.empty, hids, hids.symm]
  exact hkept

theorem storable_change {r r' : Keyring} {c : KeyringCall} (h : r.Storable)
    (hderived : ∀ key, c = add key → key.IsDerived) (hc : c.change r = .ok r') : r'.Storable := by
  cases c with
  | add key => exact Keyring.storable_add h (hderived key rfl) hc
  | remove key => exact Keyring.storable_remove h hc
  | bindPath path key => exact Keyring.storable_bindPath h hc
  | clear =>
    cases hc
    exact Keyring.storable_empty

end KeyringCall

namespace VaultKeyring

/-- Makes one call. -/
def call (v : VaultKeyring) : KeyringCall → Program (Except KeychainError Unit × VaultKeyring)
  | .add key => v.add key
  | .remove key => v.remove key
  | .bindPath path key => v.bindPath path key
  | .clear => v.clear

/-- Makes calls one after the other, and lists how they ended. -/
def calls (v : VaultKeyring) : List KeyringCall → Program (List (Except KeychainError Unit) × VaultKeyring)
  | [] => return ([], v)
  | c :: rest => do
    let (result, v) ← v.call c
    let (results, v) ← calls v rest
    return (result :: results, v)

theorem call_eq (v : VaultKeyring) (c : KeyringCall) : v.call c = v.commit (c.change v.keyring) := by
  cases c <;> rfl

variable {m : Machine} {v : VaultKeyring}

/-- The keyring that an entry gives; an entry that is not there gives an empty one. -/
def kept (root : String) : Option String → Except KeychainError Keyring
  | none => .ok Keyring.empty
  | some text =>
    match KeyringEntry.ofText? text with
    | none => .error (.keyring (.malformedEntry root KeyringEntry.complaint))
    | some entry => entry.restore

/-- If it can be opened and read, a connection gives what the entry gives. -/
theorem run_connect_of_readable (hopening : m.vaultFaults.opening = none) (hgetting : m.vaultFaults.getting = none)
    (root : String) :
    (connect root).run m = ((kept root (m.vault.get? root)).map fun keyring => ⟨root, keyring⟩, m) := by
  have hopen : (Program.openEntry root).run m = (.ok (), m) := by
    show (Machine.barring (m.vaultFaults.opening.map _) _, m) = _
    rw [hopening]
    rfl
  have hget : (Program.getEntry root).run m = ((m.vault.get? root).elim (.error .noEntry) .ok, m) := by
    show (Machine.barring (m.vaultFaults.getting.map _) _, m) = _
    rw [hgetting]
    cases m.vault.get? root <;> rfl
  have hrun : (connect root).run m = _ := Program.run_bind ..
  rw [hrun, hopen]
  dsimp only
  rw [Program.run_bind, hget]
  unfold kept
  cases m.vault.get? root with
  | none => rfl
  | some text =>
    rw [Option.elim_some]
    dsimp only
    cases KeyringEntry.ofText? text <;> rfl

/-- A connection was made to an entry that can be opened and read and gives a keyring. -/
theorem readable_of_run_connect {m' : Machine} {root : String} (h : (connect root).run m = (.ok v, m')) :
    m' = m ∧ m.vaultFaults.opening = none ∧ m.vaultFaults.getting = none ∧ v.root = root ∧
      kept root (m.vault.get? root) = .ok v.keyring := by
  have hrun : (connect root).run m = _ := Program.run_bind ..
  cases hopening : m.vaultFaults.opening with
  | some cause =>
    have hopen : (Program.openEntry root).run m = (.error (.failed cause), m) := by
      show (Machine.barring (m.vaultFaults.opening.map _) _, m) = _
      rw [hopening]
      rfl
    rw [hrun, hopen] at h
    cases h
  | none =>
    cases hgetting : m.vaultFaults.getting with
    | some cause =>
      have hopen : (Program.openEntry root).run m = (.ok (), m) := by
        show (Machine.barring (m.vaultFaults.opening.map _) _, m) = _
        rw [hopening]
        rfl
      have hget : (Program.getEntry root).run m = (.error (.failed cause), m) := by
        show (Machine.barring (m.vaultFaults.getting.map _) _, m) = _
        rw [hgetting]
        rfl
      rw [hrun, hopen] at h
      dsimp only at h
      rw [Program.run_bind, hget] at h
      cases h
    | none =>
      rw [run_connect_of_readable hopening hgetting] at h
      cases hkept : kept root (m.vault.get? root) with
      | error e => rw [hkept] at h; cases h
      | ok keyring =>
        rw [hkept] at h
        cases h
        exact ⟨rfl, rfl, rfl, rfl, rfl⟩

/-- A connection gives what the entry gives. -/
theorem run_connect (hfaultless : m.vaultFaults = {}) (root : String) :
    (connect root).run m = ((kept root (m.vault.get? root)).map fun keyring => ⟨root, keyring⟩, m) :=
  run_connect_of_readable (by rw [hfaultless]) (by rw [hfaultless]) root

/-- Saving writes the entry, or sees to it that there is none if there is no key. -/
theorem run_save (hfaultless : m.vaultFaults = {}) (v : VaultKeyring) :
    ∃ m', v.save.run m = (.ok (), m') ∧ m'.vaultFaults = {} ∧
      m'.vault.get? v.root = if v.keyring.keys = [] then none else some (KeyringEntry.text v.keyring) := by
  unfold save
  by_cases hkeys : v.keyring.keys = []
  · rw [if_pos hkeys, if_pos (List.isEmpty_iff.2 hkeys), Program.run_bind]
    cases hentry : m.vault.get? v.root with
    | none =>
      have hdelete : (Program.deleteEntry v.root).run m = (.error .noEntry, m) := by
        show m.answer (.deleteEntry v.root) = _
        rw [Machine.answer, hfaultless]
        simp only [hentry]
        rfl
      rw [hdelete]
      exact ⟨m, rfl, hfaultless, hentry⟩
    | some text =>
      have hdelete : (Program.deleteEntry v.root).run m =
          (.ok (), { m with vault := m.vault.erase v.root }) := by
        show m.answer (.deleteEntry v.root) = _
        rw [Machine.answer, hfaultless]
        simp only [hentry]
        rfl
      rw [hdelete]
      refine ⟨_, rfl, hfaultless, ?_⟩
      show (m.vault.erase v.root).get? v.root = _
      rw [OrderedMap.get?_erase, if_pos Std.ReflCmp.compare_self]
  · rw [if_neg hkeys, if_neg fun hempty => hkeys (List.isEmpty_iff.1 hempty), Program.run_bind]
    have hset : (Program.setEntry v.root (KeyringEntry.text v.keyring)).run m =
        (.ok (), { m with vault := m.vault.insert v.root (KeyringEntry.text v.keyring) }) := by
      show m.answer (.setEntry _ _) = _
      rw [Machine.answer, hfaultless]
      rfl
    rw [hset]
    refine ⟨_, rfl, hfaultless, ?_⟩
    show (m.vault.insert v.root _).get? v.root = _
    rw [OrderedMap.get?_insert, if_pos Std.ReflCmp.compare_self]

/-- A change that succeeds is saved. -/
theorem run_commit (hfaultless : m.vaultFaults = {}) (v : VaultKeyring) (keyring : Keyring) :
    ∃ m', (v.commit (.ok keyring)).run m = ((.ok (), { v with keyring := keyring }), m') ∧ m'.vaultFaults = {} ∧
      m'.vault.get? v.root = if keyring.keys = [] then none else some (KeyringEntry.text keyring) := by
  obtain ⟨m', hsave, hfaultless', hentry⟩ := run_save hfaultless { v with keyring := keyring }
  refine ⟨m', ?_, hfaultless', hentry⟩
  have hrun : (v.commit (.ok keyring)).run m = _ := Program.run_bind ..
  rw [hrun, hsave]
  rfl

/-- A change that leaves keys is saved, if the vault takes entries. -/
theorem run_commit_of_writable (hsetting : m.vaultFaults.setting = none) (v : VaultKeyring) {keyring : Keyring}
    (hkeys : keyring.keys ≠ []) :
    (v.commit (.ok keyring)).run m = ((.ok (), { v with keyring := keyring }),
      { m with vault := m.vault.insert v.root (KeyringEntry.text keyring) }) := by
  have hset : (Program.setEntry v.root (KeyringEntry.text keyring)).run m =
      (.ok (), { m with vault := m.vault.insert v.root (KeyringEntry.text keyring) }) := by
    show m.answer (.setEntry _ _) = _
    rw [Machine.answer, hsetting]
    rfl
  have hsave : ({ v with keyring := keyring } : VaultKeyring).save.run m =
      (.ok (), { m with vault := m.vault.insert v.root (KeyringEntry.text keyring) }) := by
    unfold save
    rw [if_neg fun hempty => hkeys (List.isEmpty_iff.1 hempty), Program.run_bind, hset]
    rfl
  have hrun : (v.commit (.ok keyring)).run m = _ := Program.run_bind ..
  rw [hrun, hsave]
  rfl

/-- A change that was saved. If keys are left, then nothing but the entry is another. -/
theorem saved_of_run_commit {v' : VaultKeyring} {m' : Machine} {changed : Except KeychainError Keyring}
    (h : (v.commit changed).run m = ((.ok (), v'), m')) :
    ∃ keyring, changed = .ok keyring ∧ v' = { v with keyring := keyring } ∧
      (keyring.keys ≠ [] → m.vaultFaults.setting = none ∧
        m' = { m with vault := m.vault.insert v.root (KeyringEntry.text keyring) }) := by
  cases changed with
  | error e => cases h
  | ok keyring =>
    have hrun : (v.commit (.ok keyring)).run m = _ := Program.run_bind ..
    rw [hrun] at h
    obtain rfl : { v with keyring := keyring } = v' := congrArg (fun outcome => outcome.1.2) h
    refine ⟨keyring, rfl, rfl, fun hkeys => ?_⟩
    unfold save at h
    rw [if_neg fun hempty => hkeys (List.isEmpty_iff.1 hempty), Program.run_bind] at h
    have hset : (Program.setEntry v.root (KeyringEntry.text keyring)).run m =
        m.answer (.setEntry v.root (KeyringEntry.text keyring)) := rfl
    rw [hset, Machine.answer] at h
    cases hfault : m.vaultFaults.setting with
    | some cause => rw [hfault] at h; cases h
    | none =>
      rw [hfault] at h
      exact ⟨rfl, (congrArg Prod.snd h).symm⟩

theorem storable_of_kept {root : String} {entry : Option String} {keyring : Keyring}
    (h : kept root entry = .ok keyring) : keyring.Storable := by
  unfold kept at h
  split at h
  · cases h
    exact Keyring.storable_empty
  split at h
  · cases h
  · exact KeyringEntry.storable_restore h

/-- What is written of a keyring is kept. -/
theorem kept_text {keyring : Keyring} (h : keyring.Storable) (root : String) :
    kept root (some (KeyringEntry.text keyring)) = .ok keyring.unplaced := by
  rw [kept, KeyringEntry.ofText?_text]
  exact KeyringEntry.restore_text h

/-- Whether the vault keeps a keyring: a new connection gives it, less the places that its keys remember. -/
structure Kept (m : Machine) (v : VaultKeyring) : Prop where
  faultless : m.vaultFaults = {}
  storable : v.keyring.Storable
  restored : ∃ r, kept v.root (m.vault.get? v.root) = .ok r ∧ r.unplaced = v.keyring.unplaced

/-- Whether there is an entry exactly if there is a key. -/
def Entered (m : Machine) (v : VaultKeyring) : Prop :=
  (m.vault.get? v.root).isSome ↔ v.keyring.keys ≠ []

/-- A change that is saved is kept. -/
theorem run_commit_kept (hfaultless : m.vaultFaults = {}) (v : VaultKeyring) {keyring : Keyring}
    (h : keyring.Storable) :
    ∃ m', (v.commit (.ok keyring)).run m = ((.ok (), { v with keyring := keyring }), m') ∧
      Kept m' { v with keyring := keyring } ∧ Entered m' { v with keyring := keyring } := by
  obtain ⟨m', hcommit, hfaultless', hentry⟩ := run_commit hfaultless v keyring
  refine ⟨m', hcommit, ⟨hfaultless', h, ?_⟩, ?_⟩
  · rw [hentry]
    by_cases hkeys : keyring.keys = []
    · rw [if_pos hkeys]
      exact ⟨Keyring.empty, rfl, by rw [Keyring.eq_empty h.sound hkeys]⟩
    · rw [if_neg hkeys]
      exact ⟨_, kept_text h v.root, Keyring.unplaced_unplaced _⟩
  · rw [Entered, hentry]
    by_cases hkeys : keyring.keys = [] <;> simp [hkeys]

/-- A call that succeeds is kept, and one that fails changes nothing. -/
theorem run_call (h : Kept m v) {c : KeyringCall} (hderived : ∀ key, c = .add key → key.IsDerived) :
    ∃ result v' m', (v.call c).run m = ((result, v'), m') ∧ v'.root = v.root ∧ Kept m' v' ∧
      (result = .ok () ∧ Entered m' v' ∨ result ≠ .ok () ∧ v' = v ∧ m' = m) := by
  rw [call_eq]
  cases hchange : c.change v.keyring with
  | error e => exact ⟨.error e, v, m, rfl, rfl, h, .inr ⟨by simp, rfl, rfl⟩⟩
  | ok keyring =>
    have hstorable := KeyringCall.storable_change h.storable hderived hchange
    obtain ⟨m', hcommit, hkept, hentered⟩ := run_commit_kept h.faultless v hstorable
    exact ⟨.ok (), { v with keyring := keyring }, m', hcommit, rfl, hkept, .inl ⟨rfl, hentered⟩⟩

theorem run_calls_cons {v₁ v' : VaultKeyring} {m₁ m' : Machine} {c : KeyringCall} {rest : List KeyringCall}
    {result : Except KeychainError Unit} {results : List (Except KeychainError Unit)}
    (hcall : (v.call c).run m = ((result, v₁), m₁)) (hrest : (v₁.calls rest).run m₁ = ((results, v'), m')) :
    (v.calls (c :: rest)).run m = ((result :: results, v'), m') := by
  have hrun : (v.calls (c :: rest)).run m = _ := Program.run_bind ..
  rw [hrun, hcall]
  dsimp only
  rw [Program.run_bind, hrest]
  rfl

/-- After calls the keyring is kept, and once one has succeeded there is an entry exactly if there is a key. -/
theorem run_calls (calls : List KeyringCall) (h : Kept m v)
    (hderived : ∀ key, .add key ∈ calls → key.IsDerived) :
    ∃ results v' m', (v.calls calls).run m = ((results, v'), m') ∧ v'.root = v.root ∧ Kept m' v' ∧
      (.ok () ∈ results ∨ Entered m v → Entered m' v') := by
  induction calls generalizing m v with
  | nil => exact ⟨[], v, m, rfl, rfl, h, fun hentered => hentered.resolve_left List.not_mem_nil⟩
  | cons c rest ih =>
    obtain ⟨result, v₁, m₁, hcall, hroot₁, h₁, hcases⟩ := run_call h fun key hkey =>
      hderived key (hkey ▸ List.mem_cons_self)
    obtain ⟨results, v', m', hrest, hroot, h', hentered⟩ := ih h₁ fun key hkey =>
      hderived key (List.mem_cons_of_mem _ hkey)
    refine ⟨result :: results, v', m', run_calls_cons hcall hrest, hroot.trans hroot₁, h',
      fun hbefore => hentered ?_⟩
    rcases hcases with ⟨-, hentered₁⟩ | ⟨hfailed, rfl, rfl⟩
    · exact .inr hentered₁
    · exact hbefore.imp_left fun hmem => (List.mem_cons.1 hmem).resolve_left fun he => hfailed he.symm

/-- If the vault refuses nothing, calls make their changes. -/
theorem run_calls_faultless (hfaultless : m.vaultFaults = {}) (v : VaultKeyring) (calls : List KeyringCall) :
    ∃ m', (v.calls calls).run m = (((KeyringCall.changes v.keyring calls).1,
      { v with keyring := (KeyringCall.changes v.keyring calls).2 }), m') := by
  induction calls generalizing m v with
  | nil => exact ⟨m, rfl⟩
  | cons c rest ih =>
    rw [KeyringCall.changes]
    cases hchange : c.change v.keyring with
    | error e =>
      have hcall : (v.call c).run m = ((.error e, v), m) := by rw [call_eq, hchange]; rfl
      obtain ⟨m', hrest⟩ := ih hfaultless v
      exact ⟨m', run_calls_cons hcall hrest⟩
    | ok keyring =>
      obtain ⟨m₁, hcommit, hfaultless₁, -⟩ := run_commit hfaultless v keyring
      have hcall : (v.call c).run m = ((.ok (), { v with keyring := keyring }), m₁) := by rw [call_eq, hchange, hcommit]
      obtain ⟨m', hrest⟩ := ih hfaultless₁ { v with keyring := keyring }
      exact ⟨m', run_calls_cons hcall hrest⟩

/-- Calls persist. From whatever entry a connection was made, or from none, and after whatever calls, in which
    the keys that are added are derived: a new connection gives the same keys at the same places and the
    same bindings as the keyring there is. Once a call has succeeded there is an entry exactly if there is a
    key. -/
theorem calls_persist {root : String} {live : VaultKeyring} {m₀ : Machine} (hfaultless : m.vaultFaults = {})
    (hconnect : (connect root).run m = (.ok live, m₀)) (calls : List KeyringCall)
    (hderived : ∀ key, .add key ∈ calls → key.IsDerived) :
    ∃ results v m', (live.calls calls).run m₀ = ((results, v), m') ∧
      (∃ fresh, (connect root).run m' = (.ok fresh, m') ∧ fresh.keyring.listed = v.keyring.listed ∧
        fresh.keyring.bindings = v.keyring.bindings ∧
        ∀ path, fresh.keyring.pathKey? path = v.keyring.pathKey? path) ∧
      (.ok () ∈ results → ((m'.vault.get? root).isSome ↔ v.keyring.keys ≠ [])) := by
  rw [run_connect hfaultless] at hconnect
  cases hkept : kept root (m.vault.get? root) with
  | error e => rw [hkept] at hconnect; cases hconnect
  | ok keyring =>
    rw [hkept] at hconnect
    cases hconnect
    have hstorable : keyring.Storable := storable_of_kept hkept
    obtain ⟨results, v, m', hcalls, hroot, ⟨hfaultless', -, r, hr, hsame⟩, hentered⟩ :=
      @run_calls m ⟨root, keyring⟩ calls ⟨hfaultless, hstorable, keyring, hkept, rfl⟩ hderived
    obtain rfl : v.root = root := hroot
    refine ⟨results, v, m', hcalls, ⟨⟨v.root, r⟩, ?_, ?_, ?_, fun path => ?_⟩, fun hok => hentered (.inl hok)⟩
    · rw [run_connect hfaultless', hr]
      rfl
    · rw [← r.listed_unplaced, ← v.keyring.listed_unplaced, hsame]
    · show r.unplaced.bindings = v.keyring.unplaced.bindings
      rw [hsame]
    · rw [← r.pathKey?_unplaced, ← v.keyring.pathKey?_unplaced, hsame]

/-- Two keys and a path that is bound to the second. The first is removed again, which cannot be done twice. -/
theorem calls_persist_remove :
    let m := Machine.new Disk.empty
    let a := Key.ofByte 1
    let b := Key.ofByte 2
    let path : Path := ⟨"/home"⟩
    let calls : List KeyringCall := [.add a, .add b, .bindPath path b, .remove a, .remove a]
    let left : Keyring := ⟨[b], OrderedMap.empty.insert path.parts (path, b.id)⟩
    m.vaultFaults = {} ∧ (connect "/").run m = (.ok ⟨"/", Keyring.empty⟩, m) ∧
    (∀ key, .add key ∈ calls → key.IsDerived) ∧
    ∃ m', ((⟨"/", Keyring.empty⟩ : VaultKeyring).calls calls).run m =
        (([.ok (), .ok (), .ok (), .ok (), .error (.notFound a.id)], ⟨"/", left⟩), m') ∧
      (m'.vault.get? "/").isSome ∧
      ∃ fresh, (connect "/").run m' = (.ok fresh, m') ∧ fresh.keyring.listed = [b.withIndex 0] ∧
        fresh.keyring.bindings = left.bindings ∧ fresh.keyring.pathKey? path = some (b.withIndex 0) := by
  intro m a b path calls left
  have hconnect : (connect "/").run m = (.ok ⟨"/", Keyring.empty⟩, m) := by
    rw [run_connect rfl]
    rfl
  have hderived : ∀ key, .add key ∈ calls → key.IsDerived := by
    intro key hkey
    have hcases : key = a ∨ key = b := by simpa [calls] using hkey
    rcases hcases with rfl | rfl
    · exact Key.isDerived_ofByte 1
    · exact Key.isDerived_ofByte 2
  obtain ⟨results, v, m', hrun, ⟨fresh, hfresh, hlisted, hbindings, hpaths⟩, hentry⟩ :=
    @calls_persist m "/" _ _ rfl hconnect calls hderived
  obtain ⟨m'', hrun'⟩ := @run_calls_faultless m rfl ⟨"/", Keyring.empty⟩ calls
  rw [KeyringCall.changes_two Key.id_ofByte_ne, hrun] at hrun'
  cases hrun'
  have hpath : left.pathKey? path = some (b.withIndex 0) := Keyring.pathKey?_bound b path
  exact ⟨rfl, hconnect, hderived, m', hrun, (hentry (by simp)).2 (by simp), fresh, hfresh, hlisted, hbindings,
    (hpaths path).trans hpath⟩

end VaultKeyring

end KeyChain
