import KeyChain.Keyring.Vault
import KeyChain.Proofs.DeleteCalls
import KeyChain.Proofs.Footprints
/-! Usage errors, and where they cannot come from. Parameters are checked before anything is done; what an
   operation on a store or a keyring can find wrong is in the surroundings or in the input.

   1. `blameless_resolve`, `blameless_addLink`, `blameless_inject` and their like: no look-up and no change to a
      store that is open for changes blames the parameters;
   2. `openAt_blameless`, `finish_blameless`: nor do opening and writing a store;
   3. `get_blameless`, `set_blameless`, `delete_blameless`, `injectIn_blameless`, `connect_blameless`,
      `commit_blameless`: so no call on a root or on a keyring does. -/
namespace KeyChain

/-- Whether an error is one of the parameters. -/
def KeychainError.IsUsage : KeychainError → Prop
  | usage _ => True
  | _ => False

/-- Whether the parameters are not to blame for an outcome. -/
def Blameless {α : Type} (result : Except KeychainError α) : Prop :=
  ∀ e, result = .error e → ¬ e.IsUsage

section Blameless

variable {α β : Type} {result : Except KeychainError α}

theorem blameless_ok (a : α) : Blameless (.ok a) := fun _ h => by cases h

theorem blameless_error {e : KeychainError} (h : ¬ e.IsUsage) : Blameless (.error e : Except KeychainError α) := by
  intro e' he
  cases he
  exact h

theorem Blameless.map (h : Blameless result) (f : α → β) : Blameless (result.map f) := by
  cases result with
  | error e => exact blameless_error (h e rfl)
  | ok a => exact blameless_ok (f a)

end Blameless

/-! Chains. -/

theorem blameless_decrypt (parent : Key) (record : Bytes) : Blameless (Link.decrypt parent record) := by
  unfold Link.decrypt
  split
  · exact blameless_error id
  · split
    · exact blameless_error id
    · split
      · exact blameless_error id
      · split
        · exact blameless_error id
        · exact blameless_ok _

theorem blameless_resolve (links : Links) (root : Key) (mode : ChainMode) :
    Blameless (Chain.resolve links root mode) := by
  intro e he
  obtain ⟨before, tail, -, hturn⟩ := Chain.resolve_iff.1 (Chain.map_keys_eq_error.2 he)
  unfold Chain.turn at hturn
  split at hturn
  · split at hturn <;> cases hturn
    exact id
  · next hopen =>
    cases hturn
    obtain ⟨record, -, hdecrypt⟩ := Chain.opening_eq_refused.1 hopen
    exact blameless_decrypt _ _ _ hdecrypt
  · cases hturn
  · split at hturn <;> cases hturn
    exact id

theorem blameless_isSame (a b : Key) : Blameless (a.isSame b) := by
  unfold Key.isSame
  split
  · exact blameless_ok _
  · split
    · exact blameless_ok _
    · exact blameless_error id

theorem blameless_includesIn (key : Key) (keys : List Key) : Blameless (Chain.includesIn key keys) := by
  induction keys with
  | nil => exact blameless_ok _
  | cons k rest ih =>
    unfold Chain.includesIn
    cases hsame : k.isSame key with
    | error e => exact blameless_error (blameless_isSame k key e hsame)
    | ok same =>
      cases same with
      | true => exact blameless_ok _
      | false => exact ih

/-! Stores that are open for changes. -/

namespace Store

variable {s : Store}

theorem blameless_chooseChild (chain : Chain) (target : LinkTarget) (source : RandomSource) :
    Blameless (chooseChild chain target source).1 := by
  cases target with
  | terminal => exact blameless_ok _
  | key child =>
    unfold chooseChild
    dsimp only
    cases hincludes : chain.includes child with
    | error e => exact blameless_error (blameless_includesIn child chain.keys e hincludes)
    | ok included =>
      cases included with
      | true => exact blameless_error id
      | false => exact blameless_ok _

theorem blameless_insertLink (hexclusive : s.mode = .exclusive) (parent child : Key) (source : RandomSource) :
    Blameless (s.insertLink parent child source).1 := by
  rw [insertLink_eq]
  unfold insert ensureWritable
  rw [hexclusive]
  cases s.lookup? parent.id with
  | none => exact blameless_ok _
  | some record => exact blameless_error id

theorem blameless_addLink (hexclusive : s.mode = .exclusive) (parent : Key) (target : LinkTarget)
    (source : RandomSource) : Blameless (s.addLink parent target source).1 := by
  rw [addLink_eq]
  cases hresolve : Chain.resolve s.links parent .ignoreMissing with
  | error e => exact blameless_error (blameless_resolve _ _ _ e hresolve)
  | ok chain =>
    have hchosen := blameless_chooseChild chain target source
    dsimp only
    cases hchoose : chooseChild chain target source with
    | mk chosen source' =>
      rw [hchoose] at hchosen
      cases chosen with
      | error e => exact blameless_error (hchosen e rfl)
      | ok child =>
        dsimp only
        cases chain.rest with
        | nil => exact blameless_insertLink hexclusive parent child source'
        | cons second more => exact blameless_error id

theorem mode_insertLink {s' : Store} {parent child : Key} {source source' : RandomSource}
    (h : s.insertLink parent child source = (.ok s', source')) : s'.mode = s.mode := by
  have hedited := s.after_edited (.insertLink parent child source)
  rw [after, insertLinkOn_eq, h] at hedited
  exact hedited.mode

theorem blameless_addDecoys (count spare : Nat) {s : Store} (hexclusive : s.mode = .exclusive)
    (source : RandomSource) : Blameless (addDecoys count spare s source).1 := by
  match count with
  | 0 =>
    rw [addDecoys]
    exact blameless_ok _
  | count + 1 =>
    rw [addDecoys_succ]
    dsimp only
    generalize (Key.random .invalid source).1 = parent
    generalize (Key.random .invalid (Key.random .invalid source).2).1 = child
    generalize (Key.random .invalid (Key.random .invalid source).2).2 = source₁
    have hinsert := blameless_insertLink hexclusive parent child source₁
    cases hlink : s.insertLink parent child source₁ with
    | mk result source' =>
      rw [hlink] at hinsert
      cases result with
      | ok s' =>
        have hmode' : s'.mode = .exclusive := (mode_insertLink hlink).trans hexclusive
        exact (blameless_addDecoys count spare hmode' source').map _
      | error e =>
        cases e with
        | chainExists p c =>
          match spare with
          | 0 => exact blameless_error id
          | spare + 1 => exact blameless_addDecoys (count + 1) spare hexclusive source'
        | _ => exact blameless_error (hinsert _ rfl)
termination_by (count, spare)

/-- Only the number zero is refused. -/
theorem blameless_inject (hexclusive : s.mode = .exclusive) {count : Nat} (hcount : count ≠ 0)
    (source : RandomSource) : Blameless (s.inject count source).1 := by
  rw [inject, if_neg hcount]
  exact blameless_addDecoys count maxCollisions hexclusive source

end Store

/-- Half of a number of keys, and at least one. -/
theorem pick_blameless (range : DecoyRange) (source : RandomSource) :
    Blameless (range.pick source).1 ∧ (range.pick source).1 ≠ .ok 0 := by
  unfold DecoyRange.pick
  cases RandomSource.wordBelow? (range.max - range.min) source with
  | none => exact ⟨blameless_error id, fun h => by cases h⟩
  | some drawn =>
    obtain ⟨word, source'⟩ := drawn
    refine ⟨blameless_ok _, fun h => ?_⟩
    injection h with hzero
    have hle : 1 ≤ Nat.max ((range.min + word).toNat / 2) 1 := Nat.le_max_right _ _
    omega

/-! Documents. -/

theorem blameless_readEntry (entry : String × String) : Blameless (StoreDocument.readEntry entry) := by
  intro e he
  unfold StoreDocument.readEntry at he
  split at he
  · cases he
    exact id
  · split at he
    · cases he
      exact id
    · next bytes _ =>
      unfold Record.ofBytes at he
      cases hrecord : FixedBytes.ofBytes? recordSize bytes with
      | none =>
        rw [hrecord] at he
        cases he
        exact id
      | some record =>
        rw [hrecord] at he
        cases he

theorem blameless_readEntries (entries : List (String × String)) :
    Blameless (StoreDocument.readEntries entries) := by
  induction entries with
  | nil => exact blameless_ok _
  | cons entry rest ih =>
    unfold StoreDocument.readEntries
    cases hentry : StoreDocument.readEntry entry with
    | error e => exact blameless_error (blameless_readEntry entry e hentry)
    | ok link =>
      cases hrest : StoreDocument.readEntries rest with
      | error e => exact blameless_error (ih e hrest)
      | ok links => exact blameless_ok _

theorem blameless_readLinks (path : Path) (content : Bytes) :
    Blameless (StoreDocument.readLinks path content) := by
  unfold StoreDocument.readLinks
  split
  · exact blameless_error id
  · next doc _ =>
    split
    · exact blameless_error id
    · cases hentries : StoreDocument.readEntries doc.entries.entries with
      | error e => exact blameless_error (blameless_readEntries _ e hentries)
      | ok links => exact blameless_ok _

namespace Keyring

theorem blameless_add (r : Keyring) (key : Key) : Blameless (r.add key) := by
  unfold add
  split
  · exact blameless_ok _
  · next installed _ =>
    cases hsame : installed.isSame key with
    | error e => exact blameless_error (blameless_isSame _ _ e hsame)
    | ok same =>
      cases same with
      | true => exact blameless_ok _
      | false => exact blameless_error id

theorem blameless_bindPath (r : Keyring) (path : Path) (key : Key) : Blameless (r.bindPath path key) := by
  unfold bindPath
  split
  · exact blameless_error id
  · exact blameless_ok _

end Keyring

namespace KeyringEntry

theorem blameless_readKey (stored : String × String) : Blameless (readKey stored) := by
  unfold readKey
  split
  · exact blameless_error id
  · split
    · exact blameless_error id
    · split
      · exact blameless_error id
      · exact blameless_ok _

theorem blameless_restoreKeys (r : Keyring) (keys : List (String × String)) : Blameless (restoreKeys r keys) := by
  induction keys generalizing r with
  | nil => exact blameless_ok _
  | cons stored rest ih =>
    unfold restoreKeys
    cases hkey : readKey stored with
    | error e => exact blameless_error (blameless_readKey stored e hkey)
    | ok key =>
      dsimp only
      cases hadd : r.add key with
      | error e => exact blameless_error (r.blameless_add key e hadd)
      | ok r' => exact ih r'

theorem blameless_restorePaths (r : Keyring) (paths : List (Path × String)) : Blameless (restorePaths r paths) := by
  induction paths generalizing r with
  | nil => exact blameless_ok _
  | cons binding rest ih =>
    obtain ⟨path, text⟩ := binding
    unfold restorePaths
    split
    · exact blameless_error id
    · split
      · exact ih r
      · next key _ =>
        cases hbind : r.bindPath path key with
        | error e => exact blameless_error (r.blameless_bindPath path key e hbind)
        | ok r' => exact ih r'

theorem blameless_restore (entry : KeyringEntry) : Blameless entry.restore := by
  unfold restore
  cases hkeys : restoreKeys Keyring.empty entry.keys with
  | error e => exact blameless_error (blameless_restoreKeys _ _ e hkeys)
  | ok r => exact blameless_restorePaths r entry.paths

end KeyringEntry

/-! Programs. -/

open Program

namespace Store

theorem openAt_blameless (root : Path) (mode : LockMode) : (openAt root mode).Yields Blameless := by
  have hacquire : (acquire (lockPathFor root) mode).Yields Blameless := by
    refine .after fun granted => ?_
    split
    · exact .pure (blameless_ok _)
    · split
      · exact .pure (blameless_ok _)
      · exact .pure (blameless_error id)
  have hload : (load (pathFor root)).Yields Blameless := by
    refine .after fun content => ?_
    split
    · exact .pure (blameless_readLinks _ _)
    · exact .pure (blameless_ok _)
    · exact .pure (blameless_error id)
  refine .bind hacquire fun acquired hacquired => ?_
  split
  · next e => exact .pure (blameless_error (hacquired e rfl))
  · refine .bind hload fun loaded hloaded => ?_
    split
    · next e => exact .after fun _ => .pure (blameless_error (hloaded e rfl))
    · exact .pure (blameless_ok _)

theorem flush_blameless (s : Store) : s.flush.Yields fun outcome => Blameless outcome.1 := by
  have hsave : s.save.Yields Blameless := by
    refine .after fun created => ?_
    split
    · exact .pure (blameless_error id)
    · refine .after fun written => ?_
      split
      · exact .pure (blameless_error id)
      · refine .after fun renamed => ?_
        split
        · exact .pure (blameless_error id)
        · exact .pure (blameless_ok _)
  unfold flush
  split
  · refine .bind hsave fun saved hsaved => ?_
    split
    · next e => exact .pure (blameless_error (hsaved e rfl))
    · exact .pure (blameless_ok _)
  · exact .pure (blameless_ok _)

end Store

namespace Root

variable (root : Root)

theorem finish_blameless {α : Type} (s : Store) {result : Except KeychainError α} (h : Blameless result) :
    (finish s result).Yields Blameless := by
  unfold finish
  cases result with
  | error e => exact .after fun _ => .pure h
  | ok a =>
    refine .bind s.flush_blameless fun outcome hflush => ?_
    exact .after fun _ => .pure (hflush.map _)

theorem get_blameless (key : Key) (mode : ChainMode) : (root.get key mode).Yields Blameless := by
  refine .bind (Store.openAt_blameless root.path .shared) fun opened hopened => ?_
  split
  · next e => exact .pure (blameless_error (hopened e rfl))
  · exact .after fun _ => .pure (blameless_resolve _ _ _)

theorem openExclusive_blameless : (Store.openAt root.path .exclusive).Yields fun result =>
    Blameless result ∧ ∀ s, result = .ok s → s.mode = .exclusive ∧ s.dirty = false :=
  (Store.openAt_blameless root.path .exclusive).and (Store.openAt_fresh root.path .exclusive)

theorem set_blameless (parent : Key) (target : LinkTarget) (source : RandomSource) :
    (root.set parent target source).Yields fun outcome => Blameless outcome.1 := by
  refine .bind root.openExclusive_blameless fun opened hopened => ?_
  split
  · next e => exact .pure (blameless_error (hopened.1 e rfl))
  · next s =>
    have hadd := Store.blameless_addLink (hopened.2 s rfl).1 parent target source
    split
    · next e source' heq =>
      rw [heq] at hadd
      exact .bind (finish_blameless s (blameless_error (hadd e rfl))) fun result hresult => .pure hresult
    · exact .bind (finish_blameless _ (blameless_ok _)) fun result hresult => .pure hresult

/-- A chain that was just resolved is deleted, so only the files can fail. -/
theorem delete_blameless (key : Key) (scope : DeleteScope) : (root.delete key scope).Yields Blameless := by
  refine .bind root.openExclusive_blameless fun opened hopened => ?_
  split
  · next e => exact .pure (blameless_error (hopened.1 e rfl))
  · next s =>
    have hresolve := blameless_resolve s.links key .use
    split
    · next e heq => exact finish_blameless s (blameless_error (hresolve e heq))
    · next chain heq =>
      obtain ⟨s', hdelete, -⟩ := Store.deleteChain_ok (hopened.2 s rfl).1 heq scope
      rw [hdelete]
      refine .bind (finish_blameless s' (blameless_ok _)) fun finished hfinished => ?_
      split
      · next e => exact .pure (blameless_error (hfinished e rfl))
      · exact .pure (blameless_ok _)

theorem injectIn_blameless (range : DecoyRange) (source : RandomSource) :
    (root.injectIn range source).Yields fun outcome => Blameless outcome.1 := by
  obtain ⟨hpick, hsome⟩ := pick_blameless range source
  unfold injectIn
  split
  · next e source' heq =>
    rw [heq] at hpick
    exact .pure (blameless_error (hpick e rfl))
  · next count source' heq =>
    have hcount : count ≠ 0 := by
      rintro rfl
      exact hsome (congrArg Prod.fst heq)
    refine .bind root.openExclusive_blameless fun opened hopened => ?_
    split
    · next e => exact .pure (blameless_error (hopened.1 e rfl))
    · next s =>
      have hinject := Store.blameless_inject (hopened.2 s rfl).1 hcount source'
      exact .bind (finish_blameless _ hinject) fun result hresult => .pure hresult

end Root

namespace VaultKeyring

theorem connect_blameless (root : String) : (connect root).Yields Blameless := by
  refine .after fun opened => ?_
  split
  · exact .pure (blameless_error id)
  · refine .after fun got => ?_
    split
    · exact .pure (blameless_ok _)
    · exact .pure (blameless_error id)
    · split
      · exact .pure (blameless_error id)
      · next entry _ => exact .pure (entry.blameless_restore.map _)

theorem commit_blameless (v : VaultKeyring) {changed : Except KeychainError Keyring} (h : Blameless changed) :
    (v.commit changed).Yields fun outcome => Blameless outcome.1 := by
  have hsave : ∀ v : VaultKeyring, v.save.Yields Blameless := by
    intro v
    unfold save
    split
    · refine .after fun deleted => ?_
      split
      · exact .pure (blameless_ok _)
      · exact .pure (blameless_ok _)
      · exact .pure (blameless_error id)
    · refine .after fun stored => ?_
      split
      · exact .pure (blameless_ok _)
      · exact .pure (blameless_error id)
  unfold commit
  cases changed with
  | error e => exact .pure (blameless_error (h e rfl))
  | ok keyring => exact .bind (hsave _) fun saved hsaved => .pure hsaved

end VaultKeyring

end KeyChain
