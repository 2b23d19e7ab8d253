import KeyChain.Keyring.Vault
import KeyChain.Proofs.Requests
import KeyChain.Root
/-! What the library asks of its surroundings. The calls on a root are about files and locks, the calls on a
   keyring about the entry in the vault, and neither shows anything.

   1. `get_uses`: a look-up only locks and reads;
   2. `set_uses`, `delete_uses`, `injectIn_uses`: changes also write;
   3. `connect_uses`, `commit_uses`, `install_uses`, `uninstall_uses`: keyrings ask only for the vault. -/
namespace KeyChain

namespace Request

/-- Requests to lock and to read files. -/
def IsLookUp : Request → Prop
  | lock .. | unlock _ | read _ => True
  | _ => False

/-- Requests that make, write and move files. -/
def IsChange : Request → Prop
  | create _ | write .. | rename .. => True
  | _ => False

/-- Requests about files and locks. -/
def IsOfFile (r : Request) : Prop := r.IsLookUp ∨ r.IsChange

/-- Requests about the vault. -/
def IsOfVault : Request → Prop
  | openEntry _ | getEntry _ | setEntry .. | deleteEntry _ => True
  | _ => False

end Request

open Program

namespace Store

theorem release_uses (lock : Option LockId) : (release lock).Uses Request.IsLookUp := by
  cases lock with
  | none => exact .pure _
  | some lock => exact .request trivial

theorem openAt_uses (root : Path) (mode : LockMode) : (openAt root mode).Uses Request.IsLookUp := by
  have hacquire : (acquire (lockPathFor root) mode).Uses Request.IsLookUp := by
    refine .bind (.request trivial) fun granted => ?_
    split
    · exact .pure _
    · split <;> exact .pure _
  have hload : (load (pathFor root)).Uses Request.IsLookUp := by
    refine .bind (.request trivial) fun content => ?_
    split <;> exact .pure _
  refine .bind hacquire fun acquired => ?_
  split
  · exact .pure _
  · next lock =>
    refine .bind hload fun loaded => ?_
    split
    · exact .bind (release_uses lock) fun _ => .pure _
    · exact .pure _

/-- A store that was opened has nothing to write. -/
theorem openAt_fresh (root : Path) (mode : LockMode) :
    (openAt root mode).Yields fun result => ∀ s, result = .ok s → s.mode = mode ∧ s.dirty = false := by
  refine .after fun acquired => ?_
  split
  · exact .pure fun _ h => by cases h
  · refine .after fun loaded => ?_
    split
    · exact .after fun _ => .pure fun _ h => by cases h
    · exact .pure fun s h => by cases h; exact ⟨rfl, rfl⟩

theorem flush_uses (s : Store) : s.flush.Uses Request.IsOfFile := by
  have hsave : s.save.Uses Request.IsOfFile := by
    refine .bind (.request (.inr trivial)) fun created => ?_
    split
    · exact .pure _
    · refine .bind (.request (.inr trivial)) fun written => ?_
      split
      · exact .pure _
      · refine .bind (.request (.inr trivial)) fun renamed => ?_
        split <;> exact .pure _
  unfold flush
  split
  · refine .bind hsave fun saved => ?_
    split <;> exact .pure _
  · exact .pure _

theorem close_uses (s : Store) : s.close.Uses Request.IsOfFile :=
  .bind s.flush_uses fun _ => (release_uses s.lock).mono fun _ => .inl

/-- Closing a store without changes lets its lock go and does no more. -/
theorem close_uses_clean {s : Store} (h : s.dirty = false) : s.close.Uses Request.IsLookUp := by
  have hflush : s.flush.Uses Request.IsLookUp := by
    rw [flush, h]
    exact .pure _
  exact .bind hflush fun _ => release_uses s.lock

end Store

namespace Root

variable (root : Root)

theorem finish_uses {α : Type} (s : Store) (result : Except KeychainError α) :
    (finish s result).Uses Request.IsOfFile := by
  unfold finish
  split
  · exact .bind s.close_uses fun _ => .pure _
  · refine .bind s.flush_uses fun flushed => ?_
    exact .bind (Store.close_uses _) fun _ => .pure _

/-- A look-up locks and reads. -/
theorem get_uses (key : Key) (mode : ChainMode) : (root.get key mode).Uses Request.IsLookUp := by
  refine .bindOf (Store.openAt_uses root.path .shared) (Store.openAt_fresh root.path .shared)
    fun opened hopened => ?_
  split
  · exact .pure _
  · next s => exact .bind (Store.close_uses_clean (hopened s rfl).2) fun _ => .pure _

theorem openAt_uses_files (mode : LockMode) : (Store.openAt root.path mode).Uses Request.IsOfFile :=
  (Store.openAt_uses root.path mode).mono fun _ => .inl

theorem set_uses (parent : Key) (target : LinkTarget) (source : RandomSource) :
    (root.set parent target source).Uses Request.IsOfFile := by
  refine .bind (root.openAt_uses_files .exclusive) fun opened => ?_
  split
  · exact .pure _
  · split <;> exact .bind (finish_uses _ _) fun _ => .pure _

theorem delete_uses (key : Key) (scope : DeleteScope) : (root.delete key scope).Uses Request.IsOfFile := by
  refine .bind (root.openAt_uses_files .exclusive) fun opened => ?_
  split
  · exact .pure _
  · split
    · exact finish_uses _ _
    · refine .bind (finish_uses _ _) fun finished => ?_
      split <;> exact .pure _

theorem injectIn_uses (range : DecoyRange) (source : RandomSource) :
    (root.injectIn range source).Uses Request.IsOfFile := by
  unfold injectIn
  split
  · exact .pure _
  · refine .bind (root.openAt_uses_files .exclusive) fun opened => ?_
    split
    · exact .pure _
    · exact .bind (finish_uses _ _) fun _ => .pure _

end Root

namespace VaultKeyring

theorem connect_uses (root : String) : (connect root).Uses Request.IsOfVault := by
  refine .bind (.request trivial) fun opened => ?_
  split
  · exact .pure _
  · refine .bind (.request trivial) fun got => ?_
    split
    · exact .pure _
    · exact .pure _
    · split <;> exact .pure _

theorem commit_uses (v : VaultKeyring) (changed : Except KeychainError Keyring) :
    (v.commit changed).Uses Request.IsOfVault := by
  have hsave : ∀ v : VaultKeyring, v.save.Uses Request.IsOfVault := by
    intro v
    unfold save
    split
    · refine .bind (.request trivial) fun deleted => ?_
      split <;> exact .pure _
    · refine .bind (.request trivial) fun stored => ?_
      split <;> exact .pure _
  unfold commit
  split
  · exact .pure _
  · exact .bind (hsave _) fun _ => .pure _

theorem install_uses (v : VaultKeyring) (chain : Chain) : (v.install chain).Uses Request.IsOfVault := by
  have hkeys : ∀ (keys : List Key) (v : VaultKeyring), ((installKeys adding keys).run v).Uses Request.IsOfVault := by
    intro keys
    induction keys with
    | nil => exact fun v => .pure _
    | cons key rest ih =>
      intro v
      refine .bind (v.commit_uses (v.keyring.add key)) fun added => ?_
      obtain ⟨result, v'⟩ := added
      cases result with
      | error e => exact .pure _
      | ok _ => exact ih v'
  refine .bind (hkeys chain.keys v) fun installed => ?_
  obtain ⟨result, v'⟩ := installed
  cases result <;> exact .pure _

theorem uninstall_uses (v : VaultKeyring) (chain : Chain) : (v.uninstall chain).Uses Request.IsOfVault := by
  have hkeys : ∀ (keys : List Key) (v : VaultKeyring), ((removeKeys removing keys).run v).Uses Request.IsOfVault := by
    intro keys
    induction keys with
    | nil => exact fun v => .pure _
    | cons key rest ih =>
      intro v
      refine .bind (v.commit_uses (v.keyring.remove key)) fun removed => ?_
      obtain ⟨result, v'⟩ := removed
      refine .bind (ih v') fun failures => ?_
      cases result <;> exact .pure _
  exact hkeys chain.keys v

end VaultKeyring

end KeyChain
