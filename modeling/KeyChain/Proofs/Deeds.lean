import KeyChain.Decoy
import KeyChain.Proofs.AddLink
/-! Operations on a store that is open, as data. Whatever is done to a store goes through filling an empty slot
   and emptying a slot, and no operation does both.

   1. `insert_ok`, `remove_ok`: what filling and emptying do;
   2. `after_induction`: what filling and emptying keep, every operation keeps, whether it succeeds or fails;
   3. `after_edited`: so an operation touches only the links, and marks that it did. -/
namespace KeyChain

namespace DeleteScope

/-- The part of what lies along a chain that a deletion is about. -/
def part {α : Type} : DeleteScope → List α → List α
  | .first, along => along.take 1
  | .full, along => along

end DeleteScope

namespace Chain

/-- The identifiers along a chain. -/
def ids (c : Chain) : List KeyId := c.keys.map Key.id

end Chain

/-- An operation on a store that is open. -/
inductive Deed where
  | insert (id : KeyId) (record : Record)
  | remove (id : KeyId)
  | insertLink (parent child : Key) (source : RandomSource)
  | addLink (parent : Key) (target : LinkTarget) (source : RandomSource)
  | deleteLink (parent : Key) (required : Bool)
  | deleteChain (chain : Chain) (scope : DeleteScope)
  | inject (count : Nat) (source : RandomSource)

/-- The slots that an operation is to empty. -/
def Deed.empties : Deed → List KeyId
  | .remove id => [id]
  | .deleteLink parent _ => [parent.id]
  | .deleteChain chain scope => scope.part chain.ids
  | _ => []

namespace Store

variable {s s' t t' : Store}

/-! What operations leave alone. -/

/-- Whether a store is another after an operation: only the links may differ, and not without a mark that
    there are changes to write. -/
structure Edited (s t : Store) : Prop where
  path : t.path = s.path
  mode : t.mode = s.mode
  lock : t.lock = s.lock
  marked : t.dirty = true ∨ t.dirty = s.dirty ∧ t.links = s.links

theorem Edited.refl (s : Store) : s.Edited s := ⟨rfl, rfl, rfl, .inr ⟨rfl, rfl⟩⟩

theorem Edited.trans {u : Store} (h : s.Edited t) (h' : t.Edited u) : s.Edited u := by
  refine ⟨h'.path.trans h.path, h'.mode.trans h.mode, h'.lock.trans h.lock, ?_⟩
  rcases h'.marked with hdirty | ⟨hdirty, hlinks⟩
  · exact .inl hdirty
  · rw [hdirty, hlinks]
    exact h.marked

theorem Edited.links_eq (h : s.Edited t) (hclean : t.dirty = false) : t.links = s.links := by
  rcases h.marked with hdirty | ⟨-, hlinks⟩
  · cases hclean.symm.trans hdirty
  · exact hlinks

/-! Filling and emptying. -/

/-- Filling a slot takes an exclusive store and an empty slot, and marks that there are changes. -/
theorem insert_ok {id : KeyId} {record : Record} (h : s.insert id record = .ok (true, s')) :
    s.mode = .exclusive ∧ s.links.get? id = none ∧
      s' = { s with links := s.links.insert id record, dirty := true } := by
  unfold insert ensureWritable lookup? at h
  cases hmode : s.mode with
  | shared => simp only [hmode] at h; cases h
  | exclusive =>
    cases hslot : s.links.get? id with
    | some old => simp only [hmode, hslot] at h; cases h
    | none =>
      simp only [hmode, hslot] at h
      cases h
      exact ⟨rfl, rfl, rfl⟩

/-- Emptying a slot takes an exclusive store. A slot that is empty already is left alone. -/
theorem remove_ok {id : KeyId} {found : Option Record} (h : s.remove id = .ok (found, s')) :
    s.mode = .exclusive ∧ found = s.links.get? id ∧
      s' = if found = none then s else { s with links := s.links.erase id, dirty := true } := by
  unfold remove ensureWritable lookup? at h
  cases hmode : s.mode with
  | shared => simp only [hmode] at h; cases h
  | exclusive =>
    cases hslot : s.links.get? id with
    | some old =>
      simp only [hmode, hslot] at h
      cases h
      exact ⟨rfl, rfl, rfl⟩
    | none =>
      simp only [hmode, hslot] at h
      cases h
      exact ⟨rfl, rfl, rfl⟩

/-- Whether the slot was empty before or not, it is empty now, and the others are as they were. -/
theorem get?_remove {id : KeyId} {found : Option Record} (h : s.remove id = .ok (found, s')) (id' : KeyId) :
    s'.links.get? id' = if id' = id then none else s.links.get? id' := by
  obtain ⟨-, hfound, rfl⟩ := remove_ok h
  by_cases hnone : found = none
  · rw [if_pos hnone]
    split
    · next hid => rw [hid, ← hfound, hnone]
    · rfl
  · rw [if_neg hnone]
    dsimp only
    rw [OrderedMap.get?_erase]
    simp only [Std.LawfulEqCmp.compare_eq_iff_eq, @eq_comm _ id]

theorem get?_insert_ok {id : KeyId} {record : Record} (h : s.insert id record = .ok (true, s')) (id' : KeyId) :
    s'.links.get? id' = if id' = id then some record else s.links.get? id' := by
  obtain ⟨-, -, rfl⟩ := insert_ok h
  dsimp only
  rw [OrderedMap.get?_insert]
  simp only [Std.LawfulEqCmp.compare_eq_iff_eq]

/-- In place, a removal that fails leaves the whole store as it is. -/
theorem deleteLinkOn_eq (s : Store) (parent : Key) (required : Bool) :
    s.deleteLinkOn parent required =
      match s.deleteLink parent required with
      | .ok (found, s') => (.ok found, s')
      | .error e => (.error e, s) := by
  rw [deleteLink_eq]
  unfold deleteLinkOn removeOn
  cases hremove : s.remove parent.id with
  | error e => rfl
  | ok outcome =>
    obtain ⟨found, s'⟩ := outcome
    cases found with
    | some record => rfl
    | none =>
      obtain rfl : s' = s := (remove_ok hremove).2.2
      cases required <;> rfl

/-- One decoy is drawn. If it is added, it goes in front of those that are still to be. -/
theorem addDecoys_succ (count spare : Nat) (s : Store) (source : RandomSource) :
    let parent := Key.random .invalid source
    let child := Key.random .invalid parent.2
    addDecoys (count + 1) spare s source =
      match s.insertLink parent.1 child.1 child.2 with
      | (.ok s, source) =>
        let (result, s, source) := addDecoys count spare s source
        (result.map fun added => (parent.1.id, child.1.id) :: added, s, source)
      | (.error (.chainExists p c), source) =>
        match spare with
        | 0 => (.error (.chainExists p c), s, source)
        | spare + 1 => addDecoys (count + 1) spare s source
      | (.error e, source) => (.error e, s, source) := by
  rw [addDecoys]
  dsimp only
  cases s.insertLink _ _ _ with
  | mk result source =>
    cases result with
    | error e => cases e <;> rfl
    | ok s =>
      dsimp only
      cases addDecoys count spare s source with
      | mk result after => cases result <;> rfl

/-! Operations. -/

/-- The store after an operation, whether that succeeded or failed. -/
def after (s : Store) : Deed → Store
  | .insert id record => (s.insertOn id record).2
  | .remove id => (s.removeOn id).2
  | .insertLink parent child source => (s.insertLinkOn parent child source).2.1
  | .addLink parent target source => (s.addLinkOn parent target source).2.1
  | .deleteLink parent required => (s.deleteLinkOn parent required).2
  | .deleteChain chain scope => (s.deleteChain chain scope).2
  | .inject count source => (s.inject count source).2.1

section Induction

variable {P : Store → Prop}

theorem insertOn_keeps {id : KeyId} {record : Record} (hs : P s)
    (hinsert : ∀ t, s.insert id record = .ok (true, t) → P t) : P (s.insertOn id record).2 := by
  unfold insertOn
  cases h : s.insert id record with
  | error e => exact hs
  | ok outcome =>
    obtain ⟨filled, t⟩ := outcome
    cases filled with
    | true => exact hinsert t h
    | false =>
      obtain rfl := insert_false h
      exact hs

theorem removeOn_keeps {id : KeyId} (hs : P s)
    (hremove : ∀ found t, s.remove id = .ok (found, t) → P t) : P (s.removeOn id).2 := by
  unfold removeOn
  cases h : s.remove id with
  | error e => exact hs
  | ok outcome => exact hremove outcome.1 outcome.2 h

theorem insertLinkOn_store (s : Store) (parent child : Key) (source : RandomSource) :
    (s.insertLinkOn parent child source).2.1 =
      (s.insertOn parent.id (Link.encrypt parent child source).1).2 := by
  unfold insertLinkOn
  cases h : s.insertOn parent.id (Link.encrypt parent child source).1 with
  | mk result t =>
    cases result with
    | error e => simp only [h]
    | ok filled => cases filled <;> simp only [h]

theorem deleteLinkOn_store (s : Store) (parent : Key) (required : Bool) :
    (s.deleteLinkOn parent required).2 = (s.removeOn parent.id).2 := by
  unfold deleteLinkOn
  cases s.removeOn parent.id with
  | mk result t =>
    cases result with
    | error e => rfl
    | ok found =>
      cases found with
      | some record => rfl
      | none => cases required <;> rfl

/-- Linking fills one slot, or leaves the store alone. -/
theorem addLinkOn_store (s : Store) (parent : Key) (target : LinkTarget) (source : RandomSource) :
    (s.addLinkOn parent target source).2.1 = s ∨
      ∃ record, (s.addLinkOn parent target source).2.1 = (s.insertOn parent.id record).2 := by
  unfold addLinkOn
  cases Chain.resolve s.links parent .ignoreMissing with
  | error e => exact .inl rfl
  | ok chain =>
    cases hchoose : chooseChild chain target source with
    | mk chosen source' =>
      cases chosen with
      | error e => exact .inl (by simp only [hchoose])
      | ok child =>
        cases hrest : chain.rest with
        | cons second _ => exact .inl (by simp only [hchoose, hrest])
        | nil => exact .inr ⟨_, by simp only [hchoose, hrest]; exact insertLinkOn_store ..⟩

theorem deleteLinks_keeps (scope : DeleteScope) {s : Store} {keys : List Key} (hs : P s)
    (hremove : ∀ id ∈ scope.part (keys.map Key.id), ∀ t t' found, P t → t.remove id = .ok (found, t') → P t') :
    P (deleteLinks scope s keys).2 := by
  induction keys generalizing s with
  | nil => exact hs
  | cons key rest ih =>
    -- The first key is in either part; what follows is deleted only if all of it is asked for.
    have hkey : key.id ∈ scope.part ((key :: rest).map Key.id) := by cases scope <;> simp [DeleteScope.part]
    unfold deleteLinks
    dsimp only
    have hlink := deleteLinkOn_eq s key (rest.head?.map Key.id).isSome
    have hkept : P (s.deleteLinkOn key (rest.head?.map Key.id).isSome).2 := by
      rw [deleteLinkOn_store]
      exact removeOn_keeps hs fun found t => hremove key.id hkey s t found hs
    rw [hlink] at hkept
    cases hdelete : s.deleteLink key (rest.head?.map Key.id).isSome with
    | error e => exact hs
    | ok outcome =>
      obtain ⟨found, s₁⟩ := outcome
      rw [hdelete] at hkept
      cases scope with
      | first => exact hkept
      | full =>
        have hrest : P (deleteLinks .full s₁ rest).2 :=
          ih hkept fun id hid => hremove id (List.mem_cons_of_mem _ hid)
        dsimp only
        cases hs₁ : deleteLinks .full s₁ rest with
        | mk result s₂ =>
          rw [hs₁] at hrest
          cases result <;> exact hrest

theorem addDecoys_keeps (count spare : Nat) (s : Store) (source : RandomSource) (hs : P s)
    (hinsert : ∀ t t' id record, P t → t.insert id record = .ok (true, t') → P t') :
    P (addDecoys count spare s source).2.1 := by
  match count with
  | 0 =>
    rw [addDecoys]
    exact hs
  | count + 1 =>
    rw [addDecoys_succ]
    dsimp only
    generalize (Key.random .invalid source).1 = parent
    generalize (Key.random .invalid (Key.random .invalid source).2).1 = child
    generalize (Key.random .invalid (Key.random .invalid source).2).2 = source₁
    -- Whether the draw is added or collides, it is the filling of one slot.
    have hkept : P (s.insertLinkOn parent child source₁).2.1 := by
      rw [insertLinkOn_store]
      exact insertOn_keeps hs fun t => hinsert s t _ _ hs
    rw [insertLinkOn_eq] at hkept
    cases hlink : s.insertLink parent child source₁ with
    | mk result source' =>
      rw [hlink] at hkept
      cases result with
      | ok s' => exact addDecoys_keeps count spare s' source' hkept hinsert
      | error e =>
        cases e with
        | chainExists p c =>
          match spare with
          | 0 => exact hs
          | spare + 1 => exact addDecoys_keeps (count + 1) spare s source' hs hinsert
        | _ => exact hs
termination_by (count, spare)

/-- What filling and emptying keep, every operation keeps; and none both fills and empties. -/
theorem after_induction (d : Deed) (hs : P s)
    (hinsert : d.empties = [] → ∀ t t' id record, P t → t.insert id record = .ok (true, t') → P t')
    (hremove : ∀ id ∈ d.empties, ∀ t t' found, P t → t.remove id = .ok (found, t') → P t') :
    P (s.after d) := by
  cases d with
  | insert id record => exact insertOn_keeps hs fun t => hinsert rfl s t id record hs
  | remove id => exact removeOn_keeps hs fun found t => hremove id (List.mem_singleton_self id) s t found hs
  | insertLink parent child source =>
    rw [after, insertLinkOn_store]
    exact insertOn_keeps hs fun t => hinsert rfl s t _ _ hs
  | addLink parent target source =>
    rw [after]
    rcases addLinkOn_store s parent target source with hsame | ⟨record, hfilled⟩
    · rw [hsame]
      exact hs
    · rw [hfilled]
      exact insertOn_keeps hs fun t => hinsert rfl s t _ record hs
  | deleteLink parent required =>
    rw [after, deleteLinkOn_store]
    exact removeOn_keeps hs fun found t => hremove _ (List.mem_singleton_self _) s t found hs
  | deleteChain chain scope => exact deleteLinks_keeps scope hs hremove
  | inject count source =>
    rw [after, inject]
    split
    · exact hs
    · exact addDecoys_keeps count maxCollisions s source hs (hinsert rfl)

end Induction

/-- An operation touches only the links, and marks that it did. -/
theorem after_edited (s : Store) (d : Deed) : s.Edited (s.after d) := by
  refine after_induction d (.refl s) (fun _ t t' id record ht h => ?_) (fun id _ t t' found ht h => ?_)
  · obtain ⟨-, -, rfl⟩ := insert_ok h
    exact ht.trans ⟨rfl, rfl, rfl, .inl rfl⟩
  · obtain ⟨-, -, rfl⟩ := remove_ok h
    split
    · exact ht
    · exact ht.trans ⟨rfl, rfl, rfl, .inl rfl⟩

/-- No operation changes a store that is open for look-ups. -/
theorem after_shared (hs : s.mode = .shared) (d : Deed) : s.after d = s := by
  refine after_induction (P := fun t => t = s) d rfl (fun _ t t' id record ht h => ?_)
    (fun id _ t t' found ht h => ?_)
  · rw [← ht, (insert_ok h).1] at hs
    cases hs
  · rw [← ht, (remove_ok h).1] at hs
    cases hs

end Store

end KeyChain
