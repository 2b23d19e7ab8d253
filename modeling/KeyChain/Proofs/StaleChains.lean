import KeyChain.Proofs.DeleteCalls
/-! Deleting a chain that was resolved some time ago. Its keys have distinct identifiers still, but links of it may be
   gone.

   1. `deleteLinks_stops`: links are deleted up to the first that is missing;
   2. `deleteChain_stale`: so a chain is deleted whole, or up to the first of its keys that owns no link. -/
namespace KeyChain

namespace Store

variable {s : Store} {key : Key} {before after : List Key}

/-- A key that is not the last must own a link. If it does not, nothing is deleted for it or behind it. -/
theorem deleteLinks_missing (scope : DeleteScope) (hmode : s.mode = .exclusive) (hafter : after ≠ [])
    (hmissing : s.links.get? key.id = none) :
    deleteLinks scope s (key :: after) = (.error (.notFound key.id), s) := by
  obtain ⟨next, more, rfl⟩ := List.exists_cons_of_ne_nil hafter
  have hremove : s.remove key.id = .ok (none, s) := by
    rw [remove, ensureWritable, hmode]
    simp only [lookup?, hmissing]
  have hdelete : s.deleteLink key true = .error (.notFound key.id) := by rw [deleteLink_eq, hremove]; rfl
  rw [deleteLinks]
  simp only [List.head?_cons, Option.map_some, Option.isSome_some, hdelete]

/-- Links are deleted up to the first that is missing, and stay deleted. -/
theorem deleteLinks_stops (hmode : s.mode = .exclusive) (hnodup : (before.map Key.id).Nodup)
    (howned : ∀ k ∈ before, s.links.get? k.id ≠ none) (hafter : after ≠ [])
    (hmissing : s.links.get? key.id = none) :
    ∃ s', deleteLinks .full s (before ++ key :: after) = (.error (.notFound key.id), s') ∧
      ∀ id, s'.links.get? id = if id ∈ before.map Key.id then none else s.links.get? id := by
  induction before generalizing s with
  | nil => exact ⟨s, deleteLinks_missing .full hmode hafter hmissing, fun id => by simp⟩
  | cons first before ih =>
    obtain ⟨hfirst, howned⟩ := List.forall_mem_cons.1 howned
    rw [List.map_cons, List.nodup_cons] at hnodup
    obtain ⟨s₁, hmode₁, hslots₁, -, hmore⟩ := @deleteLinks_cons s first (before ++ key :: after) hmode fun _ => hfirst
    have howned₁ : ∀ k ∈ before, s₁.links.get? k.id ≠ none := by
      intro k hk
      rw [get?_emptied hslots₁ hnodup.1 k hk]
      exact howned k hk
    have hmissing₁ : s₁.links.get? key.id = none := by rw [hslots₁, hmissing, ite_self]
    obtain ⟨s', hrest, hslots⟩ := ih hmode₁ hnodup.2 howned₁ hmissing₁
    refine ⟨s', hmore _ _ hrest, fun id => ?_⟩
    rw [hslots, hslots₁, List.map_cons]
    simp only [List.mem_cons]
    by_cases hid : id = first.id <;> simp [hid]

/-- Deleting a chain that may have been resolved long ago, from whatever links. All of it is deleted, and reported hop
    by hop, if all of its keys but the last still own a link. If not, the deletion stops at the first key that does
    not, which is not found, and exactly the links of the keys before it are gone. With the smaller scope only the
    first key is looked at. -/
theorem deleteChain_stale {c : Chain} (hexclusive : s.mode = .exclusive) (hc : c.IsMade) :
    ((∀ k ∈ c.keys.dropLast, s.links.get? k.id ≠ none) →
      ∃ s', s.deleteChain c .full = (.ok (hopsOf c.ids), s') ∧
        ∀ id, s'.links.get? id = if id ∈ c.ids then none else s.links.get? id) ∧
    (∀ before key after, c.keys = before ++ key :: after → after ≠ [] → s.links.get? key.id = none →
      (∀ k ∈ before, s.links.get? k.id ≠ none) →
      ∃ s', s.deleteChain c .full = (.error (.notFound key.id), s') ∧
        ∀ id, s'.links.get? id = if id ∈ before.map Key.id then none else s.links.get? id) ∧
    (c.rest ≠ [] ∧ s.links.get? c.root.id = none →
      s.deleteChain c .first = (.error (.notFound c.root.id), s)) ∧
    (¬ (c.rest ≠ [] ∧ s.links.get? c.root.id = none) →
      ∃ s', s.deleteChain c .first = (.ok [⟨c.root.id, c.rest.head?.map Key.id⟩], s') ∧
        ∀ id, s'.links.get? id = if id = c.root.id then none else s.links.get? id) := by
  have hdistinct := hc.distinct
  refine ⟨deleteLinks_ok .full hexclusive hdistinct, ?_, ?_, ?_⟩
  · intro before key after hkeys hafter hmissing howned
    rw [hkeys, List.map_append] at hdistinct
    rw [deleteChain, hkeys]
    exact deleteLinks_stops hexclusive (List.nodup_append.1 hdistinct).1 howned hafter hmissing
  · intro h
    exact deleteLinks_missing .first hexclusive h.1 h.2
  · intro h
    obtain ⟨s', -, hslot, hdelete, -⟩ := @deleteLinks_cons s c.root c.rest hexclusive fun hrest hmissing =>
      h ⟨hrest, hmissing⟩
    exact ⟨s', hdelete, hslot⟩

/-- A chain of two whose first link is gone. Whatever the second key owns stays. -/
theorem deleteChain_stale_first :
    let b := Key.ofSecret .aes256Xts (.zero secretSize)
    let a : Key := { b with id := ⟨b.id.value + 1⟩ }
    let chain : Chain := ⟨a, [b]⟩
    let s : Store := ⟨pathFor ⟨"/"⟩, OrderedMap.empty.insert b.id (.zero recordSize), false, .exclusive, none⟩
    s.mode = .exclusive ∧ chain.IsMade ∧ s.links.get? a.id = none ∧
      (∃ s', s.deleteChain chain .full = (.error (.notFound a.id), s') ∧
        s'.links.get? b.id = some (.zero recordSize)) ∧
      s.deleteChain chain .first = (.error (.notFound a.id), s) := by
  intro b a chain s
  have hsound : b.Sound := Key.sound_ofSecret _ _
  have hindex : b.index = none := Key.index_ofSecret _ _
  have hcipher : b.isTerminal = false := Key.isTerminal_ofSecret _ _
  clear_value b
  have hab : a.id ≠ b.id := fun h => absurd (congrArg KeyId.value h) (by simp [a])
  have hmade : chain.IsMade := Chain.isMade_pair hab hsound hindex hcipher
  have hmissing : s.links.get? a.id = none := (Chain.get?_insert_ne hab _ _).trans (OrderedMap.get?_empty _)
  obtain ⟨-, hstops, hfirst, -⟩ := deleteChain_stale (s := s) rfl hmade
  obtain ⟨s', hdelete, hslots⟩ := hstops [] a [b] rfl (List.cons_ne_nil _ _) hmissing nofun
  refine ⟨rfl, hmade, hmissing, ⟨s', hdelete, ?_⟩, hfirst ⟨List.cons_ne_nil _ _, hmissing⟩⟩
  rw [hslots, List.map_nil, if_neg List.not_mem_nil]
  exact Chain.get?_insert_self _ _ _

end Store

end KeyChain
