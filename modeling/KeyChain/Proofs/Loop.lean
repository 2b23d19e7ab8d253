import KeyChain.Chain.Edit
import KeyChain.Proofs.Walk
/-! Loops. No chain of the links may come back to an identifier that it has passed (`LoopFree`).

   1. `loopFree_insert_iff`: a new link in an empty slot keeps links free of loops exactly if it does
      not close one (`Closes`). A loop that it closes runs over the new link once, so it is found in
      the old links: a walk comes to the owner of the slot, and a walk from the child comes back;
   2. `loopFree_of_emptied`: emptying slots closes no loop. -/
namespace KeyChain

namespace Chain

variable {links links' : Links} {id : KeyId} {record : Record}

/-- Whether no chain loops, whatever its first key. -/
def LoopFree (links : Links) : Prop :=
  ∀ root mode last back, resolve links root mode ≠ .error (.corrupted (.loop last back))

/-- A record for the slot of an identifier closes a loop over links: a walk comes to an owner of the slot,
    who reads a child in the record, and a walk from the child comes back to an identifier of the
    first. -/
def Closes (links : Links) (id : KeyId) (record : Record) : Prop :=
  ∃ root before owner child onward back,
    Walk links root before owner ∧ owner.id = id ∧
    Link.decrypt owner record.bytes = .ok child ∧ child.isTerminal = false ∧
    Walk links child onward back ∧ back.id ∈ (before ++ [owner]).map Key.id

/-- A walk keeps clear of a list of identifiers, or there is a first time that it does not. -/
theorem Walk.clear_or_first {root tail : Key} {before : List Key} (ids : List KeyId)
    (h : Walk links root before tail) :
    (∀ k ∈ before ++ [tail], k.id ∉ ids) ∨
    ∃ first k, Walk links root first k ∧ k.id ∈ ids ∧ ∀ k' ∈ first, k'.id ∉ ids := by
  induction h with
  | start =>
    by_cases hroot : root.id ∈ ids
    · exact .inr ⟨[], root, .start, hroot, fun k hk => (by cases hk)⟩
    · refine .inl fun k hk => ?_
      obtain rfl := List.mem_singleton.1 hk
      exact hroot
  | @hop before tail child walk leads fresh ih =>
    rcases ih with hclear | hfirst
    · by_cases hchild : child.id ∈ ids
      · exact .inr ⟨before ++ [tail], child, walk.hop leads fresh, hchild, hclear⟩
      · refine .inl fun k hk => ?_
        rcases List.mem_append.1 hk with hk | hk
        · exact hclear k hk
        · obtain rfl := List.mem_singleton.1 hk
          exact hchild
    · exact .inr hfirst

/-! Filling an empty slot. -/

/-- A loop at the end of a walk. -/
theorem not_loopFree {root tail child : Key} {before : List Key} (walk : Walk links root before tail)
    (leads : opening links tail = .leads child) (back : child.id ∈ (before ++ [tail]).map Key.id) :
    ¬ LoopFree links := fun hfree =>
  hfree root .ignoreMissing tail.id child.id
    (resolve_loop_iff.2 ⟨before, tail, child, walk, leads, back, rfl, rfl⟩)

/-- A loop that the new link closes is there once the link is. -/
theorem not_loopFree_of_closes (h : Closes links id record) : ¬ LoopFree (links.insert id record) := by
  obtain ⟨root, before, owner, child, onward, back, walk, rfl, hdecrypt, hchild, hback, hmem⟩ := h
  have hsame : ∀ k : Key, k.id ≠ owner.id → (links.insert owner.id record).get? k.id = links.get? k.id :=
    fun k hk => get?_insert_ne hk links record
  have hwalk := walk.congr fun k hk => hsame k (walk.ne_of_mem hk)
  have hleads : opening (links.insert owner.id record) owner = .leads child :=
    opening_eq_leads.2 ⟨record, get?_insert_self .., hdecrypt, hchild⟩
  -- The loop is closed the first time that the walk from the child is back on the walk to the owner.
  obtain ⟨first, k, hfirst, hk, hclear⟩ :
      ∃ first k, Walk links child first k ∧ k.id ∈ (before ++ [owner]).map Key.id ∧
        ∀ k' ∈ first, k'.id ∉ (before ++ [owner]).map Key.id := by
    rcases hback.clear_or_first ((before ++ [owner]).map Key.id) with hclear | hfirst
    · exact absurd hmem (hclear back (by simp))
    · exact hfirst
  have howner : ∀ k' ∈ first, k'.id ≠ owner.id := by
    intro k' hk' he
    exact hclear k' hk' (he ▸ List.mem_map_of_mem (by simp))
  have hfirst' := hfirst.congr fun k' hk' => hsame k' (howner k' hk')
  cases hfirst' with
  | start => exact not_loopFree hwalk hleads hk
  | @hop onward tail _ walk' leads' fresh' =>
    have hlong := hwalk.append hleads walk' hclear
    refine not_loopFree hlong leads' ?_
    rw [show (before ++ owner :: onward) ++ [tail] = (before ++ [owner]) ++ (onward ++ [tail]) by simp,
      List.map_append]
    exact List.mem_append_left _ hk

/-- A loop of the new links that no chain of the old links has is closed by the new link. -/
theorem closes_of_not_loopFree (hempty : links.get? id = none) (hfree : LoopFree links)
    (h : ¬ LoopFree (links.insert id record)) : Closes links id record := by
  have hsame : ∀ k : Key, k.id ≠ id → links.get? k.id = (links.insert id record).get? k.id :=
    fun k hk => (get?_insert_ne hk links record).symm
  apply Classical.byContradiction
  intro hopen
  refine h fun root mode last back hloop => ?_
  obtain ⟨before, tail, child, walk, leads, hback, -, -⟩ := resolve_loop_iff.1 hloop
  by_cases htail : tail.id = id
  · obtain ⟨record', hrecord, hdecrypt, hchild⟩ := opening_eq_leads.1 leads
    rw [htail, get?_insert_self] at hrecord
    cases hrecord
    have hwalk := walk.congr fun k hk => hsame k (htail ▸ walk.ne_of_mem hk)
    exact hopen ⟨root, before, tail, child, [], child, hwalk, htail, hdecrypt, hchild, .start, hback⟩
  · have hleads : opening links tail = .leads child := by
      rw [opening_congr (hsame tail htail)]
      exact leads
    by_cases howner : ∃ owner ∈ before, owner.id = id
    · obtain ⟨owner, howner, rfl⟩ := howner
      obtain ⟨first, onward, next, rfl, hfirst, hnext, honward⟩ := walk.split howner
      obtain ⟨record', hrecord, hdecrypt, hterminal⟩ := opening_eq_leads.1 hnext
      rw [get?_insert_self] at hrecord
      cases hrecord
      have hnodup := walk.nodup
      have hne : ∀ k ∈ onward, k.id ≠ owner.id := by
        intro k hk he
        simp only [List.map_append, List.map_cons, List.append_assoc, List.cons_append,
          List.nodup_append, List.nodup_cons] at hnodup
        exact hnodup.2.1.1 (List.mem_append_left _ (he ▸ List.mem_map_of_mem hk))
      have hfirst' := hfirst.congr fun k hk => hsame k (hfirst.ne_of_mem hk)
      have honward' := honward.congr fun k hk => hsame k (hne k hk)
      -- Either the loop is behind the new link, and the old links have it, or the new link closes it.
      by_cases hbehind : child.id ∈ (onward ++ [tail]).map Key.id
      · exact not_loopFree honward' hleads hbehind hfree
      · refine hopen ⟨root, first, owner, next, onward ++ [tail], child, hfirst', rfl, hdecrypt, hterminal,
          honward'.hop hleads hbehind, ?_⟩
        rw [show first ++ owner :: onward ++ [tail] = (first ++ [owner]) ++ (onward ++ [tail]) by simp,
          List.map_append, List.mem_append] at hback
        exact hback.resolve_right hbehind
    · have hwalk := walk.congr fun k hk => hsame k fun he => howner ⟨k, hk, he⟩
      exact not_loopFree hwalk hleads hback hfree

/-- A new link keeps links free of loops exactly if it does not close one. -/
theorem loopFree_insert_iff (hempty : links.get? id = none) (hfree : LoopFree links) :
    LoopFree (links.insert id record) ↔ ¬ Closes links id record := by
  constructor
  · intro h hcloses
    exact not_loopFree_of_closes hcloses h
  · intro h
    apply Classical.byContradiction
    intro hloop
    exact h (closes_of_not_loopFree hempty hfree hloop)

/-! Emptying slots. -/

theorem loopFree_empty : LoopFree OrderedMap.empty := by
  intro root mode last back hloop
  obtain ⟨before, tail, child, -, leads, -, -, -⟩ := resolve_loop_iff.1 hloop
  rw [opening_eq_empty.2 (OrderedMap.get?_empty tail.id)] at leads
  cases leads

/-- Links that lack some of the slots of others have no loop that those do not have. -/
theorem loopFree_of_emptied (hfree : LoopFree links)
    (h : ∀ id, links'.get? id = none ∨ links'.get? id = links.get? id) : LoopFree links' := by
  intro root mode last back hloop
  obtain ⟨before, tail, child, walk, leads, hback, -, -⟩ := resolve_loop_iff.1 hloop
  -- The keys of the walk own slots of the fewer links, which hold what they held before.
  have hwalk := walk.congr fun k hk => ((h k.id).resolve_left (walk.occupied k hk)).symm
  have htail : links'.get? tail.id ≠ none := by
    intro hnone
    rw [opening_eq_empty.2 hnone] at leads
    cases leads
  have hleads : opening links tail = .leads child := by
    rw [opening_congr ((h tail.id).resolve_left htail).symm]
    exact leads
  exact not_loopFree hwalk hleads hback hfree

end Chain

end KeyChain
