import KeyChain.Proofs.WriteOnce
/-! Resolution is local: it looks at the slots of the keys that it comes to, and at no others.

   1. `resolve_congr`: links that hold the same in the slots of a chain have that chain;
   2. `resolve_kept`: all but the last key of a chain own a link, and an occupied slot cannot be filled. So
      the chain is kept if none of its links is removed and the slot of its last key is not filled;
   3. `resolve_afterAll`: no run of operations that keeps to this changes the chain, whatever decoys and
      links of other chains it adds and removes. -/
namespace KeyChain

namespace Chain

variable {links links' : Links} {root : Key} {mode : ChainMode} {c : Chain}

/-- The key that a chain ends with. -/
def last (c : Chain) : Key := c.rest.getLastD c.root

theorem last_eq {before : List Key} {tail : Key} (h : c.keys = before ++ [tail]) : c.last = tail := by
  have hlast := congrArg List.getLast? h
  rw [keys, List.getLast?_cons, List.getLast?_concat] at hlast
  rw [last, List.getLastD_eq_getLast?]
  exact Option.some.inj hlast

/-- Links that hold the same in the slots of a chain have that chain. -/
theorem resolve_congr (h : resolve links root mode = .ok c)
    (same : ∀ k ∈ c.keys, links'.get? k.id = links.get? k.id) : resolve links' root mode = .ok c := by
  obtain ⟨hmode, before, tail, walk, hkeys, hend⟩ := resolve_ok_iff.1 h
  rw [hkeys] at same
  have htail : opening links' tail = opening links tail := opening_congr (same tail (by simp))
  have hroot : links'.get? root.id = links.get? root.id := by
    have hmem : root ∈ before ++ [tail] := List.mem_of_head? walk.head?_eq
    exact same root hmem
  refine resolve_ok_iff.2 ⟨hroot ▸ hmode, before, tail, ?_, hkeys, htail ▸ hend⟩
  exact walk.congr fun k hk => same k (List.mem_append_left _ hk)

/-- A key of a chain is the last, or owns a link. -/
theorem occupied_of_mem (h : resolve links root mode = .ok c) {k : Key} (hk : k ∈ c.keys) :
    k = c.last ∨ ∃ record, links.get? k.id = some record := by
  obtain ⟨-, before, tail, walk, hkeys, -⟩ := resolve_ok_iff.1 h
  rw [hkeys] at hk
  rcases List.mem_append.1 hk with hk | hk
  · exact .inr (Option.ne_none_iff_exists'.1 (walk.occupied k hk))
  · rw [last_eq hkeys]
    exact .inl (List.mem_singleton.1 hk)

/-- A chain is kept if its links stay and nothing comes into the slot of its last key. -/
theorem resolve_kept (h : resolve links root mode = .ok c)
    (kept : ∀ id ∈ c.ids, ∀ record, links.get? id = some record → links'.get? id = some record)
    (hlast : links'.get? c.last.id = links.get? c.last.id) : resolve links' root mode = .ok c := by
  refine resolve_congr h fun k hk => ?_
  rcases occupied_of_mem h hk with rfl | ⟨record, hslot⟩
  · exact hlast
  · rw [hslot]
    exact kept k.id (List.mem_map_of_mem hk) record hslot

end Chain

namespace OrderedMap

variable {κ ν : Type} [Ord κ] [Std.TransOrd κ] [Std.LawfulEqOrd κ]

theorem get?_foldl_erase (ks : List κ) (m : OrderedMap κ ν) {k : κ} (h : k ∉ ks) :
    (ks.foldl erase m).get? k = m.get? k := by
  induction ks generalizing m with
  | nil => rfl
  | cons k' ks ih =>
    rw [List.mem_cons, not_or] at h
    rw [List.foldl_cons, ih _ h.2, get?_erase, if_neg]
    exact fun he => h.1 (Std.LawfulEqCmp.eq_of_compare he).symm

end OrderedMap

namespace Store

open Chain

variable {s : Store} {root : Key} {mode : ChainMode} {c : Chain}

/-- A run of operations keeps a chain, if none of them is to empty a slot of it and the slot of its last key
    is at the end as it was. -/
theorem resolve_afterAll {works : List Work} (h : resolve s.links root mode = .ok c)
    (hspared : ∀ d, .deed d ∈ works → ∀ id ∈ d.empties, id ∉ c.ids)
    (hlast : (s.afterAll works).links.get? c.last.id = s.links.get? c.last.id) :
    resolve (s.afterAll works).links root mode = .ok c := by
  refine resolve_kept h (fun id hid record hslot => ?_) hlast
  apply Classical.byContradiction
  intro hchanged
  -- A slot that is written once changes only where an operation empties it.
  obtain ⟨past, d, onward, rfl, hd, -⟩ := afterAll_slot hslot hchanged
  exact hspared d (List.mem_append_right _ List.mem_cons_self) id hd hid

/-- Filling empty slots and then emptying others keeps a chain, if the slot of its last key is not filled
    and none of its slots is emptied. -/
theorem resolve_refilled {links : Links} (h : resolve links root mode = .ok c) {filled : List (KeyId × Record)}
    {emptied : List KeyId} (hfilled : ∀ e ∈ filled, links.get? e.1 = none ∧ e.1 ≠ c.last.id)
    (hemptied : ∀ id ∈ emptied, id ∉ c.ids) :
    resolve (emptied.foldl OrderedMap.erase (filled.foldl (fun links e => links.insert e.1 e.2) links)) root
      mode = .ok c := by
  refine resolve_congr h fun k hk => ?_
  have hid : k.id ∉ emptied := fun hmem => hemptied _ hmem (List.mem_map_of_mem hk)
  rw [OrderedMap.get?_foldl_erase _ _ hid]
  refine OrderedMap.get?_foldl_insert_of_ne Prod.fst Prod.snd _ _ fun e he hke => ?_
  obtain ⟨hempty, hne⟩ := hfilled e he
  rcases occupied_of_mem h hk with rfl | ⟨record, hslot⟩
  · exact hne hke
  · rw [hke, hslot] at hempty
    cases hempty

/-- Resolution is local. Links that hold the same in the slots of a chain have the same chain. So a chain does
    not change when empty slots are filled, be it with the links of other chains or with decoys, unless the
    slot of its last key is one of them, nor when the links of keys are removed that are not on it. -/
theorem resolve_local (h : resolve s.links root mode = .ok c) :
    (∀ links', (∀ k ∈ c.keys, links'.get? k.id = s.links.get? k.id) → resolve links' root mode = .ok c) ∧
    (∀ (filled : List (KeyId × Record)) (emptied : List KeyId),
      (∀ e ∈ filled, s.links.get? e.1 = none ∧ e.1 ≠ c.last.id) → (∀ id ∈ emptied, id ∉ c.ids) →
      resolve (emptied.foldl OrderedMap.erase (filled.foldl (fun links e => links.insert e.1 e.2) s.links))
        root mode = .ok c) ∧
    (∀ (count : Nat) (source : RandomSource),
      (s.inject count source).2.1.links.get? c.last.id = s.links.get? c.last.id →
      resolve (s.inject count source).2.1.links root mode = .ok c) ∧
    ∀ works : List Work, (∀ d, .deed d ∈ works → ∀ id ∈ d.empties, id ∉ c.ids) →
      (s.afterAll works).links.get? c.last.id = s.links.get? c.last.id →
      resolve (s.afterAll works).links root mode = .ok c := by
  refine ⟨fun links' same => resolve_congr h same, fun filled emptied => resolve_refilled h,
    fun count source hlast => ?_, fun works => resolve_afterAll h⟩
  refine @resolve_afterAll s root mode c [.deed (.inject count source)] h (fun d hd id hid => ?_) hlast
  rw [List.mem_singleton] at hd
  injection hd with hd
  rw [hd] at hid
  cases hid

/-- A sealed chain of two, beside which a link comes and goes and a decoy is added. -/
theorem resolve_local_sealed :
    let b := Key.ofSecret .aes256Xts (.zero secretSize)
    let a : Key := { b with id := ⟨b.id.value + 1⟩ }
    let other : KeyId := ⟨b.id.value + 2⟩
    let record : Record := .zero recordSize
    let closing := Link.encryptWith (.zero 24) b (Key.ofSecret .invalid (.zero secretSize))
    let s : Store := ⟨pathFor ⟨"/"⟩,
      (OrderedMap.empty.insert b.id closing).insert a.id (Link.encryptWith (.zero 24) a b), false, .exclusive, none⟩
    let source : RandomSource := ⟨fun _ => 0, 0⟩
    let works : List Work := [.deed (.insert other record), .deed (.remove other)]
    resolve s.links a .use = .ok ⟨a, [b]⟩ ∧ s.links.get? other = none ∧ other ∉ Chain.ids ⟨a, [b]⟩ ∧
      resolve ((s.links.insert other record).erase other) a .use = .ok ⟨a, [b]⟩ ∧
      resolve (s.inject 1 source).2.1.links a .use = .ok ⟨a, [b]⟩ ∧
      resolve (s.afterAll works).links a .use = .ok ⟨a, [b]⟩ := by
  intro b a other record closing s source works
  have hab : a.id ≠ b.id := fun h => absurd (congrArg KeyId.value h) (by simp [a])
  have hoa : other ≠ a.id := fun h => absurd (congrArg KeyId.value h) (by simp [a, other])
  have hob : other ≠ b.id := fun h => absurd (congrArg KeyId.value h) (by simp [other])
  have hslotb : s.links.get? b.id = some closing := (get?_insert_ne hab.symm _ _).trans (get?_insert_self _ _ _)
  have hslota : s.links.get? a.id = some (Link.encryptWith (.zero 24) a b) := get?_insert_self _ _ _
  have hempty : s.links.get? other = none := (get?_insert_ne hoa _ _).trans (get?_insert_ne hob _ _)
  have hfresh : other ∉ Chain.ids ⟨a, [b]⟩ := by simp [Chain.ids, keys, hoa, hob]
  have hleads : opening s.links a = .leads b :=
    opening_eq_leads.2 ⟨_, hslota, Link.decrypt_encryptWith _ a (Key.sound_ofSecret _ _), rfl⟩
  have hclosed : opening s.links b = .closed := by
    have hdecrypt := Link.decrypt_encryptWith (.zero 24) b (Key.sound_ofSecret .invalid (.zero secretSize))
    exact (opening_of_decrypt hslotb hdecrypt).trans (if_pos rfl)
  have hresolve : resolve s.links a .use = .ok ⟨a, [b]⟩ := by
    refine resolve_ok_iff.2 ⟨fun h => ?_, [a], b, Walk.hop .start hleads (by simpa using hab.symm), rfl, .inr hclosed⟩
    rw [hslota] at h
    cases h.2
  have hspared : ∀ d, .deed d ∈ works → ∀ id ∈ d.empties, id = other := by
    intro d hd id hid
    have hcases : d = .insert other record ∨ d = .remove other := by simpa [works] using hd
    rcases hcases with rfl | rfl
    · cases hid
    · exact List.mem_singleton.1 hid
  -- The slot of the last key is occupied, so whatever is drawn goes elsewhere.
  have hdrawn : (s.inject 1 source).2.1.links.get? b.id = s.links.get? b.id := by
    rcases after_slot s (.inject 1 source) b.id with hsame | hnone | ⟨hmem, -⟩
    · exact hsame
    · cases hslotb.symm.trans hnone
    · cases hmem
  have hworked : (s.afterAll works).links.get? b.id = s.links.get? b.id := by
    apply Classical.byContradiction
    intro hchanged
    rw [hslotb] at hchanged
    obtain ⟨past, d, onward, hworks, hd, -⟩ := afterAll_slot hslotb hchanged
    exact hob (hspared d (hworks ▸ List.mem_append_right _ List.mem_cons_self) _ hd).symm
  obtain ⟨-, hrefilled, hinject, hworks⟩ := resolve_local hresolve
  refine ⟨hresolve, hempty, hfresh, hrefilled [(other, record)] [other] (fun e he => ?_) (fun id hid => ?_),
    hinject 1 source hdrawn, hworks works (fun d hd id hid => ?_) hworked⟩
  · obtain rfl := List.mem_singleton.1 he
    exact ⟨hempty, hob⟩
  · exact List.mem_singleton.1 hid ▸ hfresh
  · exact hspared d hd id hid ▸ hfresh

end Store

end KeyChain
