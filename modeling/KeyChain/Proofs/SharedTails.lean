import KeyChain.Proofs.DeleteCalls
/-! Chains that meet. A link belongs to the key that opens it, so two chains that meet in one key go on together,
   and what is deleted for one of them is gone for the other.

   1. `resolve_drop`: from each of its keys a chain goes on as the chain of that key;
   2. `Walk.emptied`: over links of which some were removed, a walk goes the way it went, up to the first
      key whose link is missing;
   3. `resolve_emptied`: so a chain is cut off behind that key, and it is still a chain;
   4. `deleteChain_truncates`: for the chains of all other keys this is all that deleting a chain does. -/
namespace KeyChain

namespace Chain

variable {links links' : Links}

/-- From each of its keys a walk goes on as a walk of that key. -/
theorem Walk.drop {root tail : Key} {before : List Key} (h : Walk links root before tail) {i : Nat}
    (hi : i < (before ++ [tail]).length) : Walk links (before ++ [tail])[i] (before.drop i) tail := by
  induction h generalizing i with
  | start =>
    obtain rfl : i = 0 := by simpa using hi
    exact .start
  | @hop before tail child _ leads fresh ih =>
    by_cases hpassed : i < (before ++ [tail]).length
    · have hle : i ≤ before.length := by
        rw [List.length_append, List.length_singleton] at hpassed
        exact Nat.le_of_lt_succ hpassed
      rw [List.getElem_append_left hpassed, List.drop_append_of_le_length hle]
      -- What is fresh on the whole walk is fresh on the part of it.
      refine (ih hpassed).hop leads fun hmem => fresh ?_
      rw [← List.drop_append_of_le_length hle] at hmem
      exact List.map_subset Key.id (List.drop_subset i _) hmem
    · obtain rfl : i = (before ++ [tail]).length := by
        rw [List.length_append, List.length_singleton] at hi
        omega
      rw [List.getElem_concat_length rfl, List.drop_length]
      exact .start

/-- Resolution composes. From each of its keys a chain goes on as the chain of that key. A key that must own a link
    gives the same chain, unless it is the last and owns none. -/
theorem resolve_drop {root : Key} {mode : ChainMode} {c : Chain} (h : resolve links root mode = .ok c) {i : Nat}
    (hi : i < c.keys.length) :
    resolve links c.keys[i] .ignoreMissing = .ok ⟨c.keys[i], c.keys.drop (i + 1)⟩ ∧
      resolve links c.keys[i] .use =
        if i + 1 = c.keys.length ∧ links.get? c.keys[i].id = none then .error (.notFound c.keys[i].id)
        else .ok ⟨c.keys[i], c.keys.drop (i + 1)⟩ := by
  obtain ⟨-, before, tail, walk, hkeys, hend⟩ := resolve_ok_iff.1 h
  have hwalk : Walk links c.keys[i] (before.drop i) tail := by
    simp only [hkeys] at hi ⊢
    exact walk.drop hi
  have hlength : c.keys.length = before.length + 1 := by rw [hkeys, List.length_append, List.length_singleton]
  have hkeysDrop : c.keys[i] :: c.keys.drop (i + 1) = before.drop i ++ [tail] := by
    rw [← List.drop_eq_getElem_cons hi, hkeys, List.drop_append_of_le_length (by omega)]
  have hignore : resolve links c.keys[i] .ignoreMissing = .ok ⟨c.keys[i], c.keys.drop (i + 1)⟩ :=
    resolve_ok_iff.2 ⟨fun hmode => (by cases hmode.1), _, tail, hwalk, hkeysDrop, hend⟩
  refine ⟨hignore, ?_⟩
  by_cases hslot : links.get? c.keys[i].id = none
  · -- Only the last key of a walk can own no link.
    have hlast : i + 1 = c.keys.length := by
      have hnil := (hwalk.eq_start hslot).1
      rw [List.drop_eq_nil_iff] at hnil
      omega
    rw [if_pos ⟨hlast, hslot⟩]
    exact resolve_notFound_iff.2 ⟨rfl, hslot, rfl⟩
  · rw [if_neg fun hboth => hslot hboth.2, resolve_use_eq_iff.2 hslot, hignore]

/-- A chain of two whose last key owns no link. That key is a chain of its own, but not one that can be asked for. -/
theorem resolve_drop_open :
    let b := Key.ofSecret .aes256Xts (.zero secretSize)
    let a : Key := { b with id := ⟨b.id.value + 1⟩ }
    let links : Links := OrderedMap.empty.insert a.id (Link.encryptWith (.zero 24) a b)
    resolve links a .use = .ok ⟨a, [b]⟩ ∧ 1 < (keys ⟨a, [b]⟩).length ∧
      resolve links b .ignoreMissing = .ok ⟨b, []⟩ ∧ resolve links b .use = .error (.notFound b.id) := by
  intro b a links
  have hdecrypt : Link.decrypt a (Link.encryptWith (.zero 24) a b).bytes = .ok b :=
    Link.decrypt_encryptWith _ a (Key.sound_ofSecret _ _)
  have hcipher : b.isTerminal = false := Key.isTerminal_ofSecret _ _
  clear_value b
  have hab : a.id ≠ b.id := fun h => absurd (congrArg KeyId.value h) (by simp [a])
  have hb : resolve OrderedMap.empty b .ignoreMissing = .ok (single b) := resolve_single (OrderedMap.get?_empty _)
  have hfresh : a.id ∉ (single b).keys.map Key.id := fun hmem => hab (List.mem_singleton.1 hmem)
  have hchain : resolve links a .use = .ok ⟨a, [b]⟩ := resolve_insert_leads .use hdecrypt hcipher hb hfresh
  have hlength : 1 < (keys ⟨a, [b]⟩).length := Nat.one_lt_two
  have hempty : links.get? b.id = none := (get?_insert_ne hab.symm _ _).trans (OrderedMap.get?_empty _)
  obtain ⟨hignore, huse⟩ := resolve_drop hchain hlength
  rw [if_pos ⟨rfl, hempty⟩] at huse
  exact ⟨hchain, hlength, hignore, huse⟩

/-! Cuts. -/

/-- The part of a chain that ends with the first key whose identifier is one of some; the whole chain, if
    there is none. -/
def upTo (ids : List KeyId) (c : Chain) : Chain :=
  ⟨c.root, c.rest.take (c.keys.findIdx fun k => decide (k.id ∈ ids))⟩

/-- The keys of a list up to the first whose identifier is one of some, that one included. -/
def keysUpTo (ids : List KeyId) (keys : List Key) : List Key :=
  keys.take (keys.findIdx (fun k => decide (k.id ∈ ids)) + 1)

theorem keys_upTo (ids : List KeyId) (c : Chain) : (c.upTo ids).keys = keysUpTo ids c.keys := rfl

variable {ids : List KeyId} {keys : List Key}

theorem findIdx_of_clear (h : ∀ k ∈ keys, k.id ∉ ids) :
    keys.findIdx (fun k => decide (k.id ∈ ids)) = keys.length :=
  List.findIdx_eq_length.2 fun k hk => by simpa using h k hk

/-- Keys of other identifiers are not cut. -/
theorem keysUpTo_of_clear (h : ∀ k ∈ keys, k.id ∉ ids) : keysUpTo ids keys = keys := by
  rw [keysUpTo, findIdx_of_clear h, List.take_of_length_le (Nat.le_succ _)]

/-- The first key behind such keys is not cut, whatever its identifier. -/
theorem keysUpTo_concat (h : ∀ k ∈ keys, k.id ∉ ids) (key : Key) :
    keysUpTo ids (keys ++ [key]) = keys ++ [key] := by
  rw [keysUpTo, List.findIdx_append, findIdx_of_clear h, if_neg (Nat.lt_irrefl _),
    List.take_of_length_le]
  rw [List.length_append, List.length_singleton]
  omega

/-- What stands behind the first of the identifiers has no say. -/
theorem keysUpTo_append {key : Key} (hkey : key ∈ keys) (hid : key.id ∈ ids) (more : List Key) :
    keysUpTo ids (keys ++ more) = keysUpTo ids keys := by
  have hlt : keys.findIdx (fun k => decide (k.id ∈ ids)) < keys.length :=
    List.findIdx_lt_length_of_exists ⟨key, hkey, by simpa using hid⟩
  rw [keysUpTo, keysUpTo, List.findIdx_append, if_pos hlt, List.take_append_of_le_length hlt]

/-- Over links of which some were removed, a walk goes the way it went until it comes to a key whose link
    is missing. -/
theorem Walk.emptied {root : Key} {before : List Key} {tail : Key} (h : Walk links root before tail)
    (slots : ∀ id, links'.get? id = if id ∈ ids then none else links.get? id) :
    ∃ before' tail', Walk links' root before' tail' ∧ before' ++ [tail'] = keysUpTo ids (before ++ [tail]) ∧
      (tail'.id ∈ ids ∨ tail' = tail ∧ ∀ k ∈ before ++ [tail], k.id ∉ ids) := by
  induction h with
  | start =>
    refine ⟨[], root, .start, (keysUpTo_concat (by simp) root).symm, ?_⟩
    by_cases hid : root.id ∈ ids
    · exact .inl hid
    · exact .inr ⟨rfl, by simpa using hid⟩
  | @hop before tail child walk leads fresh ih =>
    obtain ⟨before', tail', walk', hkeys, hend⟩ := ih
    rcases hend with hid | ⟨rfl, hclear⟩
    · have hmem : tail' ∈ before ++ [tail] := by
        have hlast : tail' ∈ keysUpTo ids (before ++ [tail]) := hkeys ▸ List.mem_concat_self
        exact List.mem_of_mem_take hlast
      exact ⟨before', tail', walk', hkeys.trans (keysUpTo_append hmem hid _).symm, .inl hid⟩
    · rw [keysUpTo_of_clear hclear] at hkeys
      obtain ⟨rfl, -⟩ := List.append_inj' hkeys rfl
      have hsame : links'.get? tail'.id = links.get? tail'.id := by rw [slots, if_neg (hclear tail' (by simp))]
      have leads' : opening links' tail' = .leads child := (opening_congr hsame).trans leads
      refine ⟨before' ++ [tail'], child, walk'.hop leads' fresh, (keysUpTo_concat hclear child).symm, ?_⟩
      by_cases hid : child.id ∈ ids
      · exact .inl hid
      · refine .inr ⟨rfl, fun k hk => ?_⟩
        rcases List.mem_append.1 hk with hk | hk
        · exact hclear k hk
        · exact List.mem_singleton.1 hk ▸ hid

/-- Over links of which some were removed, a chain ends with the first key whose link is missing. -/
theorem resolve_emptied {d : Key} {e : Chain} (h : resolve links d .ignoreMissing = .ok e)
    (slots : ∀ id, links'.get? id = if id ∈ ids then none else links.get? id) :
    resolve links' d .ignoreMissing = .ok (e.upTo ids) := by
  obtain ⟨-, before, tail, walk, hkeys, hend⟩ := resolve_ok_iff.1 h
  obtain ⟨before', tail', walk', hkeys', hend'⟩ := walk.emptied slots
  refine resolve_ok_iff.2 ⟨fun hmode => (by cases hmode.1), before', tail', walk', ?_, ?_⟩
  · rw [keys_upTo, hkeys, hkeys']
  · rcases hend' with hid | ⟨rfl, hclear⟩
    · exact .inl (opening_eq_empty.2 (by rw [slots, if_pos hid]))
    · -- The walk came to its old end, where nothing has changed.
      have hsame : links'.get? tail'.id = links.get? tail'.id := by rw [slots, if_neg (hclear tail' (by simp))]
      rw [opening_congr hsame]
      exact hend

end Chain

namespace Store

open Chain

/-- Deleting a chain that was just resolved never breaks another. If all of it is deleted, the chain of any key
    ends with the first of its keys that is also on the deleted one; if only its first link is, with the
    root of the deleted one. A chain on which there is no such key stays as it is. -/
theorem deleteChain_truncates {s : Store} {key d : Key} {mode : ChainMode} {c e : Chain}
    (hexclusive : s.mode = .exclusive) (hc : resolve s.links key mode = .ok c)
    (he : resolve s.links d .ignoreMissing = .ok e) :
    (∃ s', s.deleteChain c .full = (.ok (hopsOf c.ids), s') ∧
      resolve s'.links d .ignoreMissing = .ok (e.upTo c.ids)) ∧
    ∃ s', s.deleteChain c .first = (.ok [⟨c.root.id, (c.rest.map Key.id).head?⟩], s') ∧
      resolve s'.links d .ignoreMissing = .ok (e.upTo [c.root.id]) := by
  obtain ⟨full, hfull, hslots⟩ := deleteChain_ok hexclusive hc .full
  obtain ⟨first, hfirst, hslot⟩ := deleteChain_ok hexclusive hc .first
  exact ⟨⟨full, hfull, resolve_emptied he hslots⟩, ⟨first, hfirst, resolve_emptied he hslot⟩⟩

/-- Two chains that meet in a sealed key. When one of them is deleted, the other keeps its two keys. -/
theorem deleteChain_truncates_shared :
    let b := Key.ofSecret .aes256Xts (.zero secretSize)
    let a : Key := { b with id := ⟨b.id.value + 1⟩ }
    let d : Key := { b with id := ⟨b.id.value + 2⟩ }
    let closing := Link.encryptWith (.zero 24) b (Key.ofSecret .invalid (.zero secretSize))
    let links := ((OrderedMap.empty.insert b.id closing).insert a.id (Link.encryptWith (.zero 24) a b)).insert
      d.id (Link.encryptWith (.zero 24) d b)
    let s : Store := ⟨pathFor ⟨"/"⟩, links, false, .exclusive, none⟩
    resolve s.links a .use = .ok ⟨a, [b]⟩ ∧ resolve s.links d .ignoreMissing = .ok ⟨d, [b]⟩ ∧
      ∃ s', s.deleteChain ⟨a, [b]⟩ .full = (.ok [⟨a.id, some b.id⟩, ⟨b.id, none⟩], s') ∧
        resolve s'.links d .ignoreMissing = .ok ⟨d, [b]⟩ := by
  intro b a d closing links s
  have hab : a.id ≠ b.id := fun h => absurd (congrArg KeyId.value h) (by simp [a])
  have hdb : d.id ≠ b.id := fun h => absurd (congrArg KeyId.value h) (by simp [d])
  have hda : d.id ≠ a.id := fun h => absurd (congrArg KeyId.value h) (by simp [a, d])
  have hslotb : s.links.get? b.id = some closing :=
    (get?_insert_ne hdb.symm _ _).trans ((get?_insert_ne hab.symm _ _).trans (get?_insert_self _ _ _))
  have hslota : s.links.get? a.id = some (Link.encryptWith (.zero 24) a b) :=
    (get?_insert_ne hda.symm _ _).trans (get?_insert_self _ _ _)
  have hslotd : s.links.get? d.id = some (Link.encryptWith (.zero 24) d b) := get?_insert_self _ _ _
  have hclosed : opening s.links b = .closed := by
    have hdecrypt := Link.decrypt_encryptWith (.zero 24) b (Key.sound_ofSecret .invalid (.zero secretSize))
    exact (opening_of_decrypt hslotb hdecrypt).trans (if_pos rfl)
  -- Both keys lead to `b`, which is sealed.
  have hresolve : ∀ (k : Key) (mode : ChainMode), s.links.get? k.id = some (Link.encryptWith (.zero 24) k b) →
      k.id ≠ b.id → resolve s.links k mode = .ok ⟨k, [b]⟩ := by
    intro k mode hslot hne
    have hleads : opening s.links k = .leads b :=
      opening_eq_leads.2 ⟨_, hslot, Link.decrypt_encryptWith _ k (Key.sound_ofSecret _ _), rfl⟩
    refine resolve_ok_iff.2 ⟨fun h => ?_, [k], b, Walk.hop .start hleads (by simpa using hne.symm), rfl, .inr hclosed⟩
    rw [hslot] at h
    cases h.2
  have hc := hresolve a .use hslota hab
  have he := hresolve d .ignoreMissing hslotd hdb
  obtain ⟨⟨s', hdelete, hcut⟩, -⟩ := deleteChain_truncates (s := s) rfl hc he
  refine ⟨hc, he, s', hdelete, hcut.trans ?_⟩
  have hfirst : decide (d.id ∈ Chain.ids ⟨a, [b]⟩) = false := by simp [Chain.ids, keys, hda, hdb]
  rw [upTo, keys, List.findIdx_cons, hfirst, cond_false, List.take_succ_cons, List.take_nil]

end Store

end KeyChain
