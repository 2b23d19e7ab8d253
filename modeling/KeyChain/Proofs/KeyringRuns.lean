import KeyChain.Proofs.VaultRuns
/-! Keyrings after any number of calls. There are two lists to be kept in step, the keys, whose places are their
   indices, and the bindings, which name keys by their identifiers. Identifiers are distinct, so an identifier
   has one place, and the removal of a key takes away its place and the bindings to it.

   1. `Consistent`: what every call keeps (`consistent_act`), and so what holds of every keyring that calls lead to
      (`Reachable.consistent`);
   2. `keyAt?_eq_some_iff`, `pathKey?_of_bound`: a look-up gives the key at a place, with the place as its index;
   3. `listFrom_eq`: looking up place after place gives all keys in their order;
   4. `remove_exact`: the keys behind a removed one move up by one place;
   5. `calls_consistent`: all of this after any calls. -/
namespace KeyChain

theorem OrderedMap.get?_filter {κ ν : Type} [Ord κ] [Std.TransOrd κ] [Std.LawfulEqOrd κ] (m : OrderedMap κ ν)
    (keep : κ × ν → Bool) (k : κ) : (m.filter keep).get? k = (m.get? k).filter fun v => keep (k, v) := by
  ext v
  rw [Option.filter_eq_some_iff, ← mem_entries, ← mem_entries]
  exact List.mem_filter

/-- Makes a call; one that fails leaves the keyring. -/
def KeyringCall.act (c : KeyringCall) : StateM Keyring (Except KeychainError Unit) := updating fun r => c.change r

namespace Keyring

/-- Identifiers are distinct, and bindings lead to keys. -/
structure Consistent (r : Keyring) : Prop where
  distinct : (r.keys.map Key.id).Nodup
  sound : r.Sound

/-- The keyrings that calls lead to, be they successful or not, from no keys or from those of an entry. -/
inductive Reachable : Keyring → Prop where
  | empty : Reachable Keyring.empty
  | restored {entry : KeyringEntry} {r : Keyring} : entry.restore = .ok r → Reachable r
  | call {r : Keyring} (c : KeyringCall) : Reachable r → Reachable (c.act.run r).2

variable {r r' : Keyring} {key : Key} {path : Path}

theorem consistent_empty : empty.Consistent := ⟨List.nodup_nil, sound_empty⟩

theorem consistent_change {c : KeyringCall} (h : r.Consistent) (hc : c.change r = .ok r') : r'.Consistent := by
  cases c with
  | add key => exact ⟨distinct_add h.distinct hc, sound_add h.sound hc⟩
  | remove key => exact ⟨distinct_remove h.distinct hc, sound_remove h.sound hc⟩
  | bindPath path key => exact ⟨keys_bindPath hc ▸ h.distinct, sound_bindPath h.sound hc⟩
  | clear =>
    cases hc
    exact consistent_empty

theorem run_act_of_ok {c : KeyringCall} (h : c.change r = .ok r') : c.act.run r = (.ok (), r') := by
  simp only [KeyringCall.act, updating, StateT.run, h]

theorem run_act_of_error {c : KeyringCall} {e : KeychainError} (h : c.change r = .error e) :
    c.act.run r = (.error e, r) := by
  simp only [KeyringCall.act, updating, StateT.run, h]

theorem run_act (c : KeyringCall) (r : Keyring) :
    (∃ r', c.change r = .ok r' ∧ c.act.run r = (.ok (), r')) ∨
      ∃ e, c.change r = .error e ∧ c.act.run r = (.error e, r) := by
  cases hchange : c.change r with
  | ok r' => exact .inl ⟨r', rfl, run_act_of_ok hchange⟩
  | error e => exact .inr ⟨e, rfl, run_act_of_error hchange⟩

theorem consistent_act (h : r.Consistent) (c : KeyringCall) : (c.act.run r).2.Consistent := by
  rcases run_act c r with ⟨r', hchange, hrun⟩ | ⟨e, -, hrun⟩
  · rw [hrun]
    exact consistent_change h hchange
  · rw [hrun]
    exact h

theorem Reachable.consistent (h : r.Reachable) : r.Consistent := by
  induction h with
  | empty => exact consistent_empty
  | restored hrestore =>
    have hstorable := KeyringEntry.storable_restore hrestore
    exact ⟨hstorable.distinct, hstorable.sound⟩
  | call c _ ih => exact consistent_act ih c

theorem Reachable.add (h : r.Reachable) (hadd : r.add key = .ok r') : r'.Reachable := by
  have hchange : (KeyringCall.add key).change r = .ok r' := hadd
  have hcalled := Reachable.call (.add key) h
  rw [run_act_of_ok hchange] at hcalled
  exact hcalled

/-! Places. -/

/-- The key at a place, with the place as its index. -/
def HasAt (r : Keyring) (i : Nat) (k : Key) : Prop :=
  ∃ (h : i < r.keys.length) (index : UInt32), index.toNat = i ∧ k = r.keys[i].withIndex index

theorem isSome_keyAt? (r : Keyring) (i : Nat) : (r.keyAt? i).isSome ↔ i < r.keys.length := by
  rw [keyAt?, Option.isSome_map, isSome_getElem?]

theorem keyAt?_eq_some_iff (hroom : r.keys.length < UInt32.size) {i : Nat} {k : Key} :
    r.keyAt? i = some k ↔ r.HasAt i k := by
  rw [keyAt?, Option.map_eq_some_iff]
  constructor
  · intro h
    obtain ⟨k, hk, rfl⟩ := h
    obtain ⟨hi, rfl⟩ := List.getElem?_eq_some_iff.1 hk
    exact ⟨hi, UInt32.ofNat i, UInt32.toNat_ofNat_of_lt' (Nat.lt_trans hi hroom), rfl⟩
  · intro h
    obtain ⟨hi, index, rfl, rfl⟩ := h
    exact ⟨_, List.getElem?_eq_getElem hi, by rw [UInt32.ofNat_toNat]⟩

/-- A bound path leads to the key of its identifier, at its place. -/
theorem pathKey?_of_bound (h : r.Sound) (hroom : r.keys.length < UInt32.size) {spelling : Path} {id : KeyId}
    (hbound : r.bindings.get? path.parts = some (spelling, id)) :
    ∃ i k, r.pathKey? path = some k ∧ r.HasAt i k ∧ k.id = id := by
  obtain ⟨installed, hinstalled⟩ := Option.isSome_iff_exists.1 (h _ (OrderedMap.mem_of_lookup hbound))
  obtain ⟨i, hi, hindex, rfl⟩ := exists_indexOf? hinstalled
  obtain ⟨k, hk⟩ := Option.isSome_iff_exists.1 ((isSome_keyAt? r i).2 hi)
  have hat := (keyAt?_eq_some_iff hroom).1 hk
  have hpath : r.pathKey? path = some k := by
    rw [pathKey?, hbound, Option.bind_some]
    dsimp only at hindex ⊢
    rw [hindex, Option.bind_some, hk]
  refine ⟨i, k, hpath, hat, ?_⟩
  obtain ⟨_, index, -, rfl⟩ := hat
  exact (mem_of_find? hinstalled).2

theorem isSome_pathKey? (h : r.Sound) (hroom : r.keys.length < UInt32.size) (path : Path) :
    (r.pathKey? path).isSome ↔ (r.bindings.get? path.parts).isSome := by
  cases hbound : r.bindings.get? path.parts with
  | none => rw [pathKey?, hbound]; rfl
  | some b =>
    obtain ⟨i, k, hk, -⟩ := pathKey?_of_bound h hroom hbound
    rw [hk]
    rfl

/-! All keys. -/

theorem getElem?_filterMap_range {α : Type} {n : Nat} {f : Nat → Option α} (h : ∀ i < n, (f i).isSome) (i : Nat) :
    ((List.range n).filterMap f)[i]? = if i < n then f i else none := by
  induction n generalizing f i with
  | zero => rfl
  | succ n ih =>
    obtain ⟨x, hx⟩ := Option.isSome_iff_exists.1 (h 0 n.succ_pos)
    have hrest := @ih (f ∘ Nat.succ) fun j hj => h (j + 1) (Nat.succ_lt_succ hj)
    rw [List.range_succ_eq_map, List.filterMap_cons_some hx, List.filterMap_map]
    cases i with
    | zero => simp [hx]
    | succ i =>
      rw [List.getElem?_cons_succ, hrest]
      simp

theorem getElem?_listed (r : Keyring) (i : Nat) : r.listed[i]? = r.keyAt? i := by
  rw [listed, getElem?_filterMap_range fun i hi => (isSome_keyAt? r i).2 hi]
  split
  · rfl
  · next hi => exact (Option.not_isSome_iff_eq_none.1 (mt (isSome_keyAt? r i).1 hi)).symm

/-- The index behind one that is in use. -/
theorem toNat_next (hroom : r.keys.length < UInt32.size) {index : UInt32} (h : (r.keyAt? index.toNat).isSome) :
    (index + 1).toNat = index.toNat + 1 := by
  have hi := (isSome_keyAt? r index.toNat).1 h
  rw [UInt32.toNat_add]
  exact Nat.mod_eq_of_lt (Nat.lt_of_le_of_lt hi hroom)

/-- Looks up place after place until there is no key. -/
def listFrom (r : Keyring) (hroom : r.keys.length < UInt32.size) (index : UInt32) : List Key :=
  match _h : r.keyAt? index.toNat with
  | none => []
  | some key => key :: listFrom r hroom (index + 1)
termination_by r.keys.length - index.toNat
decreasing_by
  have hsome : (r.keyAt? index.toNat).isSome := _h ▸ rfl
  have hi := (isSome_keyAt? r index.toNat).1 hsome
  rw [toNat_next hroom hsome]
  omega

theorem listFrom_eq (hroom : r.keys.length < UInt32.size) (index : UInt32) :
    r.listFrom hroom index = r.listed.drop index.toNat := by
  induction index using listFrom.induct r hroom with
  | case1 index hnone =>
    have hend : r.listed[index.toNat]? = none := by rw [getElem?_listed, hnone]
    rw [listFrom, List.drop_eq_nil_iff.2 (List.getElem?_eq_none_iff.1 hend)]
    split
    · rfl
    · next hsome => rw [hnone] at hsome; cases hsome
  | case2 index key hsome ih =>
    have hthere : r.listed[index.toNat]? = some key := by rw [getElem?_listed, hsome]
    obtain ⟨hi, hkey⟩ := List.getElem?_eq_some_iff.1 hthere
    rw [listFrom, List.drop_eq_getElem_cons hi, hkey]
    split
    · next hnone => rw [hnone] at hsome; cases hsome
    · next key' hsome' =>
      obtain rfl : key = key' := Option.some.inj (hsome.symm.trans hsome')
      rw [ih, toNat_next hroom (hsome ▸ rfl)]

/-! Removals. -/

/-- An identifier has one place. -/
theorem indexOf?_of_distinct (h : (r.keys.map Key.id).Nodup) {i : Nat} (hi : i < r.keys.length) {id : KeyId}
    (hid : r.keys[i].id = id) : r.indexOf? id = some i := by
  obtain ⟨installed, hinstalled⟩ := exists_find? (List.getElem_mem hi) hid
  obtain ⟨j, hj, hindex, rfl⟩ := exists_indexOf? hinstalled
  have hsame : (r.keys.map Key.id)[j]? = (r.keys.map Key.id)[i]? := by
    rw [List.getElem?_map, List.getElem?_map, List.getElem?_eq_getElem hj, List.getElem?_eq_getElem hi,
      Option.map_some, Option.map_some, hid, (mem_of_find? hinstalled).2]
  rw [hindex, (List.getElem?_inj (by simpa using hj) h).1 hsame]

/-- A key that is removed goes from its place and takes the bindings to it along, and the keys behind it move up. -/
theorem remove_exact (h : (r.keys.map Key.id).Nodup) {i : Nat} (hi : i < r.keys.length)
    (hid : r.keys[i].id = key.id) :
    ∃ r', r.remove key = .ok r' ∧ r'.keys = r.keys.eraseIdx i ∧
      (∀ j, r'.keyAt? j =
        if j < i then r.keyAt? j else (r.keyAt? (j + 1)).map fun k => k.withIndex (UInt32.ofNat j)) ∧
      ∀ path : Path, r'.bindings.get? path.parts =
        (r.bindings.get? path.parts).filter fun b => b.2 != key.id := by
  have hindex := indexOf?_of_distinct h hi hid
  rw [indexOf?] at hindex
  have hkeys : (r.keys.eraseP fun k => k.id == key.id) = r.keys.eraseIdx i := by
    rw [List.eraseP_eq_eraseIdx, hindex]
  obtain ⟨installed, hfind⟩ := exists_find? (List.getElem_mem hi) hid
  refine ⟨_, by rw [remove, hfind], hkeys, fun j => ?_, fun path => OrderedMap.get?_filter ..⟩
  simp only [keyAt?, hkeys, List.getElem?_eraseIdx]
  split
  · rfl
  · rw [Option.map_map]
    rfl

theorem remove_of_notMem (h : key.id ∉ r.keys.map Key.id) : r.remove key = .error (.notFound key.id) := by
  rw [remove, find?_eq_none.2 h]

/-- What holds after any calls, be they successful or not. Identifiers are distinct, and a binding leads to a key. A
    look-up by a place or by a path gives the key at a place, with the place as its index, if and only if the place
    is in use or the path is bound, and looking up all places gives all keys in their order. A call that fails
    changes nothing. An installed key, and no other one, can be removed, and those behind it move up by one place. -/
theorem calls_consistent (h : r.Reachable) (hroom : r.keys.length < UInt32.size) :
    (r.keys.map Key.id).Nodup ∧ (∀ b ∈ r.boundPaths, ∃ k ∈ r.keys, k.id = b.2) ∧
    (∀ i, (r.keyAt? i).isSome ↔ i < r.keys.length) ∧ (∀ i k, r.keyAt? i = some k ↔ r.HasAt i k) ∧
    (∀ path, (r.pathKey? path).isSome ↔ (r.bindings.get? path.parts).isSome) ∧
    (∀ (path spelling : Path) (id : KeyId), r.bindings.get? path.parts = some (spelling, id) →
      ∃ i k, r.pathKey? path = some k ∧ r.HasAt i k ∧ k.id = id) ∧
    r.listed = r.listFrom hroom 0 ∧ (∀ i k, r.listed[i]? = some k ↔ r.HasAt i k) ∧
    (∀ (c : KeyringCall) (e : KeychainError) (r' : Keyring), c.act.run r = (.error e, r') → r' = r) ∧
    (∀ key : Key, key.id ∉ r.keys.map Key.id →
      (KeyringCall.remove key).act.run r = (.error (.notFound key.id), r)) ∧
    ∀ (i : Nat) (hi : i < r.keys.length) (key : Key), r.keys[i].id = key.id →
      ∃ r', (KeyringCall.remove key).act.run r = (.ok (), r') ∧ r'.keys = r.keys.eraseIdx i ∧
        (∀ j, r'.keyAt? j =
          if j < i then r.keyAt? j else (r.keyAt? (j + 1)).map fun k => k.withIndex (UInt32.ofNat j)) ∧
        ∀ path : Path, r'.bindings.get? path.parts =
          (r.bindings.get? path.parts).filter fun b => b.2 != key.id := by
  obtain ⟨hdistinct, hsound⟩ := h.consistent
  refine ⟨hdistinct, fun b hb => ?_, isSome_keyAt? r, fun i k => keyAt?_eq_some_iff hroom,
    isSome_pathKey? hsound hroom, fun path spelling id => pathKey?_of_bound hsound hroom, ?_, fun i k => ?_,
    fun c e r' hrun => ?_, fun key hkey => ?_, fun i hi key hid => ?_⟩
  · obtain ⟨entry, hentry, rfl⟩ := List.mem_map.1 hb
    obtain ⟨k, hk⟩ := Option.isSome_iff_exists.1 (hsound entry hentry)
    exact ⟨k, mem_of_find? hk⟩
  · exact (listFrom_eq hroom 0).symm
  · rw [getElem?_listed, keyAt?_eq_some_iff hroom]
  · rcases run_act c r with ⟨_, -, hok⟩ | ⟨_, -, herror⟩
    · rw [hok] at hrun
      cases hrun
    · rw [herror] at hrun
      exact (congrArg Prod.snd hrun).symm
  · rw [run_act_of_error (show (KeyringCall.remove key).change r = _ from remove_of_notMem hkey)]
  · obtain ⟨r', hremove, hkeys, hplaces, hbindings⟩ := remove_exact hdistinct hi hid
    exact ⟨r', run_act_of_ok hremove, hkeys, hplaces, hbindings⟩

/-- Two keys are added, a path is bound to the second, and the first is removed. -/
def moving : List KeyringCall :=
  let first : Key := ⟨⟨1⟩, .aes256Xts, .zero secretSize, none⟩
  let second : Key := ⟨⟨2⟩, .aes256Xts, .zero secretSize, none⟩
  [.add first, .add second, .bindPath ⟨"/"⟩ second, .remove first]

/-- The path still leads to the second key, which is at the first place then. -/
theorem calls_consistent_moving :
    let r := moving.foldl (fun r c => (c.act.run r).2) empty
    r.Reachable ∧ r.keys.length < UInt32.size ∧ r.bindings.get? (Path.parts ⟨"/"⟩) = some (⟨"/"⟩, ⟨2⟩) ∧
      ∃ i k, r.pathKey? ⟨"/"⟩ = some k ∧ r.HasAt i k ∧ k.id = ⟨2⟩ ∧ k.index = some 0 := by
  intro r
  have hreachable : r.Reachable := .call _ (.call _ (.call _ (.call _ .empty)))
  have hroom : r.keys.length < UInt32.size := by decide
  have hbound : r.bindings.get? (Path.parts ⟨"/"⟩) = some (⟨"/"⟩, ⟨2⟩) := by decide
  obtain ⟨-, -, -, -, -, hpath, -⟩ := calls_consistent hreachable hroom
  obtain ⟨i, k, hk, hat, hid⟩ := hpath _ _ _ hbound
  refine ⟨hreachable, hroom, hbound, i, k, hk, hat, hid, ?_⟩
  obtain ⟨hi, index, hindex, rfl⟩ := hat
  have honly : i < 1 := hi
  obtain rfl : index = 0 := UInt32.toNat_inj.1 (hindex.trans (Nat.lt_one_iff.1 honly))
  rfl

end Keyring

end KeyChain
