import KeyChain.Keyring.Entry
import KeyChain.Proofs.StoreText
/-! A keyring as the text of an entry, and back. Neither identifiers nor places are written: the identifiers
   follow from the secrets, since those of derived keys are trimmed already, and the places from the
   order.

   1. `ofText?_text`: the text of an entry says which keys and bindings there are;
   2. `restore_text`: a keyring that can be kept (`Keyring.Storable`) is restored from that, less the places
      that its keys remember from elsewhere;
   3. `storable_restore`, `storable_add`, `storable_remove`, `storable_bindPath`: every keyring that comes out
      of an entry can be kept, and stays so. -/
namespace KeyChain

/-- The key without its place. -/
def Key.unplaced (k : Key) : Key := { k with index := none }

/-- Whether a key is one that is derived: of a cipher, built from a secret. Its place does not count. -/
def Key.IsDerived (k : Key) : Prop := ∃ a secret, a.isValid = true ∧ k.unplaced = Key.ofSecret a secret

/-- If identifiers are distinct, those of later keys are not among those of earlier ones. -/
theorem Key.id_notMem_of_distinct {before after : List Key} {k : Key}
    (h : ((before ++ after).map Key.id).Nodup) (hk : k ∈ after) : k.id ∉ before.map Key.id := by
  rw [List.map_append, List.nodup_append] at h
  exact fun hmem => h.2.2 _ hmem _ (List.mem_map_of_mem hk) rfl

theorem Algorithm.isValid_of_ofName? {name : String} {a : Algorithm} (h : ofName? name = some a) :
    a.isValid = true := by
  have hsupported : ∀ a ∈ supported, a.isValid = true := by decide
  exact hsupported a (List.mem_of_find?_eq_some h)

namespace Keyring

/-- The keyring without the places that its keys remember. -/
def unplaced (r : Keyring) : Keyring := { r with keys := r.keys.map Key.unplaced }

/-- Whether an entry can keep a keyring: its keys are derived and have different identifiers, each binding is
    filed under the parts of its path, and leads to a key. -/
structure Storable (r : Keyring) : Prop where
  derived : ∀ k ∈ r.keys, k.IsDerived
  distinct : (r.keys.map Key.id).Nodup
  spelled : ∀ b ∈ r.bindings.entries, b.1 = b.2.1.parts
  sound : r.Sound

variable {r r' : Keyring} {key : Key} {path : Path}

theorem find?_eq_none {id : KeyId} : r.find? id = none ↔ id ∉ r.keys.map Key.id := by
  rw [find?, List.find?_eq_none, List.mem_map]
  simp

theorem mem_of_find? {id : KeyId} (h : r.find? id = some key) : key ∈ r.keys ∧ key.id = id :=
  ⟨List.mem_of_find?_eq_some h, by simpa using List.find?_some h⟩

theorem exists_find? {id : KeyId} (h : key ∈ r.keys) (hid : key.id = id) : ∃ installed, r.find? id = some installed :=
  Option.ne_none_iff_exists'.1 fun hnone => find?_eq_none.1 hnone (hid ▸ List.mem_map_of_mem h)

theorem storable_empty : empty.Storable := ⟨nofun, List.nodup_nil, nofun, sound_empty⟩

/-- A key that is added has an identifier of its own. -/
theorem distinct_add (h : (r.keys.map Key.id).Nodup) (ha : r.add key = .ok r') : (r'.keys.map Key.id).Nodup := by
  unfold add at ha
  split at ha
  · next hfind =>
    cases ha
    have hfresh := find?_eq_none.1 hfind
    rw [List.map_append, List.nodup_append]
    refine ⟨h, by simp, fun a ha b hb he => hfresh ?_⟩
    obtain rfl : b = key.id := by simpa using hb
    exact he ▸ ha
  · split at ha <;> cases ha
    exact h

theorem distinct_remove (h : (r.keys.map Key.id).Nodup) (hr : r.remove key = .ok r') :
    (r'.keys.map Key.id).Nodup := by
  unfold remove at hr
  split at hr <;> cases hr
  exact h.sublist (List.eraseP_sublist.map Key.id)

theorem keys_bindPath (hb : r.bindPath path key = .ok r') : r'.keys = r.keys := by
  unfold bindPath at hb
  split at hb <;> cases hb
  rfl

theorem storable_add (h : r.Storable) (hkey : key.IsDerived) (ha : r.add key = .ok r') : r'.Storable := by
  have hsound := sound_add h.sound ha
  have hdistinct := distinct_add h.distinct ha
  unfold add at ha
  split at ha
  · cases ha
    refine ⟨fun k hk => ?_, hdistinct, h.spelled, hsound⟩
    rcases List.mem_append.1 hk with hk | hk
    · exact h.derived k hk
    · exact List.mem_singleton.1 hk ▸ hkey
  · split at ha <;> cases ha
    exact h

theorem storable_remove (h : r.Storable) (hr : r.remove key = .ok r') : r'.Storable := by
  have hsound := sound_remove h.sound hr
  have hdistinct := distinct_remove h.distinct hr
  unfold remove at hr
  split at hr <;> cases hr
  refine ⟨fun k hk => h.derived k (List.mem_of_mem_eraseP hk), hdistinct, fun b hb => ?_, hsound⟩
  exact h.spelled b (List.mem_filter.1 hb).1

theorem storable_bindPath (h : r.Storable) (hb : r.bindPath path key = .ok r') : r'.Storable := by
  have hsound := sound_bindPath h.sound hb
  unfold bindPath at hb
  split at hb
  · cases hb
  · cases hb
    refine ⟨h.derived, h.distinct, fun b hb => ?_, hsound⟩
    rcases OrderedMap.mem_place hb with rfl | hb
    · -- The spelling that was there first has the same parts.
      dsimp only
      cases hslot : r.bindings.get? path.parts with
      | none => rfl
      | some first => exact h.spelled _ (OrderedMap.mem_of_lookup hslot)
    · exact h.spelled b hb

end Keyring

namespace KeyringEntry

/-! The text of an entry. -/

/-- What an entry says of a key. -/
def stored (k : Key) : String × String := (k.algorithm.name, Base64.encode k.secret.bytes)

/-- What an entry says of a binding. -/
def bound (b : Path × KeyId) : Path × String := (b.1, b.2.toHex)

def keyJson (k : Key) : Json :=
  .object [(some "algorithm", .string (some (stored k).1)), (some "secret", .string (some (stored k).2))]

def pathJson (b : Path × KeyId) : Json := .array [.string (some (bound b).1.text), .string (some (bound b).2)]

theorem spells_keyText (k : Key) : Json.Spells (keyText k) (keyJson k) := by
  have hpair := (Json.Spells.quote (stored k).1).pair (.quote (stored k).2) "algorithm" "secret"
  have htext : keyText k = "\x7b" ++ Json.quote "algorithm" ++ ":" ++ Json.quote (stored k).1 ++ "," ++
      Json.quote "secret" ++ ":" ++ Json.quote (stored k).2 ++ "\x7d" := by
    unfold keyText
    rw [show "\x7b\"algorithm\":" = "\x7b" ++ Json.quote "algorithm" ++ ":" by decide,
      show ",\"secret\":" = "," ++ Json.quote "secret" ++ ":" by decide]
    simp only [String.append_assoc]
    rfl
  rw [htext]
  exact hpair

theorem spells_pathText (b : Path × KeyId) : Json.Spells (pathText b) (pathJson b) := by
  have harray := @Json.Spells.array _ Json.quote (fun s => .string (some s)) [(bound b).1.text, (bound b).2]
    fun s _ => .quote s
  have htext : pathText b = "[" ++ ",".intercalate ([(bound b).1.text, (bound b).2].map Json.quote) ++ "]" := by
    simp only [List.map_cons, List.map_nil, String.intercalate_cons_cons, String.intercalate_singleton, pathText,
      String.append_assoc]
    rfl
  rw [htext]
  exact harray

theorem spells_text (r : Keyring) :
    Json.Spells (text r) (.object [(some "keys", .array (r.keys.map keyJson)),
      (some "paths", .array (r.boundPaths.map pathJson))]) := by
  have hkeys := @Json.Spells.array _ keyText keyJson r.keys fun k _ => spells_keyText k
  have hpaths := @Json.Spells.array _ pathText pathJson r.boundPaths fun b _ => spells_pathText b
  have htext : text r = "\x7b" ++ Json.quote "keys" ++ ":" ++ ("[" ++ ",".intercalate (r.keys.map keyText) ++ "]") ++
      "," ++ Json.quote "paths" ++ ":" ++ ("[" ++ ",".intercalate (r.boundPaths.map pathText) ++ "]") ++ "\x7d" := by
    rw [text, show "\x7b\"keys\":[" = "\x7b" ++ Json.quote "keys" ++ ":" ++ "[" by decide,
      show "],\"paths\":[" = "]" ++ "," ++ Json.quote "paths" ++ ":" ++ "[" by decide,
      show "]\x7d" = "]" ++ "\x7d" by decide]
    simp only [String.append_assoc]
  rw [htext]
  exact hkeys.pair hpaths "keys" "paths"

theorem mapM_map_some {α β γ : Type} {f : α → β} {g : β → Option γ} {g' : α → γ}
    (h : ∀ x, g (f x) = some (g' x)) (xs : List α) : (xs.map f).mapM g = some (xs.map g') := by
  induction xs with
  | nil => rfl
  | cons x xs ih =>
    rw [List.map_cons, List.mapM_cons, h, ih]
    rfl

/-- The text of an entry says which keys and bindings there are. -/
theorem ofText?_text (r : Keyring) : ofText? (text r) = some ⟨r.keys.map stored, r.boundPaths.map bound⟩ := by
  have hkey : ∀ k, keyOfJson? (keyJson k) = some (stored k) := fun k => by
    simp [keyOfJson?, keyJson, Json.record?, Json.named?, keyFieldNames, Json.once?, List.mapM_cons, Json.text?]
  have hpath : ∀ b, pathOfJson? (pathJson b) = some (bound b) := fun b => by
    simp [pathOfJson?, pathJson, Json.items?, Json.text?]
  rw [ofText?, (spells_text r).read, Option.bind_some]
  simp [ofJson?, Json.record?, Json.named?, fieldNames, Json.once?, List.mapM_cons, Json.items?,
    mapM_map_some hkey, mapM_map_some hpath]

/-! What is restored from an entry. -/

/-- A key of a cipher is built again from its algorithm and its secret. -/
theorem readKey_rebuilt {k : Key} (h : k.algorithm.isValid = true) :
    readKey (stored k) = .ok (Key.ofSecret k.algorithm k.secret) := by
  rw [readKey, stored, Algorithm.ofName?_name _ h]
  simp only [Base64.decode_encode]
  rw [show FixedBytes.ofBytes? secretSize k.secret.bytes = some k.secret from FixedBytes.ofBytes?_bytes _]

/-- One that is derived is the same again. -/
theorem readKey_stored {k : Key} (h : k.IsDerived) : readKey (stored k) = .ok k.unplaced := by
  obtain ⟨a, secret, hvalid, hk⟩ := h
  have halgorithm : k.unplaced.algorithm = a := congrArg Key.algorithm hk
  have hsecret : k.unplaced.secret = (Key.ofSecret a secret).secret := congrArg Key.secret hk
  have hbuilt : Key.ofSecret k.algorithm k.secret = k.unplaced := by
    rw [show k.algorithm = a from halgorithm, show k.secret = _ from hsecret, Key.ofSecret_secret]
    exact hk.symm
  rw [readKey_rebuilt (show k.algorithm.isValid = true from halgorithm.symm ▸ hvalid), hbuilt]

theorem isDerived_of_readKey {entry : String × String} {k : Key} (h : readKey entry = .ok k) :
    k.IsDerived := by
  unfold readKey at h
  cases hname : Algorithm.ofName? entry.1 with
  | none => rw [hname] at h; cases h
  | some a =>
    rw [hname] at h
    dsimp only at h
    cases hdecode : Base64.decode entry.2 with
    | error fault => rw [hdecode] at h; cases h
    | ok bytes =>
      rw [hdecode] at h
      dsimp only at h
      split at h
      · cases h
      · next secret hsecret =>
        rw [← Except.ok.inj h]
        exact ⟨a, secret, Algorithm.isValid_of_ofName? hname, rfl⟩

variable {r : Keyring}

/-- Keys that are written are added behind those that are there. -/
theorem restoreKeys_stored {keys : List Key} (hderived : ∀ k ∈ keys, k.IsDerived)
    (hdistinct : ((r.keys ++ keys).map Key.id).Nodup) :
    restoreKeys r (keys.map stored) = .ok { r with keys := r.keys ++ keys.map Key.unplaced } := by
  induction keys generalizing r with
  | nil => rw [List.map_nil, List.map_nil, List.append_nil, restoreKeys]
  | cons k rest ih =>
    have hfresh : r.find? k.id = none :=
      Keyring.find?_eq_none.2 (Key.id_notMem_of_distinct hdistinct List.mem_cons_self)
    have hadd : r.add k.unplaced = .ok { r with keys := r.keys ++ [k.unplaced] } := by
      rw [Keyring.add, show r.find? k.unplaced.id = none from hfresh]
    rw [List.map_cons, restoreKeys, readKey_stored (hderived k (by simp))]
    simp only [hadd]
    rw [ih fun k' hk' => hderived k' (List.mem_cons_of_mem _ hk')]
    · simp
    · simpa [Key.unplaced] using hdistinct

/-- Bindings that are written are filed as they were. -/
theorem restorePaths_bound {entries : List (List Part × Path × KeyId)}
    (hdistinct : (entries.map Prod.fst).Nodup) (hspelled : ∀ b ∈ entries, b.1 = b.2.1.parts)
    (hsound : ∀ b ∈ entries, (r.find? b.2.2).isSome) (hfresh : ∀ b ∈ entries, r.bindings.get? b.1 = none) :
    restorePaths r (entries.map fun b => bound b.2) =
      .ok { r with bindings := entries.foldl (fun m b => m.insert b.1 b.2) r.bindings } := by
  induction entries generalizing r with
  | nil => rw [List.map_nil, List.foldl_nil, restorePaths]
  | cons b rest ih =>
    obtain ⟨parts, path, id⟩ := b
    obtain ⟨key, hkey⟩ := Option.isSome_iff_exists.1 (hsound _ List.mem_cons_self)
    obtain rfl : parts = path.parts := hspelled _ List.mem_cons_self
    have hid : key.id = id := (Keyring.mem_of_find? hkey).2
    have hslot : r.bindings.get? path.parts = none := hfresh _ List.mem_cons_self
    have hbind : r.bindPath path key = .ok { r with bindings := r.bindings.insert path.parts (path, id) } := by
      unfold Keyring.bindPath
      rw [hid, hkey]
      simp only [hslot]
    rw [List.map_cons, List.nodup_cons] at hdistinct
    rw [List.map_cons, bound, restorePaths, KeyId.ofHex?_toHex]
    simp only [hkey, hbind, List.foldl_cons]
    refine ih hdistinct.2 (fun b hb => hspelled b (List.mem_cons_of_mem _ hb))
      (fun b hb => hsound b (List.mem_cons_of_mem _ hb)) fun b hb => ?_
    have hne : b.1 ≠ path.parts := fun he => hdistinct.1 (List.mem_map.2 ⟨b, hb, he⟩)
    show (r.bindings.insert _ _).get? _ = _
    rw [OrderedMap.get?_insert, if_neg fun he => hne (Std.LawfulEqCmp.eq_of_compare he)]
    exact hfresh b (List.mem_cons_of_mem _ hb)

/-- A keyring that can be kept is restored from what its entry says. -/
theorem restore_text (h : r.Storable) :
    restore ⟨r.keys.map stored, r.boundPaths.map bound⟩ = .ok r.unplaced := by
  have hkeys := @restoreKeys_stored Keyring.empty r.keys h.derived (by simpa [Keyring.empty] using h.distinct)
  have hpaths := @restorePaths_bound ⟨r.keys.map Key.unplaced, OrderedMap.empty⟩ r.bindings.entries
    r.bindings.nodup_keys h.spelled
    (fun b hb => by
      have hfind := h.sound b hb
      rw [Keyring.find?, List.find?_map]
      simpa [Keyring.find?, Function.comp_def, Key.unplaced] using hfind)
    fun b _ => rfl
  have hbindings : OrderedMap.ofList r.bindings.entries = r.bindings :=
    OrderedMap.ext (OrderedMap.entries_ofList r.bindings.ascending)
  rw [restore, hkeys, Keyring.boundPaths, List.map_map]
  refine hpaths.trans ?_
  show Except.ok (Keyring.mk _ (OrderedMap.ofList r.bindings.entries)) = _
  rw [hbindings]
  rfl

theorem storable_restoreKeys {keys : List (String × String)} {r' : Keyring} (h : r.Storable)
    (hr : restoreKeys r keys = .ok r') : r'.Storable := by
  induction keys generalizing r with
  | nil =>
    cases hr
    exact h
  | cons entry rest ih =>
    rw [restoreKeys] at hr
    cases hkey : readKey entry with
    | error e => rw [hkey] at hr; cases hr
    | ok key =>
      rw [hkey] at hr
      dsimp only at hr
      cases hadd : r.add key with
      | error e => rw [hadd] at hr; cases hr
      | ok r₁ =>
        rw [hadd] at hr
        exact ih (Keyring.storable_add h (isDerived_of_readKey hkey) hadd) hr

theorem storable_restorePaths {paths : List (Path × String)} {r' : Keyring} (h : r.Storable)
    (hr : restorePaths r paths = .ok r') : r'.Storable := by
  induction paths generalizing r with
  | nil =>
    cases hr
    exact h
  | cons entry rest ih =>
    rw [restorePaths] at hr
    split at hr
    · cases hr
    split at hr
    · exact ih h hr
    split at hr
    · cases hr
    · next hbind => exact ih (Keyring.storable_bindPath h hbind) hr

/-- Every keyring that comes out of an entry can be kept. -/
theorem storable_restore {entry : KeyringEntry} (h : entry.restore = .ok r) : r.Storable := by
  unfold restore at h
  cases hkeys : restoreKeys Keyring.empty entry.keys with
  | error e => rw [hkeys] at h; cases h
  | ok r₁ =>
    rw [hkeys] at h
    exact storable_restorePaths (storable_restoreKeys Keyring.storable_empty hkeys) h

end KeyringEntry

end KeyChain
