import KeyChain.Chain
/-! Keyrings: installed keys in the order they were added, and bindings of paths to them. Paths are
   compared by their parts, and a binding keeps the spelling that was used first. A key takes its
   bindings with it when it is removed, so every binding names an installed key
   (`Keyring.Sound`). A chain is installed key by key up to the first failure, and removed key by
   key past all failures. -/
namespace KeyChain

structure Keyring where
  keys : List Key
  bindings : OrderedMap (List Part) (Path × KeyId)

namespace Keyring

def empty : Keyring := ⟨[], OrderedMap.empty⟩

/-- The installed key of an identifier. -/
def find? (r : Keyring) (id : KeyId) : Option Key := r.keys.find? fun k => k.id == id

/-- The place of a key. -/
def indexOf? (r : Keyring) (id : KeyId) : Option Nat := r.keys.findIdx? fun k => k.id == id

/-- The key at a place, which knows its place. -/
def keyAt? (r : Keyring) (index : Nat) : Option Key :=
  (r.keys[index]?).map fun k => k.withIndex (UInt32.ofNat index)

/-- All keys with their places. -/
def listed (r : Keyring) : List Key := (List.range r.keys.length).filterMap r.keyAt?

/-- Adds a key. One that is there already is left alone. -/
def add (r : Keyring) (key : Key) : Except KeychainError Keyring :=
  match r.find? key.id with
  | none => .ok { r with keys := r.keys ++ [key] }
  | some installed =>
    match installed.isSame key with
    | .error e => .error e
    | .ok true => .ok r
    | .ok false => .error (.keyring (.alreadyInstalled key.id))

/-- Removes a key and its bindings. -/
def remove (r : Keyring) (key : Key) : Except KeychainError Keyring :=
  match r.find? key.id with
  | none => .error (.notFound key.id)
  | some _ =>
    .ok ⟨r.keys.eraseP fun k => k.id == key.id, r.bindings.filter fun b => b.2.2 != key.id⟩

/-- Binds a path to an installed key. -/
def bindPath (r : Keyring) (path : Path) (key : Key) : Except KeychainError Keyring :=
  match r.find? key.id with
  | none => .error (.notFound key.id)
  | some _ =>
    let spelling :=
      match r.bindings.get? path.parts with
      | some (first, _) => first
      | none => path
    .ok { r with bindings := r.bindings.insert path.parts (spelling, key.id) }

/-- The key that a path is bound to. -/
def pathKey? (r : Keyring) (path : Path) : Option Key :=
  (r.bindings.get? path.parts).bind fun (_, id) => (r.indexOf? id).bind r.keyAt?

/-- Paths and the identifiers they are bound to, in the order of the paths. -/
def boundPaths (r : Keyring) : List (Path × KeyId) := r.bindings.entries.map (·.2)

/-- The number of leading keys of a list that are installed. -/
def countLeading (r : Keyring) (keys : List Key) : Nat :=
  (keys.takeWhile fun k => (r.find? k.id).isSome).length

/-- Every binding names an installed key. -/
def Sound (r : Keyring) : Prop := ∀ b ∈ r.bindings.entries, (r.find? b.2.2).isSome

theorem sound_empty : empty.Sound := nofun

theorem sound_add {r r' : Keyring} {key : Key} (h : r.Sound) (ha : r.add key = .ok r') :
    r'.Sound := by
  unfold add at ha
  split at ha
  · cases ha
    intro b hb
    have := h b hb
    simp only [find?, List.find?_append, Option.isSome_or] at this ⊢
    simp [this]
  · split at ha <;> cases ha
    exact h

theorem find?_eraseP_of_ne {id id' : KeyId} (h : id' ≠ id) (keys : List Key) :
    (keys.eraseP fun k => k.id == id).find? (fun k => k.id == id') =
      keys.find? fun k => k.id == id' := by
  induction keys with
  | nil => rfl
  | cons k rest ih =>
    by_cases hk : k.id = id
    · simp [hk, h.symm]
    · simp [hk, List.find?_cons, ih]

theorem sound_remove {r r' : Keyring} {key : Key} (h : r.Sound) (hr : r.remove key = .ok r') :
    r'.Sound := by
  unfold remove at hr
  split at hr <;> cases hr
  intro b hb
  obtain ⟨hb, hne⟩ := List.mem_filter.1 hb
  have := h b hb
  simp only [find?] at this ⊢
  rwa [find?_eraseP_of_ne (by simpa using hne)]

theorem sound_bindPath {r r' : Keyring} {path : Path} {key : Key} (h : r.Sound)
    (hb : r.bindPath path key = .ok r') : r'.Sound := by
  unfold bindPath at hb
  split at hb
  · cases hb
  · next k hk =>
    cases hb
    intro b hb
    rcases OrderedMap.mem_place hb with rfl | hb
    · exact Option.isSome_iff_exists.2 ⟨k, hk⟩
    · exact h b hb

end Keyring

/-- A keyring with room for a limited number of keys. -/
structure BoundedKeyring where
  keyring : Keyring
  capacity : Option Nat

namespace BoundedKeyring

/-- Adds a key, if there is room for one more. -/
def add (r : BoundedKeyring) (key : Key) : Except KeychainError BoundedKeyring :=
  if r.capacity.any fun limit => limit ≤ r.keyring.keys.length then .error (.keyring .full)
  else
    match r.keyring.add key with
    | .error e => .error e
    | .ok keyring => .ok { r with keyring := keyring }

def remove (r : BoundedKeyring) (key : Key) : Except KeychainError BoundedKeyring :=
  match r.keyring.remove key with
  | .error e => .error e
  | .ok keyring => .ok { r with keyring := keyring }

end BoundedKeyring

/-! Chains and keyrings. The keyring is whatever the effect `m` acts on. -/

/-- An update as an effect: a failure leaves the state as it was. -/
def updating {σ : Type} (f : σ → Except KeychainError σ) : StateM σ (Except KeychainError Unit) :=
  fun s =>
    match f s with
    | .ok s' => (.ok (), s')
    | .error e => (.error e, s)

/-- Adds keys one after the other, up to the first failure. -/
def installKeys {m : Type → Type} [Monad m] (add : Key → m (Except KeychainError Unit)) :
    List Key → m (Except KeychainError Unit)
  | [] => pure (.ok ())
  | key :: rest => do
    match ← add key with
    | .error e => pure (.error e)
    | .ok () => installKeys add rest

/-- Removes keys one after the other, and lists those that could not be removed. -/
def removeKeys {m : Type → Type} [Monad m] (remove : Key → m (Except KeychainError Unit)) :
    List Key → m (List (KeyId × KeychainError))
  | [] => pure []
  | key :: rest => do
    let result ← remove key
    let failures ← removeKeys remove rest
    match result with
    | .ok () => pure failures
    | .error e => pure ((key.id, e) :: failures)

namespace Chain

/-- Installs the keys of a chain and counts them. -/
def install {m : Type → Type} [Monad m] (add : Key → m (Except KeychainError Unit)) (c : Chain) :
    m (Except KeychainError Nat) := do
  match ← installKeys add c.keys with
  | .error e => pure (.error e)
  | .ok () => pure (.ok c.length)

/-- Removes the keys of a chain. -/
def uninstall {m : Type → Type} [Monad m] (remove : Key → m (Except KeychainError Unit)) (c : Chain) :
    m (List (KeyId × KeychainError)) :=
  removeKeys remove c.keys

end Chain

end KeyChain
