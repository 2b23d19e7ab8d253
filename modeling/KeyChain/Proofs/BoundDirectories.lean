import KeyChain.Proofs.DerivedKeys
import KeyChain.Proofs.Markers
import KeyChain.Proofs.VaultRuns
/-! What a bound directory covers. A key is bound to a directory in the entry of the root that is found from there,
   and looked up in the entry of the root that is found from the file. The two searches start at different places, so
   all depends on the first one's root being found by the second.

   1. `ancestors_of_isWithin`: from a file below a directory, the search passes the directory and goes on as from
      there;
   2. `nearest_append`, `pathKey?_bindPath`: on the way the first key is that of the directory;
   3. `runOn_setKey_ok`: what a machine is like after a key was bound;
   4. `setKey_covers`: when the same root is found then, and that the key is shown if it is. -/
namespace KeyChain

/-! The way up. -/

namespace Location

theorem ancestors_child (l : Location) (name : String) : (l.child name).ancestors = l.child name :: l.ancestors := by
  have hlength : (l.child name).names.length = l.names.length + 1 := List.length_append
  have hwhole : (l.child name).names.take (l.names.length + 1) = (l.child name).names :=
    List.take_of_length_le (Nat.le_of_eq hlength)
  unfold ancestors
  rw [hlength, List.range_succ, List.reverse_append, List.reverse_singleton, List.singleton_append, List.map_cons,
    hwhole]
  refine congrArg (l.child name :: ·) (List.map_congr_left fun n hn => ?_)
  have hle : n ≤ l.names.length := Nat.lt_succ_iff.1 (List.mem_range.1 (List.mem_reverse.1 hn))
  exact congrArg Location.mk (List.take_append_of_le_length hle)

theorem length_le_of_mem_ancestors {l x : Location} (h : x ∈ l.ancestors) : x.names.length ≤ l.names.length := by
  unfold ancestors at h
  obtain ⟨n, -, rfl⟩ := List.mem_map.1 h
  exact List.length_take_le' n l.names

theorem exists_ancestors_eq_cons (l : Location) : ∃ above, l.ancestors = l :: above := by
  unfold ancestors
  rw [List.range_succ, List.reverse_append, List.reverse_singleton, List.singleton_append, List.map_cons,
    List.take_length]
  exact ⟨_, rfl⟩

theorem isWithin_iff {l above : Location} : l.isWithin above = true ↔ above.names <+: l.names :=
  List.isPrefixOf_iff_prefix

/-- From a file below a directory the way up leads to the directory, and goes on as from there. -/
theorem ancestors_of_isWithin {l above : Location} (h : l.isWithin above = true) :
    ∃ below, l.ancestors = below ++ above.ancestors ∧
      ∀ x ∈ below, x.isWithin above = true ∧ above.names.length < x.names.length := by
  obtain ⟨names, hnames⟩ := isWithin_iff.1 h
  clear h
  induction names generalizing above with
  | nil =>
    obtain rfl : above = l := congrArg Location.mk ((List.append_nil _).symm.trans hnames)
    exact ⟨[], rfl, fun x hx => by cases hx⟩
  | cons name rest ih =>
    obtain ⟨below, hbelow, hwithin⟩ := @ih (above.child name) (by rw [← hnames]; simp [child])
    refine ⟨below ++ [above.child name], ?_, fun x hx => ?_⟩
    · rw [hbelow, ancestors_child, List.append_assoc]
      rfl
    · have hfirst : above.names <+: (above.child name).names := List.prefix_append _ _
      have hlength : (above.child name).names.length = above.names.length + 1 := List.length_append
      rcases List.mem_append.1 hx with hx | hx
      · obtain ⟨hx₁, hx₂⟩ := hwithin x hx
        exact ⟨isWithin_iff.2 (hfirst.trans (isWithin_iff.1 hx₁)), by omega⟩
      · obtain rfl := List.mem_singleton.1 hx
        exact ⟨isWithin_iff.2 hfirst, by omega⟩

end Location

/-! What the way up finds. -/

namespace Keyring

variable {r r' : Keyring} {path : Path} {key installed : Key}

/-- Where nothing is bound the search goes on. -/
theorem nearest_append {root : Location} {below : List Location}
    (h : ∀ x ∈ below, r.pathKey? x.path = none ∧ x ≠ root) (above : List Location) :
    r.nearest root (below ++ above) = r.nearest root above := by
  induction below with
  | nil => rfl
  | cons x rest ih =>
    obtain ⟨hnone, hne⟩ := h x List.mem_cons_self
    rw [List.cons_append, nearest, hnone]
    dsimp only
    rw [if_neg hne]
    exact ih fun y hy => h y (List.mem_cons_of_mem x hy)

theorem find?_unplaced (r : Keyring) (id : KeyId) : r.unplaced.find? id = (r.find? id).map Key.unplaced := by
  unfold find? unplaced
  rw [List.find?_map]
  rfl

theorem keys_ne_nil {id : KeyId} (h : r.find? id = some installed) : r.keys ≠ [] := by
  intro hnil
  rw [find?, hnil] at h
  cases h

/-- An installed key has a place. -/
theorem exists_keyAt?_of_find? {id : KeyId} (h : r.find? id = some installed) :
    ∃ i, r.indexOf? id = some i ∧ r.keyAt? i = some (installed.withIndex (UInt32.ofNat i)) := by
  obtain ⟨i, hi, hindex, hget⟩ := exists_indexOf? h
  refine ⟨i, hindex, ?_⟩
  rw [keyAt?, List.getElem?_eq_getElem hi, hget]
  rfl

/-- A path is bound to a key that is installed, and then it has that key. -/
theorem pathKey?_bindPath (h : r.bindPath path key = .ok r') :
    ∃ installed i, r.find? key.id = some installed ∧ r'.keys = r.keys ∧
      r'.pathKey? path = some (installed.withIndex i) := by
  unfold bindPath at h
  split at h
  · cases h
  · next installed hinstalled =>
    cases h
    obtain ⟨i, hindex, hkey⟩ := exists_keyAt?_of_find? hinstalled
    refine ⟨installed, UInt32.ofNat i, hinstalled, rfl, ?_⟩
    unfold pathKey?
    rw [OrderedMap.get?_insert, if_pos Std.ReflCmp.compare_self]
    show (r.indexOf? key.id).bind r.keyAt? = _
    rw [hindex]
    exact hkey

end Keyring

/-! Binding a key. -/

open KeyChain.Action

/-- A key that is read is derived. -/
theorem readKey_derives (p : KeyParams) (what : String) (verify : Bool) :
    Gives Key.IsDerived (readKey p what verify) := by
  have hload : ∀ passphrase, Gives Key.IsDerived (attempt (Key.load p passphrase)) := by
    intro passphrase
    refine gives_attempt ?_
    unfold Key.load
    split
    · exact .pure fun key h => Key.isDerived_of_derive h
    · exact .after fun content => .pure fun key h => Key.isDerived_of_derive h
  refine gives_bind fun _ => ?_
  split
  · exact hload _
  · exact gives_bind fun _ => hload _

/-- What a machine is like after a key was bound to a directory: there may be more files on the disk, and the entry of
    the root, which can be read, keeps the binding. The key under the identifier is the one that was there, if there
    was one. -/
structure Machine.Binds (m m' : Machine) (directory : Location) (key : Key) (before after : Keyring) : Prop where
  disk : m.disk.Extends m'.disk
  opening : m'.vaultFaults.opening = none
  getting : m'.vaultFaults.getting = none
  keptBefore : VaultKeyring.kept (m.rootOf directory).path.text (m.vault.get? (m.rootOf directory).path.text) = .ok before
  keptAfter : VaultKeyring.kept (m.rootOf directory).path.text (m'.vault.get? (m.rootOf directory).path.text) = .ok after
  installed : after.find? key.id = some ((before.find? key.id).getD key).unplaced
  bound : ∃ i, after.pathKey? directory.path = some (((before.find? key.id).getD key).withIndex i)

/-- A binding that was made was saved, since the keyring has a key. -/
theorem run_bindPath_ok {v v' : VaultKeyring} {m m' : Machine} {path : Path} {key : Key} {u : Unit}
    (h : (v.bindPath path key).run m = ((.ok u, v'), m')) :
    ∃ r, v.keyring.bindPath path key = .ok r ∧ m.vaultFaults.setting = none ∧
      m' = { m with vault := m.vault.insert v.root (KeyringEntry.text r) } := by
  obtain ⟨r, hr, -, hsaved⟩ := VaultKeyring.saved_of_run_commit h
  obtain ⟨installed, -, hinstalled, hkeys, -⟩ := Keyring.pathKey?_bindPath hr
  have hnonempty : r.keys ≠ [] := hkeys ▸ Keyring.keys_ne_nil hinstalled
  exact ⟨r, hr, hsaved hnonempty⟩

theorem run_add_ok {v v' : VaultKeyring} {m m' : Machine} {key : Key} {u : Unit}
    (h : (v.add key).run m = ((.ok u, v'), m')) :
    v.keyring.add key = .ok v'.keyring ∧ v'.root = v.root ∧ m'.disk = m.disk ∧ m'.vaultFaults = m.vaultFaults := by
  obtain ⟨r, hr, rfl, hsaved⟩ := VaultKeyring.saved_of_run_commit h
  obtain ⟨-, rfl⟩ := hsaved (Keyring.keys_ne_nil (Keyring.find?_add hr))
  exact ⟨hr, rfl, rfl, rfl⟩

theorem runOn_readKey_ok {p : KeyParams} {what : String} {verify : Bool} {m m' : Machine} {key : Key}
    (h : (readKey p what verify).runOn m = (.ok key, m')) :
    key.IsDerived ∧ ∃ answers prompts, m' = { m with answers := answers, prompts := prompts } := by
  have hgives : ∀ k, ((readKey p what verify).runOn m).1 = .ok k → k.IsDerived := (readKey_derives p what verify).run m
  have hasked : ∃ answers prompts, ((readKey p what verify).runOn m).2 =
      { m with answers := answers, prompts := prompts } := Program.Uses.run_inquiry (readKey_inquires p what verify) m
  rw [h] at hgives hasked
  exact ⟨hgives key rfl, hasked⟩

theorem runOn_connect_ok {root : Location} {m m' : Machine} {v : VaultKeyring}
    (h : (connect root).runOn m = (.ok v, m')) :
    m' = m ∧ m.vaultFaults.opening = none ∧ m.vaultFaults.getting = none ∧ v.root = root.path.text ∧
      VaultKeyring.kept root.path.text (m.vault.get? root.path.text) = .ok v.keyring := by
  unfold connect at h
  rw [runOn_attempt] at h
  cases hconnect : (VaultKeyring.connect root.path.text).run m with
  | mk result m₁ =>
    rw [hconnect] at h
    cases result with
    | error e => cases h
    | ok v' => cases h; exact VaultKeyring.readable_of_run_connect hconnect

/-- The line that shows the key of a file. -/
def keyLine (l : Location) (id : KeyId) (algorithm : Algorithm) : String :=
  let base := l.fileName?.getD l.path.text
  s!"Key({base}): {id} {algorithm.name}"

theorem runOn_showNode (l : Location) (key : Key) (m : Machine) :
    (showNode l (some key)).runOn m = (.ok (), { m with lines := m.lines ++ [keyLine l key.id key.algorithm] }) := rfl

/-- A command that binds a key ends well only if everything went well. -/
theorem runOn_setKey_ok {c : Config} {options : KeyOptions} {choice : ChainChoice} {add verbose : Bool} {path : Path}
    {m m' : Machine} {status : UInt8} (h : (setKey c options choice add verbose path).runOn m = (.ok status, m')) :
    ∃ (directory : Location) (key : Key) (before after : Keyring) (m₁ : Machine),
      status = 0 ∧ m.disk.realPath path = .ok directory ∧ m.disk.isDirectory directory.path = true ∧
      (readKey (options.params c.keys) "passphrase" false).runOn m = (.ok key, m₁) ∧
      m.Binds m' directory key before after ∧ (choice = .ignored → m'.disk = m.disk) ∧
      (choice ≠ .ignored → m.diskFaults.lock = none → m'.isMarked (m.rootOf directory) = true) := by
  obtain ⟨directory, m₀, hdirectory, h₁⟩ := runOn_bind_ok h
  obtain ⟨rfl, hpath, hisDirectory⟩ := directory_of_runOn_locateDirectory hdirectory
  obtain ⟨root, m₁, hroot, h₂⟩ := runOn_bind_ok h₁
  replace hroot := run_of_runOn_always hroot
  rw [run_findRoot] at hroot
  cases hroot
  obtain ⟨key, m₂, hkey, h₃⟩ := runOn_bind_ok h₂
  obtain ⟨chain, m₃, hchain, h₄⟩ := runOn_bind_ok h₃
  obtain ⟨v, m₄, hv, h₅⟩ := runOn_bind_ok h₄
  clear h h₁ h₂ h₃ h₄ hdirectory
  obtain ⟨hderived, answers, prompts, rfl⟩ := runOn_readKey_ok hkey
  obtain ⟨rfl, hgrown, hignored, hmarked⟩ := runOn_chainFor_ok hchain
  obtain ⟨rfl, hopening, hgetting, hroot, hkept⟩ := runOn_connect_ok hv
  extract_lets finished bound at h₅
  -- The binding comes last, be the key added before it or not.
  have hbound : ∀ (v₁ : VaultKeyring) (m₅ : Machine), (bound v₁).runOn m₅ = (.ok status, m') →
      status = 0 ∧ ∃ r, v₁.keyring.bindPath directory.path chain.root = .ok r ∧ m'.disk = m₅.disk ∧
        m'.vaultFaults = m₅.vaultFaults ∧ m'.vault.get? v₁.root = some (KeyringEntry.text r) := by
    intro v₁ m₅ h₆
    obtain ⟨_, v₂, m₆, hcommit, h₇⟩ := runOn_raised_ok h₆
    obtain ⟨r, hr, -, rfl⟩ := run_bindPath_ok hcommit
    have hentry : (m₅.vault.insert v₁.root (KeyringEntry.text r)).get? v₁.root = some (KeyringEntry.text r) := by
      rw [OrderedMap.get?_insert, if_pos Std.ReflCmp.compare_self]
    have hfinished : ∀ u m₁, (finished u).runOn m₁ = (.ok 0, m₁) := fun _ m₁ => runOn_pure 0 m₁
    split at h₇
    · rw [runOn_bind_of_ok (runOn_showNode _ _ _), hfinished ()] at h₇
      cases h₇
      exact ⟨rfl, r, hr, rfl, rfl, hentry⟩
    · rw [hfinished ()] at h₇
      cases h₇
      exact ⟨rfl, r, hr, rfl, rfl, hentry⟩
  have hstorable := VaultKeyring.storable_of_kept hkept
  have hready : ∃ (v₁ : VaultKeyring) (m₅ : Machine), (bound v₁).runOn m₅ = (.ok status, m') ∧ v₁.root = v.root ∧
      v₁.keyring.Storable ∧ m₅.disk = m₄.disk ∧ m₅.vaultFaults = m₄.vaultFaults ∧
      ∀ installed, v₁.keyring.find? chain.root.id = some installed →
        installed = (v.keyring.find? chain.root.id).getD chain.root := by
    split at h₅
    · obtain ⟨_, v₁, m₅, hcommit, h₆⟩ := runOn_raised_ok h₅
      obtain ⟨hadd, hroot₁, hdisk₁, hfaults₁⟩ := run_add_ok hcommit
      refine ⟨v₁, _, h₆, hroot₁, Keyring.storable_add hstorable hderived hadd, hdisk₁, hfaults₁, ?_⟩
      intro installed hinstalled
      exact Option.some.inj (hinstalled.symm.trans (Keyring.find?_add hadd))
    · refine ⟨v, m₄, h₅, rfl, hstorable, rfl, rfl, fun installed hinstalled => ?_⟩
      rw [hinstalled]
      rfl
  obtain ⟨v₁, m₅, h₆, hroot₁, hstorable₁, hdisk₁, hfaults₁, hinstalled₁⟩ := hready
  obtain ⟨rfl, r, hr, hdisk, hfaults, hentry⟩ := hbound v₁ m₅ h₆
  obtain ⟨installed, i, hinstalled, hkeys, hbind⟩ := Keyring.pathKey?_bindPath hr
  obtain rfl := hinstalled₁ installed hinstalled
  rw [hroot₁, hroot] at hentry
  have hfind : r.find? chain.root.id = some ((v.keyring.find? chain.root.id).getD chain.root) := by
    rw [Keyring.find?, hkeys]
    exact hinstalled
  refine ⟨directory, chain.root, v.keyring, r.unplaced, _, rfl, hpath, hisDirectory, hkey, ⟨?_, ?_, ?_, ?_, ?_, ?_, ?_⟩,
    fun hc => ?_, fun hc hfault => ?_⟩
  · rw [hdisk, hdisk₁]
    exact hgrown.disk
  · rw [hfaults, hfaults₁, hopening]
  · rw [hfaults, hfaults₁, hgetting]
  · rw [← hkept, hgrown.vault]
  · rw [hentry]
    exact VaultKeyring.kept_text (Keyring.storable_bindPath hstorable₁ hr) _
  · rw [Keyring.find?_unplaced, hfind]
    rfl
  · exact ⟨i, by rw [Keyring.pathKey?_unplaced]; exact hbind⟩
  · rw [hdisk, hdisk₁, hignored hc]
  · have hsame := hmarked hc hfault
    unfold Machine.isMarked at hsame ⊢
    rw [hdisk, hdisk₁]
    exact hsame

/-! Looking the key up. -/

/-- Once a file and its root are found, the entry of the root is asked for. -/
theorem runOn_getKey_found {m : Machine} {path : Path} {l : Location} (hpath : m.disk.realPath path = .ok l)
    (test : Bool) :
    (getKey test path).runOn m = (connect (m.rootOf l) >>= fun v => do
      let key := v.keyring.nodeKey (m.rootOf l) l
      if test then return if key.isSome then 0 else 1
      else
        showNode l key
        return 0).runOn m := by
  have hlocate : (locate path).runOn m = (.ok l, m) := by
    rw [runOn_locate, hpath]
    rfl
  have hroot : (always (findRoot l)).runOn m = (.ok (m.rootOf l), m) := by rw [runOn_always, run_findRoot]
  unfold getKey
  rw [runOn_bind_of_ok hlocate, runOn_bind_of_ok hroot]

/-- What the entry of a root gives when it can be opened and read. -/
theorem runOn_connect {m : Machine} (hopening : m.vaultFaults.opening = none) (hgetting : m.vaultFaults.getting = none)
    (root : Location) :
    (connect root).runOn m = (((VaultKeyring.kept root.path.text (m.vault.get? root.path.text)).map fun keyring =>
      ⟨root.path.text, keyring⟩).mapError Failure.keychain, m) := by
  unfold connect
  rw [runOn_attempt, VaultKeyring.run_connect_of_readable hopening hgetting]

/-- The key of a file is that of the keyring which the root found from there keeps. -/
theorem runOn_getKey {m : Machine} {path : Path} {l : Location} {r : Keyring} (hpath : m.disk.realPath path = .ok l)
    (hopening : m.vaultFaults.opening = none) (hgetting : m.vaultFaults.getting = none)
    (hkept : VaultKeyring.kept (m.rootOf l).path.text (m.vault.get? (m.rootOf l).path.text) = .ok r) (test : Bool) :
    (getKey test path).runOn m =
      if test then (.ok (if (r.nodeKey (m.rootOf l) l).isSome then 0 else 1), m)
      else (showNode l (r.nodeKey (m.rootOf l) l) >>= fun _ => pure 0).runOn m := by
  have hconnect : (connect (m.rootOf l)).runOn m = (.ok ⟨(m.rootOf l).path.text, r⟩, m) := by
    rw [runOn_connect hopening hgetting, hkept]
    rfl
  rw [runOn_getKey_found hpath, runOn_bind_of_ok hconnect]
  cases test <;> rfl

/-- Where the search passes the directory within its root, the directory's key is the key of the file. -/
theorem nodeKey_of_isWithin {r : Keyring} {root directory l : Location} {key : Key}
    (hroot : root.names.length ≤ directory.names.length) (hwithin : l.isWithin directory = true)
    (hbelow : ∀ x ∈ l.ancestors, x.isWithin directory = true → x ≠ directory → r.pathKey? x.path = none)
    (hbound : r.pathKey? directory.path = some key) : r.nodeKey root l = some key := by
  obtain ⟨below, hbelowEq, hbelowWithin⟩ := Location.ancestors_of_isWithin hwithin
  obtain ⟨above, habove⟩ := directory.exists_ancestors_eq_cons
  have hpassed : ∀ x ∈ below, r.pathKey? x.path = none ∧ x ≠ root := by
    intro x hx
    obtain ⟨hx₁, hx₂⟩ := hbelowWithin x hx
    refine ⟨hbelow x (hbelowEq ▸ List.mem_append_left _ hx) hx₁ ?_, ?_⟩
    · rintro rfl
      omega
    · rintro rfl
      omega
  rw [Keyring.nodeKey, hbelowEq, Keyring.nearest_append hpassed, habove, Keyring.nearest, hbound]

/-- A root is a directory on the way up, or without one the directory itself. -/
theorem length_rootOf_le {m : Machine} {directory : Location} (h : m.disk.isDirectory directory.path = true) :
    (m.rootOf directory).names.length ≤ directory.names.length := by
  unfold Machine.rootOf
  cases hfind : directory.ancestors.find? m.isMarked with
  | none => exact Nat.le_of_eq (by rw [Option.getD_none, if_pos h])
  | some root => exact Location.length_le_of_mem_ancestors (List.mem_of_find?_eq_some hfind)

/-- What is marked below a directory decides whether a search from there passes it. -/
theorem find?_of_isWithin {m : Machine} {directory l : Location} (hwithin : l.isWithin directory = true)
    (hbelow : ∀ x ∈ l.ancestors, x.isWithin directory = true → x ≠ directory → m.isMarked x = false) :
    l.ancestors.find? m.isMarked = directory.ancestors.find? m.isMarked := by
  obtain ⟨below, hbelowEq, hbelowWithin⟩ := Location.ancestors_of_isWithin hwithin
  have hnone : below.find? m.isMarked = none := by
    refine List.find?_eq_none.2 fun x hx => ?_
    obtain ⟨hx₁, hx₂⟩ := hbelowWithin x hx
    have hunmarked := hbelow x (hbelowEq ▸ List.mem_append_left _ hx) hx₁ (by rintro rfl; omega)
    rw [hunmarked]
    exact Bool.false_ne_true
  rw [hbelowEq, List.find?_append, hnone, Option.none_or]

/-- Whether the root of a directory is found from a file below it: the root is marked and nothing nearer is, or
    nothing is marked and the search ends at the directory. -/
def Machine.Leads (m : Machine) (root directory l : Location) : Prop :=
  directory.ancestors.find? m.isMarked = some root ∨
    directory.ancestors.find? m.isMarked = none ∧
      (l = directory ∨ l.parent = directory ∧ m.disk.isDirectory l.path = false)

theorem rootOf_eq_iff {m m' : Machine} {directory l : Location} (hdisk : m.disk.Extends m'.disk)
    (hdirectory : m.disk.isDirectory directory.path = true) (hwithin : l.isWithin directory = true)
    (hbelow : ∀ x ∈ l.ancestors, x.isWithin directory = true → x ≠ directory → m'.isMarked x = false) :
    m'.rootOf l = m.rootOf directory ↔ m'.Leads (m.rootOf directory) directory l := by
  unfold Machine.Leads
  have hfind := find?_of_isWithin hwithin hbelow
  cases hmarked : directory.ancestors.find? m'.isMarked with
  | some root =>
    have hroot : m'.rootOf l = root := by rw [Machine.rootOf, hfind, hmarked, Option.getD_some]
    rw [hroot]
    simp
  | none =>
    -- Nothing was marked before either, so the directory was its own root.
    have hself : m.rootOf directory = directory := by
      have hnone : directory.ancestors.find? m.isMarked = none := by
        refine List.find?_eq_none.2 fun x hx hx' => ?_
        exact List.find?_eq_none.1 hmarked x hx (Machine.isMarked_extends hdisk hx')
      rw [Machine.rootOf, hnone, Option.getD_none, if_pos hdirectory]
    have hroot : m'.rootOf l = if m'.disk.isDirectory l.path then l else l.parent := by
      rw [Machine.rootOf, hfind, hmarked, Option.getD_none]
    rw [hself, hroot]
    cases hkind : m'.disk.isDirectory l.path with
    | true => simp
    | false =>
      have hne : l ≠ directory := by
        rintro rfl
        rw [Disk.isDirectory_extends hdisk hdirectory] at hkind
        cases hkind
      simp [hne]

/-- A bound directory covers what is below it as far as its root is found from there. After a key was bound to a
    directory, be it with its chain or without and be it added before or not, take any file at or below the directory,
    with no marked directory and no bound path on the way. The root that is found from the file is the one in whose
    entry the key was bound if and only if that root is marked, with nothing nearer to the directory marked, or nothing
    upwards of the directory is marked and the file is the directory itself or a file in it. If it is found, the file
    has the key. The root is marked if the chain was looked up and the lock file could be made; without a look-up
    no marker is made. -/
theorem setKey_covers {c : Config} {options : KeyOptions} {choice : ChainChoice} {add verbose : Bool} {path : Path}
    {m m' : Machine} {status : UInt8} (h : (setKey c options choice add verbose path).runOn m = (.ok status, m')) :
    ∃ (directory : Location) (key : Key) (before after : Keyring) (m₁ : Machine),
      status = 0 ∧ m.disk.realPath path = .ok directory ∧
      (readKey (options.params c.keys) "passphrase" false).runOn m = (.ok key, m₁) ∧
      m.Binds m' directory key before after ∧
      (choice = .ignored → m'.disk = m.disk) ∧
      (choice ≠ .ignored → m.diskFaults.lock = none → m'.isMarked (m.rootOf directory) = true) ∧
      ∀ (file : Path) (l : Location), m'.disk.realPath file = .ok l → l.isWithin directory = true →
        (∀ x ∈ l.ancestors, x.isWithin directory = true → x ≠ directory →
          m'.isMarked x = false ∧ after.pathKey? x.path = none) →
        (m'.rootOf l = m.rootOf directory ↔ m'.Leads (m.rootOf directory) directory l) ∧
        (m'.Leads (m.rootOf directory) directory l →
          (getKey true file).runOn m' = (.ok 0, m') ∧
          (getKey false file).runOn m' =
            (.ok 0, { m' with
              lines := m'.lines ++ [keyLine l key.id ((before.find? key.id).getD key).algorithm] })) := by
  obtain ⟨directory, key, before, after, m₁, hstatus, hpath, hdirectory, hkey, hbinds, hignored, hmarked⟩ :=
    runOn_setKey_ok h
  refine ⟨directory, key, before, after, m₁, hstatus, hpath, hkey, hbinds, hignored, hmarked, ?_⟩
  intro file l hfile hwithin hbelow
  have hleads := rootOf_eq_iff hbinds.disk hdirectory hwithin fun x hx hx₁ hx₂ => (hbelow x hx hx₁ hx₂).1
  refine ⟨hleads, fun hled => ?_⟩
  have hroot := hleads.2 hled
  obtain ⟨i, hbound⟩ := hbinds.bound
  have hnode := nodeKey_of_isWithin (length_rootOf_le hdirectory) hwithin
    (fun x hx hx₁ hx₂ => (hbelow x hx hx₁ hx₂).2) hbound
  have hget := runOn_getKey hfile hbinds.opening hbinds.getting (r := after) (by rw [hroot]; exact hbinds.keptAfter)
  rw [hroot, hnode] at hget
  -- The key that is shown goes by the identifier it was looked up by.
  have hid : ((before.find? key.id).getD key).id = key.id := by
    have hfound := List.find?_some hbinds.installed
    exact beq_iff_eq.1 hfound
  refine ⟨(hget true).trans rfl, (hget false).trans ?_⟩
  have hline : keyLine l (((before.find? key.id).getD key).withIndex i).id
      (((before.find? key.id).getD key).withIndex i).algorithm =
        keyLine l key.id ((before.find? key.id).getD key).algorithm := congrArg (fun id => keyLine l id _) hid
  rw [if_neg Bool.false_ne_true, runOn_bind_of_ok (runOn_showNode _ _ _), runOn_pure, hline]

/-! A disk with one directory. -/

/-- A disk with a directory in the root directory. -/
def Disk.withSub : Disk := Disk.empty.put ⟨["sub"]⟩ .directory

/-- The same disk after a store was opened in the root directory. -/
def Disk.withMarkedSub : Disk := Disk.withSub.put ⟨[".kcfs-keychain.lock"]⟩ (.file 0 [])

theorem walk_sub {d : Disk} (h : d.node? ⟨["sub"]⟩ = some .directory) (aim : Disk.Aim) (links : Nat) :
    d.walk aim links Location.root [.part .root, .part (.name "sub")] = .ok ⟨⟨["sub"]⟩, some .directory⟩ := by
  have hchild : Location.root.child "sub" = ⟨["sub"]⟩ := rfl
  rw [Disk.walk, Disk.walk, if_neg (by simp), if_neg (by decide), hchild, h]
  dsimp only
  rw [Disk.walk]

theorem realPath_sub {d : Disk} (h : d.node? ⟨["sub"]⟩ = some .directory) : d.realPath ⟨"/sub"⟩ = .ok ⟨["sub"]⟩ := by
  have htrail : Disk.trail ⟨"/sub"⟩ = .ok [.part .root, .part (.name "sub")] := by rfl
  simp only [Disk.realPath, htrail]
  show (d.walk .target _ _ [.part .root, .part (.name "sub")] >>= _) = _
  rw [walk_sub h]
  rfl

theorem ancestors_sub : Location.ancestors ⟨["sub"]⟩ = [⟨["sub"]⟩, Location.root] := by decide

theorem path_sub : Location.path ⟨["sub"]⟩ = ⟨"/sub"⟩ := by decide

theorem hosts_sub {d : Disk} (h : d.node? ⟨["sub"]⟩ = some .directory)
    (hfree : ∀ n ∈ Disk.storeNames, d.node? ⟨["sub", n]⟩ = none) : d.Hosts (Location.path ⟨["sub"]⟩) ⟨["sub"]⟩ := by
  rw [path_sub]
  refine ⟨Disk.locate_ok_iff.2 ⟨by decide, by decide, by decide, ?_⟩, by decide, fun n hn => .inl (hfree n hn)⟩
  rw [show Disk.steps ⟨"/sub"⟩ = [.part .root, .part (.name "sub")] from by decide]
  exact walk_sub h _ _

theorem isMarked_sub {m : Machine} (h : m.disk.node? ⟨["sub"]⟩ = some .directory)
    (hfree : ∀ n ∈ Disk.storeNames, m.disk.node? ⟨["sub", n]⟩ = none) : m.isMarked ⟨["sub"]⟩ = false := by
  rw [isMarked_of_hosts (hosts_sub h hfree)]
  show ((m.disk.node? ⟨["sub", _]⟩).isSome || (m.disk.node? ⟨["sub", _]⟩).isSome) = false
  rw [hfree _ Store.lockName_mem, hfree _ Store.fileName_mem]
  rfl

theorem isMarked_slash {m : Machine} (hfree : ∀ n ∈ Disk.storeNames, m.disk.IsFree ⟨[n]⟩) :
    m.isMarked Location.root = ((m.disk.node? ⟨[Store.fileName ++ ".lock"]⟩).isSome ||
      (m.disk.node? ⟨[Store.fileName]⟩).isSome) := by
  refine isMarked_of_hosts ⟨Disk.locate_ok_iff.2 ⟨by decide, by decide, by decide, ?_⟩, by decide, hfree⟩
  rw [show Disk.steps Location.root.path = [.part .root, .slash] from by decide, Disk.walk, Disk.walk, Disk.walk]

theorem isMarked_withSub {m : Machine} (h : m.disk = Disk.withSub) :
    m.isMarked Location.root = false ∧ m.isMarked ⟨["sub"]⟩ = false := by
  have hfree : ∀ n ∈ Disk.storeNames, Disk.withSub.node? ⟨[n]⟩ = none := by decide
  constructor
  · rw [isMarked_slash fun n hn => .inl (h ▸ hfree n hn), h]
    decide
  · exact isMarked_sub (h ▸ by rfl) (h ▸ by decide)

theorem isMarked_withMarkedSub {m : Machine} (h : m.disk = Disk.withMarkedSub) :
    m.isMarked Location.root = true ∧ m.isMarked ⟨["sub"]⟩ = false := by
  have hfree : ∀ n ∈ Disk.storeNames, Disk.withMarkedSub.IsFree ⟨[n]⟩ := by
    intro n hn
    simp only [Disk.storeNames, List.mem_cons, List.not_mem_nil, or_false] at hn
    rcases hn with rfl | rfl | rfl
    · exact .inl (by decide)
    · exact .inr ⟨0, [], by decide⟩
    · exact .inl (by decide)
  constructor
  · rw [isMarked_slash fun n hn => h ▸ hfree n hn, h]
    decide
  · exact isMarked_sub (h ▸ by rfl) (h ▸ by decide)

/-- The keyring of a root to which its only key is bound. -/
def Keyring.onlyRoot (key : Key) : Keyring := ⟨[key], OrderedMap.empty.insert [.root] (⟨"/"⟩, key.id)⟩

theorem Keyring.bindPath_onlyRoot (key : Key) :
    (⟨[key], OrderedMap.empty⟩ : Keyring).bindPath Location.root.path key = .ok (.onlyRoot key) := by
  have hfind : (⟨[key], OrderedMap.empty⟩ : Keyring).find? key.id = some key := by simp [find?]
  have hparts : Location.root.path.parts = [.root] := by decide
  unfold bindPath
  rw [hfind, hparts]
  rfl

theorem Keyring.storable_onlyRoot {key : Key} (h : key.IsDerived) : (onlyRoot key).Storable := by
  have hadd : empty.add key = .ok ⟨[key], OrderedMap.empty⟩ := rfl
  exact storable_bindPath (storable_add storable_empty h hadd) (bindPath_onlyRoot key)

theorem Keyring.pathKey?_onlyRoot_sub (key : Key) : (onlyRoot key).unplaced.pathKey? ⟨"/sub"⟩ = none := by
  have hslot : (onlyRoot key).bindings.get? (Path.parts ⟨"/sub"⟩) = none := by
    show (OrderedMap.insert OrderedMap.empty [Part.root] _).get? _ = none
    rw [OrderedMap.get?_insert, if_neg (by decide)]
    rfl
  unfold pathKey?
  show ((onlyRoot key).bindings.get? _).bind _ = none
  rw [hslot]
  rfl

/-- What the vault keeps once a key was added for the root directory and bound to it. -/
def boundVault (vault : OrderedMap String String) (key : Key) : OrderedMap String String :=
  (vault.insert "/" (KeyringEntry.text ⟨[key], OrderedMap.empty⟩)).insert "/" (KeyringEntry.text (.onlyRoot key))

theorem get?_boundVault (vault : OrderedMap String String) (key : Key) (root : String) :
    (boundVault vault key).get? root =
      if root = "/" then some (KeyringEntry.text (.onlyRoot key)) else vault.get? root := by
  unfold boundVault
  rw [OrderedMap.get?_insert, OrderedMap.get?_insert]
  by_cases hroot : root = "/"
  · rw [if_pos hroot, hroot, if_pos Std.ReflCmp.compare_self]
  · have hne : ¬ compare root "/" = .eq := fun he => hroot (Std.LawfulEqCmp.eq_of_compare he)
    rw [if_neg hroot, if_neg hne, if_neg hne]

/-- Without a look-up a key is added and bound, and nothing else is done. -/
theorem runOn_setKey_slash {m m₁ : Machine} {c : Config} {options : KeyOptions} {key : Key}
    (hread : (readKey (options.params c.keys) "passphrase" false).runOn m = (.ok key, m₁))
    (hentry : m₁.vault.get? "/" = none) (hfaults : m₁.vaultFaults = {}) :
    (setKey c options .ignored true false ⟨"/"⟩).runOn m =
      (.ok 0, { m₁ with vault := boundVault m₁.vault key }) := by
  have hroot : (always (findRoot Location.root)).runOn m = (.ok Location.root, m) := by
    rw [runOn_always, run_findRoot, rootOf_root]
  have hconnect : (connect Location.root).runOn m₁ = (.ok ⟨"/", Keyring.empty⟩, m₁) := by
    have hentry' : m₁.vault.get? Location.root.path.text = none := hentry
    unfold connect
    rw [runOn_attempt, VaultKeyring.run_connect hfaults, hentry']
    rfl
  have hadd : (always ((⟨"/", Keyring.empty⟩ : VaultKeyring).add key)).runOn m₁ =
      (.ok (.ok (), ⟨"/", ⟨[key], OrderedMap.empty⟩⟩),
        { m₁ with vault := m₁.vault.insert "/" (KeyringEntry.text ⟨[key], OrderedMap.empty⟩) }) := by
    have hkeys : (⟨[key], OrderedMap.empty⟩ : Keyring).keys ≠ [] := List.cons_ne_nil _ _
    have hcommit := VaultKeyring.run_commit_of_writable (m := m₁) (by rw [hfaults]) ⟨"/", Keyring.empty⟩ hkeys
    exact (runOn_always _ _).trans (congrArg (fun outcome => (Except.ok outcome.1, outcome.2)) hcommit)
  have hbind : (always ((⟨"/", ⟨[key], OrderedMap.empty⟩⟩ : VaultKeyring).bindPath Location.root.path key)).runOn
      { m₁ with vault := m₁.vault.insert "/" (KeyringEntry.text ⟨[key], OrderedMap.empty⟩) } =
        (.ok (.ok (), ⟨"/", .onlyRoot key⟩), { m₁ with vault := boundVault m₁.vault key }) := by
    rw [runOn_always, VaultKeyring.bindPath, Keyring.bindPath_onlyRoot,
      VaultKeyring.run_commit_of_writable (by rw [hfaults]) _ (by simp [Keyring.onlyRoot])]
    rfl
  unfold setKey
  rw [runOn_bind_of_ok (runOn_locateDirectory_slash m), runOn_bind_of_ok hroot, runOn_bind_of_ok hread]
  show ((pure (Chain.single key) : Action Chain) >>= _).runOn _ = _
  rw [runOn_bind_of_ok (runOn_pure _ _), runOn_bind_of_ok hconnect]
  extract_lets finished bound
  rw [if_pos rfl]
  have hsecond : (bound ⟨"/", ⟨[key], OrderedMap.empty⟩⟩).runOn
      { m₁ with vault := m₁.vault.insert "/" (KeyringEntry.text ⟨[key], OrderedMap.empty⟩) } =
        (.ok 0, { m₁ with vault := boundVault m₁.vault key }) := runOn_bind_of_ok hbind _
  exact (runOn_bind_of_ok hadd _).trans hsecond

/-- The root directory was marked, so a key that is bound to it covers the directory in it. -/
theorem setKey_covers_sub :
    let m : Machine := { Machine.new Disk.withMarkedSub with answers := [some "alpha"] }
    ∃ (key : Key) (m' : Machine),
      (setKey Config.quick KeyOptions.unset .ignored true false ⟨"/"⟩).runOn m = (.ok 0, m') ∧
      m'.rootOf ⟨["sub"]⟩ = Location.root ∧
      (getKey false ⟨"/sub"⟩).runOn m' =
        (.ok 0, { m' with lines := m'.lines ++ [keyLine ⟨["sub"]⟩ key.id key.algorithm] }) := by
  intro m
  obtain ⟨key, hread⟩ := exists_readKey_quick (m := m) rfl
  have hset := runOn_setKey_slash hread rfl rfl
  obtain ⟨directory, key', before, after, m₁, -, hpath, hread', hbinds, -, -, hcovers⟩ := setKey_covers hset
  rw [realPath_slash] at hpath
  cases hpath
  rw [hread] at hread'
  obtain ⟨hkey, rfl⟩ := Prod.mk.inj hread'
  obtain rfl := Except.ok.inj hkey
  have hbefore : VaultKeyring.kept "/" (m.vault.get? "/") = .ok before := by
    rw [← hbinds.keptBefore, rootOf_root]
    rfl
  have hafter : VaultKeyring.kept "/" ((boundVault m.vault key).get? "/") = .ok after := by
    rw [← hbinds.keptAfter, rootOf_root]
    rfl
  rw [get?_boundVault, if_pos rfl, VaultKeyring.kept_text (Keyring.storable_onlyRoot (runOn_readKey_ok hread).1)]
    at hafter
  obtain rfl := Except.ok.inj hafter
  obtain rfl : Keyring.empty = before := Except.ok.inj hbefore
  obtain ⟨hmarked, hunmarked⟩ := isMarked_withMarkedSub
    (m := { m with answers := [], prompts := ["Enter passphrase: "], vault := boundVault m.vault key }) rfl
  obtain ⟨hroot, hshown⟩ := hcovers ⟨"/sub"⟩ ⟨["sub"]⟩ (realPath_sub (by rfl)) (by decide) (by
    intro x hx hx₁ hx₂
    rw [ancestors_sub, List.mem_cons, List.mem_singleton] at hx
    obtain rfl := hx.resolve_right hx₂
    rw [path_sub]
    exact ⟨hunmarked, Keyring.pathKey?_onlyRoot_sub key⟩)
  have hleads : Machine.Leads
      { m with answers := [], prompts := ["Enter passphrase: "], vault := boundVault m.vault key }
      (m.rootOf Location.root) Location.root ⟨["sub"]⟩ := by
    left
    rw [rootOf_root]
    exact List.find?_cons_of_pos hmarked
  exact ⟨key, _, hset, (hroot.2 hleads).trans (rootOf_root m), (hshown hleads).2⟩

/-- Where nothing is marked the directory is its own root, and the entry of the root directory says nothing about
    it. -/
theorem runOn_getKey_sub {m : Machine} {key : Key} (hdisk : m.disk = Disk.withSub)
    (hvault : m.vault = boundVault OrderedMap.empty key) (hfaults : m.vaultFaults = {}) :
    m.rootOf ⟨["sub"]⟩ = ⟨["sub"]⟩ ∧
      (getKey false ⟨"/sub"⟩).runOn m = (.ok 0, { m with lines := m.lines ++ ["Key(sub): <not specified>"] }) := by
  obtain ⟨hunmarked, hunmarkedSub⟩ := isMarked_withSub hdisk
  have hdirectory : m.disk.isDirectory (Location.path ⟨["sub"]⟩) = true := by
    rw [hdisk, Disk.isDirectory, (hosts_sub (by rfl) (by decide)).directory]
  have hroot : m.rootOf ⟨["sub"]⟩ = ⟨["sub"]⟩ := by
    rw [Machine.rootOf, ancestors_sub, List.find?_cons_of_neg (by rw [hunmarkedSub]; decide),
      List.find?_cons_of_neg (by rw [hunmarked]; decide), List.find?_nil, Option.getD_none, if_pos hdirectory]
  have hkept : VaultKeyring.kept (Location.path ⟨["sub"]⟩).text (m.vault.get? (Location.path ⟨["sub"]⟩).text) =
      .ok Keyring.empty := by
    rw [hvault, get?_boundVault, if_neg (by decide)]
    rfl
  have hnode : Keyring.empty.nodeKey ⟨["sub"]⟩ ⟨["sub"]⟩ = none := by
    rw [Keyring.nodeKey, ancestors_sub]
    rfl
  have hget := runOn_getKey (m := m) (realPath_sub (by rw [hdisk]; rfl)) (by rw [hfaults]) (by rw [hfaults])
    (by rw [hroot]; exact hkept) false
  rw [hroot, hnode] at hget
  exact ⟨hroot, hget.trans rfl⟩

/-- The root directory was not marked, and a key that is bound to it without a look-up does not cover the directory
    in it. -/
theorem setKey_misses_sub :
    let m : Machine := { Machine.new Disk.withSub with answers := [some "alpha"] }
    ∃ (key : Key) (m' : Machine),
      (setKey Config.quick KeyOptions.unset .ignored true false ⟨"/"⟩).runOn m = (.ok 0, m') ∧
      VaultKeyring.kept "/" (m'.vault.get? "/") = .ok (Keyring.onlyRoot key).unplaced ∧
      m'.disk.realPath ⟨"/sub"⟩ = .ok ⟨["sub"]⟩ ∧ m'.isMarked ⟨["sub"]⟩ = false ∧
      (Keyring.onlyRoot key).unplaced.pathKey? ⟨"/sub"⟩ = none ∧ m'.rootOf ⟨["sub"]⟩ ≠ m.rootOf Location.root ∧
      (getKey false ⟨"/sub"⟩).runOn m' = (.ok 0, { m' with lines := m'.lines ++ ["Key(sub): <not specified>"] }) := by
  intro m
  obtain ⟨key, hread⟩ := exists_readKey_quick (m := m) rfl
  have hset := runOn_setKey_slash hread rfl rfl
  refine ⟨key, _, hset, ?_, realPath_sub (by rfl), (isMarked_withSub rfl).2, Keyring.pathKey?_onlyRoot_sub key, ?_,
    (runOn_getKey_sub rfl rfl rfl).2⟩
  · show VaultKeyring.kept "/" ((boundVault m.vault key).get? "/") = _
    rw [get?_boundVault, if_pos rfl]
    exact VaultKeyring.kept_text (Keyring.storable_onlyRoot (runOn_readKey_ok hread).1) "/"
  · rw [rootOf_root]
    exact fun he => absurd ((runOn_getKey_sub rfl rfl rfl).1.symm.trans he) (by decide)

end KeyChain
