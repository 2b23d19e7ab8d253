import KeyChain.Proofs.BoundDirectories
import KeyChain.Proofs.FoundPlaces
import Mathlib.Data.List.Induction
/-! The key that is shown for a file. Two searches go up from it: the first stops at a directory with a store, the
   second at a bound path, and in any case at the root that the first one found. So bindings within the root count,
   the deepest first, that of the root included, and no binding above it does.

   1. `IsDeepest`, `isDeepest_of_find?`: what a search upwards finds;
   2. `rootOf_cases`: the root is on the way up, also where nothing is marked;
   3. `nearest_congr`, `deepestKey_nodeKey`: the search for a key comes to the root, and does not look beyond it;
   4. `getKey_nearest`: both searches in terms of the tree and of the entry. -/
namespace KeyChain

namespace Location

variable {l x y : Location} {p q : Location → Prop}

/-- Whether a location is the deepest with a property on the way up. -/
structure IsDeepest (p : Location → Prop) (l x : Location) : Prop where
  above : l.isWithin x = true
  holds : p x
  deepest : ∀ y, l.isWithin y = true → p y → x.isWithin y = true

/-- From the root downwards. -/
theorem downwards {motive : Location → Prop} (root : motive root)
    (child : ∀ l n, motive l → motive (l.child n)) (l : Location) : motive l := by
  obtain ⟨names⟩ := l
  induction names using List.reverseRecOn with
  | nil => exact root
  | append_singleton names n ih => exact child ⟨names⟩ n ih

theorem isWithin_refl (l : Location) : l.isWithin l = true := isWithin_iff.2 List.prefix_rfl

theorem isWithin_trans (h : l.isWithin x = true) (h' : x.isWithin y = true) : l.isWithin y = true :=
  isWithin_iff.2 ((isWithin_iff.1 h').trans (isWithin_iff.1 h))

theorem isWithin_antisymm (h : l.isWithin x = true) (h' : x.isWithin l = true) : l = x :=
  congrArg Location.mk ((isWithin_iff.1 h').eq_of_length_le (isWithin_iff.1 h).length_le)

theorem isWithin_parent (l : Location) : l.isWithin l.parent = true := isWithin_iff.2 (List.dropLast_prefix l.names)

/-- What is above a name in a directory is above the directory, the name itself apart. -/
theorem isWithin_child {n : String} : (l.child n).isWithin x = true ↔ x = l.child n ∨ l.isWithin x = true := by
  rw [isWithin_iff, isWithin_iff, show (l.child n).names = l.names ++ [n] from rfl, List.prefix_concat_iff]
  refine or_congr_left ⟨fun h => congrArg Location.mk h, fun h => congrArg Location.names h⟩

theorem mem_ancestors : x ∈ l.ancestors ↔ l.isWithin x = true := by
  induction l using downwards with
  | root =>
    have hroot : Location.root.ancestors = [Location.root] := rfl
    rw [hroot, List.mem_singleton, isWithin_iff]
    exact ⟨fun h => h ▸ List.prefix_rfl, fun h => congrArg Location.mk (List.prefix_nil.1 h)⟩
  | child l n ih => rw [ancestors_child, List.mem_cons, isWithin_child, ih]

theorem IsDeepest.unique (h : l.IsDeepest p x) (h' : l.IsDeepest p y) : x = y :=
  isWithin_antisymm (h.deepest y h'.above h'.holds) (h'.deepest x h.above h.holds)

theorem IsDeepest.congr (h : l.IsDeepest p x) (hpq : ∀ y, l.isWithin y = true → (p y ↔ q y)) : l.IsDeepest q x :=
  ⟨h.above, (hpq x h.above).1 h.holds, fun y hy hq => h.deepest y hy ((hpq y hy).2 hq)⟩

/-- A search upwards finds the deepest. -/
theorem isDeepest_of_find? {found : Location → Bool} (h : l.ancestors.find? found = some x) :
    l.IsDeepest (found · = true) x := by
  induction l using downwards with
  | root =>
    have hroot : Location.root.ancestors = [Location.root] := rfl
    have hmem := List.mem_of_find?_eq_some h
    rw [hroot, List.mem_singleton] at hmem
    subst hmem
    exact ⟨isWithin_refl _, List.find?_some h, fun y hy _ => hy⟩
  | child l n ih =>
    rw [ancestors_child, List.find?_cons] at h
    split at h
    · next hfound =>
      cases h
      exact ⟨isWithin_refl _, hfound, fun y hy _ => hy⟩
    · next hfound =>
      have hdeepest := ih h
      refine ⟨isWithin_child.2 (.inr hdeepest.above), hdeepest.holds, fun y hy hp => ?_⟩
      rcases isWithin_child.1 hy with rfl | hy
      · rw [hfound] at hp
        cases hp
      · exact hdeepest.deepest y hy hp

/-- A search upwards finds the deepest, or there is none. -/
theorem find?_ancestors (l : Location) (found : Location → Bool) :
    (∃ x, l.ancestors.find? found = some x ∧ l.IsDeepest (found · = true) x) ∨
      l.ancestors.find? found = none ∧ ∀ x, l.isWithin x = true → found x = false := by
  cases hfind : l.ancestors.find? found with
  | some x => exact .inl ⟨x, rfl, isDeepest_of_find? hfind⟩
  | none =>
    refine .inr ⟨rfl, fun x hx => ?_⟩
    exact Bool.not_eq_true _ ▸ List.find?_eq_none.1 hfind x (mem_ancestors.2 hx)

end Location

/-- The root of a file is the deepest marked directory on the way up from it, or without one the directory that the
    file is or is in. -/
theorem rootOf_cases (m : Machine) (l : Location) :
    l.isWithin (m.rootOf l) = true ∧
      (l.IsDeepest (m.isMarked · = true) (m.rootOf l) ∨
        (∀ x, l.isWithin x = true → m.isMarked x = false) ∧
          m.rootOf l = if m.disk.isDirectory l.path then l else l.parent) := by
  unfold Machine.rootOf
  rcases l.find?_ancestors m.isMarked with ⟨root, hfind, hdeepest⟩ | ⟨hfind, hnone⟩
  · rw [hfind]
    exact ⟨hdeepest.above, .inl hdeepest⟩
  · rw [hfind]
    refine ⟨?_, .inr ⟨hnone, rfl⟩⟩
    rw [Option.getD_none]
    split
    · exact l.isWithin_refl
    · exact l.isWithin_parent

namespace Keyring

variable {r r' : Keyring} {root l x : Location}

/-- Whether a location is within a root and its path is bound. -/
def BindsWithin (r : Keyring) (root x : Location) : Prop :=
  x.isWithin root = true ∧ (r.bindings.get? x.path.parts).isSome = true

/-- Whether a key, or none, is what the deepest binding within a root leads to: the installed key of its identifier,
    which knows its place. -/
inductive DeepestKey (r : Keyring) (root l : Location) : Option Key → Prop where
  | bound {x : Location} {spelling : Path} {id : KeyId} {key : Key} {i : Nat} :
      l.IsDeepest (r.BindsWithin root) x → r.bindings.get? x.path.parts = some (spelling, id) →
        r.find? id = some key → r.indexOf? id = some i →
          DeepestKey r root l (some (key.withIndex (UInt32.ofNat i)))
  | unbound : (∀ x, l.isWithin x = true → ¬ r.BindsWithin root x) → DeepestKey r root l none

/-- There is one such key at most. -/
theorem DeepestKey.unique {key? key?' : Option Key} (h : r.DeepestKey root l key?) (h' : r.DeepestKey root l key?') :
    key? = key?' := by
  cases h with
  | unbound hnone =>
    cases h' with
    | unbound => rfl
    | bound hdeepest' => exact absurd hdeepest'.holds (hnone _ hdeepest'.above)
  | bound hdeepest hbound hkey hindex =>
    cases h' with
    | unbound hnone => exact absurd hdeepest.holds (hnone _ hdeepest.above)
    | bound hdeepest' hbound' hkey' hindex' =>
      obtain rfl := hdeepest.unique hdeepest'
      cases hbound.symm.trans hbound'
      cases hkey.symm.trans hkey'
      cases hindex.symm.trans hindex'
      rfl

/-- A bound path leads to the installed key of its identifier, which knows its place. -/
theorem pathKey?_of_get? {path spelling : Path} {id : KeyId} (hsound : r.Sound)
    (hbound : r.bindings.get? path.parts = some (spelling, id)) :
    ∃ key i, r.find? id = some key ∧ r.indexOf? id = some i ∧
      r.pathKey? path = some (key.withIndex (UInt32.ofNat i)) := by
  obtain ⟨key, hkey⟩ := Option.isSome_iff_exists.1 (hsound _ (OrderedMap.mem_of_lookup hbound))
  obtain ⟨i, hindex, hplace⟩ := exists_keyAt?_of_find? hkey
  refine ⟨key, i, hkey, hindex, ?_⟩
  rw [pathKey?, hbound, Option.bind_some]
  exact (congrArg (Option.bind · r.keyAt?) hindex).trans hplace

theorem pathKey?_eq_none {path : Path} (hunbound : r.bindings.get? path.parts = none) : r.pathKey? path = none := by
  rw [pathKey?, hunbound]
  rfl

/-- The search comes to its root, whatever is above. -/
theorem nearest_congr {below above above' : List Location}
    (h : ∀ x ∈ below ++ [root], r'.pathKey? x.path = r.pathKey? x.path) :
    r'.nearest root (below ++ root :: above') = r.nearest root (below ++ root :: above) := by
  induction below with
  | nil =>
    rw [List.nil_append, List.nil_append, nearest, nearest, h root (by simp), if_pos rfl, if_pos rfl]
  | cons x rest ih =>
    rw [List.cons_append, List.cons_append, nearest, nearest, h x (by simp), ih fun y hy => h y (by simp_all)]

/-- On the way up to its root a file passes locations within the root, and then comes to the root. -/
theorem ancestors_to_root (hroot : l.isWithin root = true) :
    ∃ below above, l.ancestors = below ++ root :: above ∧
      ∀ x ∈ below, l.isWithin x = true ∧ x.isWithin root = true ∧ x ≠ root := by
  obtain ⟨below, hbelow, hwithin⟩ := Location.ancestors_of_isWithin hroot
  obtain ⟨above, habove⟩ := root.exists_ancestors_eq_cons
  refine ⟨below, above, habove ▸ hbelow, fun x hx => ⟨?_, (hwithin x hx).1, ?_⟩⟩
  · exact Location.mem_ancestors.1 (hbelow ▸ List.mem_append_left _ hx)
  · rintro rfl
    exact Nat.lt_irrefl _ (hwithin x hx).2

/-- Keyrings that agree within the root agree on the key. -/
theorem nodeKey_congr (hroot : l.isWithin root = true)
    (h : ∀ x, l.isWithin x = true → x.isWithin root = true → r'.pathKey? x.path = r.pathKey? x.path) :
    r'.nodeKey root l = r.nodeKey root l := by
  obtain ⟨below, above, hancestors, hbelow⟩ := ancestors_to_root hroot
  rw [nodeKey, nodeKey, hancestors]
  refine nearest_congr fun x hx => ?_
  rcases List.mem_append.1 hx with hx | hx
  · exact h x (hbelow x hx).1 (hbelow x hx).2.1
  · obtain rfl := List.mem_singleton.1 hx
    exact h x hroot x.isWithin_refl

/-- Where nothing is bound within the root there is no key. -/
theorem nodeKey_eq_none (hroot : l.isWithin root = true)
    (h : ∀ x, l.isWithin x = true → x.isWithin root = true → r.pathKey? x.path = none) : r.nodeKey root l = none := by
  obtain ⟨below, above, hancestors, hbelow⟩ := ancestors_to_root hroot
  have hpassed : ∀ x ∈ below, r.pathKey? x.path = none ∧ x ≠ root := fun x hx =>
    ⟨h x (hbelow x hx).1 (hbelow x hx).2.1, (hbelow x hx).2.2⟩
  rw [nodeKey, hancestors, nearest_append hpassed, nearest, h root hroot root.isWithin_refl]
  exact if_pos rfl

/-- The key of a file is that of the deepest bound location within the root, if there is one. -/
theorem deepestKey_nodeKey (hsound : r.Sound) (hroot : l.isWithin root = true) :
    r.DeepestKey root l (r.nodeKey root l) := by
  have hbinds : ∀ x, (x.isWithin root && (r.bindings.get? x.path.parts).isSome) = true ↔ r.BindsWithin root x :=
    fun x => Bool.and_eq_true_iff
  rcases l.find?_ancestors fun x => x.isWithin root && (r.bindings.get? x.path.parts).isSome with
    ⟨x, -, hfound⟩ | ⟨-, hnone⟩
  · have hdeepest : l.IsDeepest (r.BindsWithin root) x := hfound.congr fun y _ => hbinds y
    obtain ⟨⟨spelling, id⟩, hbound⟩ := Option.isSome_iff_exists.1 hdeepest.holds.2
    obtain ⟨key, i, hkey, hindex, hplace⟩ := pathKey?_of_get? hsound hbound
    have hnode : r.nodeKey root l = some (key.withIndex (UInt32.ofNat i)) := by
      refine nodeKey_of_isWithin (Location.isWithin_iff.1 hdeepest.holds.1).length_le hdeepest.above ?_ hplace
      intro y hy hwithin hne
      -- A bound location below the deepest would be deeper.
      refine pathKey?_eq_none (Option.not_isSome_iff_eq_none.1 fun hsome => hne ?_)
      have habove := hdeepest.deepest y (Location.mem_ancestors.1 hy)
        ⟨Location.isWithin_trans hwithin hdeepest.holds.1, hsome⟩
      exact Location.isWithin_antisymm hwithin habove
    rw [hnode]
    exact .bound hdeepest hbound hkey hindex
  · have hunbound : ∀ x, l.isWithin x = true → ¬ r.BindsWithin root x := fun x hx hb =>
      Bool.false_ne_true ((hnone x hx).symm.trans ((hbinds x).2 hb))
    have hnode : r.nodeKey root l = none := nodeKey_eq_none hroot fun x hx hx' =>
      pathKey?_eq_none (Option.not_isSome_iff_eq_none.1 fun hsome => hunbound x hx ⟨hx', hsome⟩)
    rw [hnode]
    exact .unbound hunbound

/-- Bindings of what is above the root do not count. -/
theorem nodeKey_of_same_keys (hroot : l.isWithin root = true) (hl : Disk.PlainLocation l) (hkeys : r'.keys = r.keys)
    (h : ∀ parts, (∀ y, root.isWithin y = true → y ≠ root → parts ≠ y.path.parts) →
      r'.bindings.get? parts = r.bindings.get? parts) : r'.nodeKey root l = r.nodeKey root l := by
  refine nodeKey_congr hroot fun x hx hx' => ?_
  have hplain : ∀ {y}, l.isWithin y = true → Disk.PlainLocation y := fun hy n hn =>
    hl n ((Location.isWithin_iff.1 hy).subset hn)
  have hsame : r'.bindings.get? x.path.parts = r.bindings.get? x.path.parts := by
    refine h _ fun y hy hne hparts => ?_
    rw [(hplain hx).parts_path, (hplain (Location.isWithin_trans hroot hy)).parts_path] at hparts
    have hnames : x.names = y.names := (List.map_injective_iff.2 fun _ _ h => Part.name.inj h) (List.cons.inj hparts).2
    obtain rfl : x = y := congrArg Location.mk hnames
    exact hne (Location.isWithin_antisymm hx' hy)
  unfold pathKey? indexOf? keyAt?
  rw [hsame, hkeys]

end Keyring

/-! Both searches. -/

open KeyChain.Action

/-- The line that is shown for a file. -/
def nodeLine (l : Location) : Option Key → String
  | some key => keyLine l key.id key.algorithm
  | none =>
    let base := l.fileName?.getD l.path.text
    s!"Key({base}): <not specified>"

theorem runOn_showNode_any (l : Location) (key : Option Key) (m : Machine) :
    (showNode l key).runOn m = (.ok (), { m with lines := m.lines ++ [nodeLine l key] }) := by
  cases key <;> rfl

/-- An entry that cannot be read shows nothing. -/
theorem runOn_getKey_error {m : Machine} {path : Path} {l : Location} {e : KeychainError}
    (hpath : m.disk.realPath path = .ok l) (hopening : m.vaultFaults.opening = none)
    (hgetting : m.vaultFaults.getting = none)
    (hkept : VaultKeyring.kept (m.rootOf l).path.text (m.vault.get? (m.rootOf l).path.text) = .error e) (test : Bool) :
    (getKey test path).runOn m = (.error (.keychain e), m) := by
  have hconnect : (connect (m.rootOf l)).runOn m = (.error (.keychain e), m) := by
    rw [runOn_connect hopening hgetting, hkept]
    rfl
  rw [runOn_getKey_found hpath, runOn_bind_of_error hconnect]

/-- The key that is shown for a file is that of the deepest binding within its root. Take any disk, with links to paths
    that can be asked for, and any file on it. The search for a root finds the deepest of the file and the directories
    above it that holds a store or a lock file, whose path is not too long, or without one the file itself if it is a
    directory and else the directory it is in. Whatever the entry of that root keeps, the key of the file is the
    installed one, with its place, that is bound to the deepest of the file and the directories above it up to the root
    that has a binding; if none has one then there is no key. A keyring with the same keys and other bindings of
    directories above the root has the same key for the file. It is this key that is shown, and nothing is shown if the
    entry cannot be understood. -/
theorem getKey_nearest {m : Machine} {path : Path} {l : Location} (hlinks : m.disk.IsSpelled)
    (hpath : m.disk.realPath path = .ok l) :
    ∃ root : Location, (findRoot l).run m = (root, m) ∧ l.isWithin root = true ∧
      (l.IsDeepest m.disk.HoldsStore root ∨
        (∀ x, l.isWithin x = true → ¬ m.disk.HoldsStore x) ∧
          root = if m.disk.node? l = some .directory then l else l.parent) ∧
      (∀ r, VaultKeyring.kept root.path.text (m.vault.get? root.path.text) = .ok r →
        r.DeepestKey root l (r.nodeKey root l) ∧
        (∀ r' : Keyring, r'.keys = r.keys →
          (∀ parts, (∀ y, root.isWithin y = true → y ≠ root → parts ≠ y.path.parts) →
            r'.bindings.get? parts = r.bindings.get? parts) →
          r'.nodeKey root l = r.nodeKey root l) ∧
        (m.vaultFaults.opening = none → m.vaultFaults.getting = none →
          (getKey true path).runOn m = (.ok (if (r.nodeKey root l).isSome then 0 else 1), m) ∧
          (getKey false path).runOn m =
            (.ok 0, { m with lines := m.lines ++ [nodeLine l (r.nodeKey root l)] }))) ∧
      ∀ e, VaultKeyring.kept root.path.text (m.vault.get? root.path.text) = .error e →
        m.vaultFaults.opening = none → m.vaultFaults.getting = none →
        ∀ test, (getKey test path).runOn m = (.error (.keychain e), m) := by
  obtain ⟨hplace, ⟨node, hnode, hlink⟩, hsize⟩ := Disk.isPlace_of_realPath hlinks hpath
  have hunlinked : ∀ target, m.disk.node? l ≠ some (.link target) := fun target he =>
    hlink target (Option.some.inj (hnode.symm.trans he))
  -- What the search asks of the paths on the way up is what the tree has there.
  have hmarks : ∀ x, l.isWithin x = true → (m.isMarked x = true ↔ m.disk.HoldsStore x) := by
    intro x hx
    obtain ⟨hx', hdirectory⟩ := hplace.above hx
    refine isMarked_iff hx' fun target he => ?_
    rcases hdirectory with rfl | hdirectory
    · exact hunlinked target he
    · cases he.symm.trans hdirectory
  obtain ⟨hroot, hcases⟩ := rootOf_cases m l
  refine ⟨m.rootOf l, run_findRoot l m, hroot, ?_, fun r hkept => ⟨?_, ?_, ?_⟩, ?_⟩
  · rcases hcases with hdeepest | ⟨hnone, heq⟩
    · exact .inl (hdeepest.congr hmarks)
    · refine .inr ⟨fun x hx hstore => ?_, heq.trans ?_⟩
      · exact Bool.false_ne_true ((hnone x hx).symm.trans ((hmarks x hx).2 hstore))
      · exact if_congr (hplace.isDirectory_path hunlinked hsize) rfl rfl
  · exact Keyring.deepestKey_nodeKey (VaultKeyring.storable_of_kept hkept).sound hroot
  · exact fun r' hkeys hsame => Keyring.nodeKey_of_same_keys hroot hplace.plain hkeys hsame
  · intro hopening hgetting
    have hget := runOn_getKey hpath hopening hgetting hkept
    refine ⟨(hget true).trans (if_pos rfl), (hget false).trans ?_⟩
    rw [if_neg Bool.false_ne_true, runOn_bind_of_ok (runOn_showNode_any _ _ _)]
    rfl
  · exact fun e hkept hopening hgetting test => runOn_getKey_error hpath hopening hgetting hkept test

/-- A disk with a directory that holds a lock file, and another directory in it. -/
def Disk.withInner : Disk :=
  (Disk.withSub.put ⟨["sub", "in"]⟩ .directory).put ⟨["sub", ".kcfs-keychain.lock"]⟩ (.file 0 [])

theorem isSpelled_withInner : Disk.withInner.IsSpelled := by
  have hput : ∀ {d : Disk}, d.IsSpelled → ∀ l n, (∀ target, n ≠ .link target) → (d.put l n).IsSpelled :=
    fun h l n hn => h.put l fun target he => absurd he (hn target)
  have hsub := hput Disk.isSpelled_empty ⟨["sub"]⟩ .directory fun _ he => by cases he
  exact hput (hput hsub _ .directory fun _ he => by cases he) _ (.file 0 []) fun _ he => by cases he

theorem isPlace_inner : Disk.withInner.IsPlace ⟨["sub", "in"]⟩ := by
  have hsub : Disk.withInner.IsPlace ⟨["sub"]⟩ :=
    @Disk.IsPlace.child _ Location.root "sub" .root (Disk.node?_root _) (by unfold Disk.PlainName; decide)
  exact @Disk.IsPlace.child _ ⟨["sub"]⟩ "in" hsub (by decide) (by unfold Disk.PlainName; decide)

theorem realPath_inner : Disk.withInner.realPath ⟨"/sub/in"⟩ = .ok ⟨["sub", "in"]⟩ := by
  have hpath : Location.path ⟨["sub", "in"]⟩ = ⟨"/sub/in"⟩ := by decide
  have hdirectory : Disk.withInner.node? ⟨["sub", "in"]⟩ = some .directory := by decide
  rw [← hpath]
  exact isPlace_inner.realPath_path hdirectory (fun _ he => by cases he) (by decide)

theorem isWithin_inner {x : Location} (h : Location.isWithin ⟨["sub", "in"]⟩ x = true) :
    x = ⟨["sub", "in"]⟩ ∨ x = ⟨["sub"]⟩ ∨ x = Location.root := by
  have hancestors : Location.ancestors ⟨["sub", "in"]⟩ = [⟨["sub", "in"]⟩, ⟨["sub"]⟩, Location.root] := by decide
  have hmem := Location.mem_ancestors.2 h
  rw [hancestors] at hmem
  simpa using hmem

/-- The lock file marks the directory it is in, and none below. -/
theorem isDeepest_withInner :
    Location.IsDeepest Disk.withInner.HoldsStore ⟨["sub", "in"]⟩ ⟨["sub"]⟩ := by
  have hholds : ∀ l n, n ∈ Disk.storeNames → Disk.withInner.IsFree (l.child n) → (Disk.withInner.Holds l n ↔ _) :=
    fun l n hn hfree => Disk.holds_iff (Disk.plainName_of_mem hn) hfree.not_link
  refine ⟨by decide, .inl ?_, fun y hy hstore => ?_⟩
  · refine (hholds _ _ Store.lockName_mem (.inr ⟨0, [], by decide⟩)).2 ⟨by decide, by decide, by decide⟩
  · rcases isWithin_inner hy with rfl | rfl | rfl
    · rcases hstore with hlock | hstore
      · have hsome := ((hholds _ _ Store.lockName_mem (.inl (by decide))).1 hlock).2.2
        exact absurd hsome (by decide)
      · have hsome := ((hholds _ _ Store.fileName_mem (.inl (by decide))).1 hstore).2.2
        exact absurd hsome (by decide)
    · decide
    · decide

/-- The keyring of a root whose only key is bound to it and to the directory above. -/
def Keyring.rootAndSub (key : Key) : Keyring :=
  ⟨[key], (OrderedMap.empty.insert [.root] (⟨"/"⟩, key.id)).insert [.root, .name "sub"] (⟨"/sub"⟩, key.id)⟩

theorem Keyring.storable_rootAndSub {key : Key} (h : key.IsDerived) : (rootAndSub key).Storable := by
  have hbind : (onlyRoot key).bindPath ⟨"/sub"⟩ key = .ok (rootAndSub key) := by
    have hfind : (onlyRoot key).find? key.id = some key := by simp [onlyRoot, find?]
    have hparts : Path.parts ⟨"/sub"⟩ = [.root, .name "sub"] := by decide
    unfold bindPath
    rw [hfind, hparts]
    rfl
  exact storable_bindPath (storable_onlyRoot h) hbind

/-- The directory with the lock file is bound, and what is in it is not. -/
theorem Keyring.deepestKey_rootAndSub (key : Key) :
    (rootAndSub key).unplaced.DeepestKey ⟨["sub"]⟩ ⟨["sub", "in"]⟩ (some (key.unplaced.withIndex 0)) := by
  have hget : ∀ parts, (rootAndSub key).unplaced.bindings.get? parts =
      if parts = [.root, .name "sub"] then some (⟨"/sub"⟩, key.id)
      else if parts = [.root] then some (⟨"/"⟩, key.id) else none := by
    intro parts
    show (OrderedMap.insert (OrderedMap.insert OrderedMap.empty _ _) _ _).get? _ = _
    rw [OrderedMap.get?_insert, OrderedMap.get?_insert]
    simp only [Std.LawfulEqCmp.compare_eq_iff_eq]
    rfl
  refine @DeepestKey.bound _ _ _ ⟨["sub"]⟩ ⟨"/sub"⟩ key.id key.unplaced 0 ⟨by decide, ⟨by decide, ?_⟩, ?_⟩ ?_ ?_ ?_
  · rw [hget, if_pos (by decide)]
    rfl
  · intro y hy hbinds
    rcases isWithin_inner hy with rfl | rfl | rfl
    · have hbound := hbinds.2
      rw [hget, if_neg (by decide), if_neg (by decide)] at hbound
      cases hbound
    · decide
    · decide
  · rw [hget]
    exact if_pos (by decide)
  · rw [find?_unplaced]
    simp [rootAndSub, find?]
  · have hid : key.unplaced.id = key.id := rfl
    simp [rootAndSub, unplaced, indexOf?, hid]

/-- The key that the directory with the lock file is bound to is shown for what is in it. -/
theorem getKey_nearest_inner :
    ∃ key : Key,
      let m : Machine := { Machine.new Disk.withInner with
        vault := OrderedMap.empty.insert "/sub" (KeyringEntry.text (Keyring.rootAndSub key)) }
      (findRoot ⟨["sub", "in"]⟩).run m = (⟨["sub"]⟩, m) ∧
        (getKey false ⟨"/sub/in"⟩).runOn m =
          (.ok 0, { m with lines := [keyLine ⟨["sub", "in"]⟩ key.id key.algorithm] }) := by
  obtain ⟨key, hread⟩ := exists_readKey_quick (m := { Machine.new Disk.empty with answers := [some "alpha"] }) rfl
  refine ⟨key, ?_⟩
  intro m
  obtain ⟨root, hrun, hwithin, hcases, hkey, -⟩ := getKey_nearest (m := m) isSpelled_withInner realPath_inner
  obtain rfl : root = ⟨["sub"]⟩ := by
    rcases hcases with hdeepest | ⟨hnone, -⟩
    · exact hdeepest.unique isDeepest_withInner
    · exact absurd isDeepest_withInner.holds (hnone _ isDeepest_withInner.above)
  have hkept : VaultKeyring.kept (Location.path ⟨["sub"]⟩).text (m.vault.get? (Location.path ⟨["sub"]⟩).text) =
      .ok (Keyring.rootAndSub key).unplaced := by
    rw [path_sub]
    show VaultKeyring.kept "/sub" ((OrderedMap.empty.insert "/sub" _).get? "/sub") = _
    rw [OrderedMap.get?_insert, if_pos Std.ReflCmp.compare_self]
    exact VaultKeyring.kept_text (Keyring.storable_rootAndSub (runOn_readKey_ok hread).1) "/sub"
  obtain ⟨hdeepest, -, hshown⟩ := hkey _ hkept
  have hnode := hdeepest.unique (Keyring.deepestKey_rootAndSub key)
  have hlines := (hshown rfl rfl).2
  rw [hnode] at hlines
  exact ⟨hrun, hlines⟩

end KeyChain
