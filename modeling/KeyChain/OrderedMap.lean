/-! Finite maps as strictly ascending lists of entries, so a map has one representation and lists
   its entries in key order. Main statements: what `insert` and `erase` do to `get?`
   (`get?_insert`, `get?_erase`), and that a map is determined by `get?` (`ext_get?`). -/
namespace KeyChain

/-- Entries in strictly ascending order of their keys. -/
structure OrderedMap (κ ν : Type) [Ord κ] where
  entries : List (κ × ν)
  ascending : entries.Pairwise fun a b => compare a.1 b.1 = .lt

namespace OrderedMap

variable {κ ν : Type} [Ord κ]

/-! Lists of entries. -/

/-- The value at a key in a list of entries. -/
def lookup (k : κ) : List (κ × ν) → Option ν
  | [] => none
  | (k', v) :: rest => if compare k k' = .eq then some v else lookup k rest

/-- Puts an entry in its place in an ascending list, in place of one with the same key. -/
def place (k : κ) (v : ν) : List (κ × ν) → List (κ × ν)
  | [] => [(k, v)]
  | (k', v') :: rest =>
    match compare k k' with
    | .lt => (k, v) :: (k', v') :: rest
    | .eq => (k, v) :: rest
    | .gt => (k', v') :: place k v rest

/-! Maps that need no law of the order. -/

@[ext] theorem ext {m₁ m₂ : OrderedMap κ ν} (h : m₁.entries = m₂.entries) : m₁ = m₂ := by
  cases m₁; cases m₂; simp_all

def empty : OrderedMap κ ν := ⟨[], List.Pairwise.nil⟩

/-- The value at a key. -/
def get? (m : OrderedMap κ ν) (k : κ) : Option ν := lookup k m.entries

/-- The map with the entries that a test keeps. -/
def filter (m : OrderedMap κ ν) (keep : κ × ν → Bool) : OrderedMap κ ν :=
  ⟨m.entries.filter keep, m.ascending.filter keep⟩

/-- The map without one key. -/
def erase (m : OrderedMap κ ν) (k : κ) : OrderedMap κ ν :=
  m.filter fun e => compare k e.1 != .eq

def size (m : OrderedMap κ ν) : Nat := m.entries.length

/-- The keys, ascending. -/
def keys (m : OrderedMap κ ν) : List κ := m.entries.map (·.1)

@[simp] theorem get?_empty (k : κ) : (empty : OrderedMap κ ν).get? k = none := rfl

theorem mem_place {k : κ} {v : ν} {e : κ × ν} {l : List (κ × ν)} (h : e ∈ place k v l) :
    e = (k, v) ∨ e ∈ l := by
  induction l with
  | nil => simpa [place] using h
  | cons head rest ih =>
    obtain ⟨k', v'⟩ := head
    rw [place] at h
    split at h <;> grind

variable [Std.TransOrd κ] [Std.LawfulEqOrd κ]

theorem pairwise_place (k : κ) (v : ν) {l : List (κ × ν)}
    (h : l.Pairwise fun a b => compare a.1 b.1 = .lt) :
    (place k v l).Pairwise fun a b => compare a.1 b.1 = .lt := by
  induction l with
  | nil => simp [place]
  | cons head rest ih =>
    obtain ⟨k', v'⟩ := head
    have ⟨hhead, hrest⟩ := List.pairwise_cons.1 h
    rw [place]
    split
    · next hlt =>
      refine List.pairwise_cons.2 ⟨fun e he => ?_, h⟩
      rcases List.mem_cons.1 he with rfl | he
      · exact hlt
      · exact Std.TransCmp.lt_trans hlt (hhead e he)
    · next heq =>
      have : k = k' := Std.LawfulEqCmp.eq_of_compare heq
      subst this
      exact List.pairwise_cons.2 ⟨hhead, hrest⟩
    · next hgt =>
      refine List.pairwise_cons.2 ⟨fun e he => ?_, ih hrest⟩
      rcases mem_place he with rfl | he
      · exact Std.OrientedCmp.gt_iff_lt.1 hgt
      · exact hhead e he

theorem lookup_place (k k₂ : κ) (v : ν) (l : List (κ × ν)) :
    lookup k₂ (place k v l) = if compare k₂ k = .eq then some v else lookup k₂ l := by
  induction l with
  | nil => simp [place, lookup]
  | cons head rest ih =>
    obtain ⟨k', v'⟩ := head
    rw [place]
    split
    · simp [lookup]
    · next heq =>
      have : k = k' := Std.LawfulEqCmp.eq_of_compare heq
      subst this
      simp only [lookup]
      split <;> rfl
    · next hgt =>
      simp only [lookup, ih]
      split
      · next h₂ =>
        have : k₂ = k' := Std.LawfulEqCmp.eq_of_compare h₂
        subst this
        have : compare k₂ k = .lt := Std.OrientedCmp.gt_iff_lt.1 hgt
        simp [this]
      · rfl

theorem lookup_filter_ne (k k₂ : κ) (l : List (κ × ν)) :
    lookup k₂ (l.filter fun e => compare k e.1 != .eq) =
      if compare k k₂ = .eq then none else lookup k₂ l := by
  induction l with
  | nil => simp [lookup]
  | cons head rest ih =>
    obtain ⟨k', v'⟩ := head
    by_cases hk : compare k k' = .eq
    · have : k = k' := Std.LawfulEqCmp.eq_of_compare hk
      subst this
      simp only [List.filter_cons, hk, bne_self_eq_false, Bool.false_eq_true, if_false, ih, lookup]
      split
      · rfl
      · next hne =>
        have : compare k₂ k ≠ .eq := fun h => hne (Std.OrientedCmp.eq_comm.1 h)
        simp [this]
    · simp only [List.filter_cons, bne_iff_ne, ne_eq, hk, not_false_eq_true, if_true, lookup, ih]
      split
      · next h₂ =>
        have : k₂ = k' := Std.LawfulEqCmp.eq_of_compare h₂
        subst this
        simp [hk]
      · rfl

omit [Std.TransOrd κ] in
theorem mem_of_lookup {k : κ} {v : ν} {l : List (κ × ν)} (h : lookup k l = some v) : (k, v) ∈ l := by
  induction l with
  | nil => simp [lookup] at h
  | cons head rest ih =>
    obtain ⟨k', v'⟩ := head
    rw [lookup] at h
    split at h
    · next hk =>
      have : k = k' := Std.LawfulEqCmp.eq_of_compare hk
      simp_all
    · exact List.mem_cons_of_mem _ (ih h)

theorem lookup_of_mem {k : κ} {v : ν} {l : List (κ × ν)}
    (hs : l.Pairwise fun a b => compare a.1 b.1 = .lt) (h : (k, v) ∈ l) : lookup k l = some v := by
  induction l with
  | nil => simp at h
  | cons head rest ih =>
    obtain ⟨k', v'⟩ := head
    have ⟨hhead, hrest⟩ := List.pairwise_cons.1 hs
    rw [lookup]
    rcases List.mem_cons.1 h with heq | hmem
    · cases heq
      simp
    · have : compare k' k = .lt := hhead _ hmem
      have : compare k k' ≠ .eq := fun he => by
        rw [Std.OrientedCmp.eq_comm.1 he] at this
        cases this
      rw [if_neg this]
      exact ih hrest hmem

/-- Two ascending lists with the same look-ups are equal. -/
theorem eq_of_lookup_eq {l₁ l₂ : List (κ × ν)}
    (h₁ : l₁.Pairwise fun a b => compare a.1 b.1 = .lt)
    (h₂ : l₂.Pairwise fun a b => compare a.1 b.1 = .lt)
    (h : ∀ k, lookup k l₁ = lookup k l₂) : l₁ = l₂ := by
  have mem : ∀ e, e ∈ l₁ ↔ e ∈ l₂ := fun ⟨k, v⟩ =>
    ⟨fun he => mem_of_lookup (h k ▸ lookup_of_mem h₁ he),
      fun he => mem_of_lookup ((h k).symm ▸ lookup_of_mem h₂ he)⟩
  refine List.Perm.eq_of_pairwise (fun a b _ _ hab hba => ?_) h₁ h₂ ?_
  · rw [← Std.OrientedCmp.gt_iff_lt, hab] at hba
    cases hba
  · refine (List.perm_ext_iff_of_nodup ?_ ?_).2 mem
    · exact h₁.imp fun {a b} hab he => by subst he; simp at hab
    · exact h₂.imp fun {a b} hab he => by subst he; simp at hab

/-! Maps. -/

/-- The map with one key set. -/
def insert (m : OrderedMap κ ν) (k : κ) (v : ν) : OrderedMap κ ν :=
  ⟨place k v m.entries, pairwise_place k v m.ascending⟩

/-- The map of a list of entries; of several with one key the last counts. -/
def ofList (l : List (κ × ν)) : OrderedMap κ ν := l.foldl (fun m e => m.insert e.1 e.2) empty

theorem get?_insert (m : OrderedMap κ ν) (k k₂ : κ) (v : ν) :
    (m.insert k v).get? k₂ = if compare k₂ k = .eq then some v else m.get? k₂ :=
  lookup_place k k₂ v m.entries

theorem get?_erase (m : OrderedMap κ ν) (k k₂ : κ) :
    (m.erase k).get? k₂ = if compare k k₂ = .eq then none else m.get? k₂ :=
  lookup_filter_ne k k₂ m.entries

theorem ext_get? {m₁ m₂ : OrderedMap κ ν} (h : ∀ k, m₁.get? k = m₂.get? k) : m₁ = m₂ :=
  ext (eq_of_lookup_eq m₁.ascending m₂.ascending h)

omit [Std.TransOrd κ] [Std.LawfulEqOrd κ] in
theorem length_place {k : κ} (v : ν) {l : List (κ × ν)} (h : lookup k l = none) :
    (place k v l).length = l.length + 1 := by
  induction l with
  | nil => rfl
  | cons head rest ih =>
    obtain ⟨k', v'⟩ := head
    rw [lookup] at h
    rw [place]
    split
    · rfl
    · next heq =>
      rw [if_pos heq] at h
      cases h
    · next hgt =>
      rw [if_neg (by simp [hgt])] at h
      rw [List.length_cons, List.length_cons, ih h]

/-- Filling an empty slot makes a map larger by one. -/
theorem size_insert {m : OrderedMap κ ν} {k : κ} (h : m.get? k = none) (v : ν) :
    (m.insert k v).size = m.size + 1 :=
  length_place v h

omit [Std.TransOrd κ] in
/-- Erasing a key that is there makes a map smaller. -/
theorem size_erase_lt {m : OrderedMap κ ν} {k : κ} {v : ν} (h : m.get? k = some v) :
    (m.erase k).size < m.size := by
  have hm := mem_of_lookup h
  simp only [size, erase, filter]
  exact List.length_filter_lt_length_iff_exists.2 ⟨(k, v), hm, by simp⟩

end OrderedMap

end KeyChain
