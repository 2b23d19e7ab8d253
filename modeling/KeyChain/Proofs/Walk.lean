import KeyChain.Chain
/-! The walk that resolution makes, said without its recursion. A walk starts at a root and goes from a
   key to the child that the key's slot leads to, as long as that child is new (`Walk`). One look-up
   decides whether it goes on or with what it ends (`turn`).

   1. `resolve_iff`: resolution has exactly the outcome that the walk of its root ends with;
   2. `search_resolve`: the loop that looks up every slot in the whole store comes to the same
      outcome, and `size + 1` look-ups are enough, since the keys that a walk has passed own distinct
      slots (`Walk.length_le`);
   3. `resolve_ok_iff`, `resolve_notFound_iff`, `resolve_refused_iff` and `resolve_loop_iff` split the
      outcomes: which walks end in a chain, in which chain, and which in which error. -/
namespace KeyChain.Chain

/-- What the slot of a key holds for its owner. -/
inductive Opening where
  /-- No link. -/
  | empty
  /-- A record that the owner cannot decrypt, and why. -/
  | refused (cause : KeychainError)
  /-- A link to a terminal key. -/
  | closed
  | leads (child : Key)

/-- Looks up the slot of a key and decrypts what is in it. -/
def opening (links : Links) (owner : Key) : Opening :=
  match links.get? owner.id with
  | none => .empty
  | some record =>
    match Link.decrypt owner record.bytes with
    | .error e => .refused e
    | .ok child => if child.isTerminal then .closed else .leads child

/-- `Walk links root before tail`: from the root the walk passes the keys `before` and comes to `tail`. -/
inductive Walk (links : Links) (root : Key) : List Key → Key → Prop where
  | start : Walk links root [] root
  | hop {before : List Key} {tail child : Key} (walk : Walk links root before tail)
      (leads : opening links tail = .leads child) (fresh : child.id ∉ (before ++ [tail]).map Key.id) :
      Walk links root (before ++ [tail]) child

/-- What one look-up, of the slot of `tail`, does to a walk that has passed `before`: the walk ends with
    an outcome or goes on to a child. -/
def turn (links : Links) (mode : ChainMode) (before : List Key) (tail : Key) :
    Except KeychainError (List Key) ⊕ Key :=
  match opening links tail with
  | .empty =>
    if before = [] ∧ mode = .use then .inl (.error (.notFound tail.id)) else .inl (.ok (before ++ [tail]))
  | .refused e => .inl (.error e)
  | .closed => .inl (.ok (before ++ [tail]))
  | .leads child =>
    if child.id ∈ (before ++ [tail]).map Key.id then
      .inl (.error (.corrupted (.loop tail.id child.id)))
    else .inr child

/-- The walk as a loop over the whole store that may make so many look-ups. -/
def search (links : Links) (mode : ChainMode) :
    Nat → List Key → Key → Option (Except KeychainError (List Key))
  | 0, _, _ => none
  | lookups + 1, before, tail =>
    match turn links mode before tail with
    | .inl outcome => some outcome
    | .inr child => search links mode lookups (before ++ [tail]) child

/-! Openings. -/

theorem opening_eq_empty {links : Links} {owner : Key} :
    opening links owner = .empty ↔ links.get? owner.id = none := by
  unfold opening
  constructor
  · intro h
    split at h
    · assumption
    · split at h
      · cases h
      · split at h <;> cases h
  · intro h
    rw [h]

theorem opening_eq_leads {links : Links} {owner child : Key} :
    opening links owner = .leads child ↔
      ∃ record, links.get? owner.id = some record ∧ Link.decrypt owner record.bytes = .ok child ∧
        child.isTerminal = false := by
  unfold opening
  constructor
  · intro h
    split at h
    · cases h
    · next record hrecord =>
      split at h
      · cases h
      · next child' hchild =>
        split at h
        · cases h
        · next hterminal =>
          cases h
          exact ⟨record, hrecord, hchild, by simpa using hterminal⟩
  · intro h
    obtain ⟨record, hrecord, hchild, hterminal⟩ := h
    simp [hrecord, hchild, hterminal]

theorem opening_eq_refused {links : Links} {owner : Key} {e : KeychainError} :
    opening links owner = .refused e ↔
      ∃ record, links.get? owner.id = some record ∧ Link.decrypt owner record.bytes = .error e := by
  unfold opening
  constructor
  · intro h
    split at h
    · cases h
    · next record hrecord =>
      split at h
      · next e' he =>
        cases h
        exact ⟨record, hrecord, he⟩
      · split at h <;> cases h
  · intro h
    obtain ⟨record, hrecord, he⟩ := h
    simp [hrecord, he]

theorem opening_of_decrypt {links : Links} {owner child : Key} {record : Record}
    (hrecord : links.get? owner.id = some record) (hchild : Link.decrypt owner record.bytes = .ok child) :
    opening links owner = if child.isTerminal then .closed else .leads child := by
  unfold opening
  rw [hrecord]
  simp only [hchild]

/-- A link that does not decrypt is neither missing nor part of a loop. -/
theorem refused_kind {links : Links} {owner : Key} {e : KeychainError}
    (h : opening links owner = .refused e) :
    (∀ id, e ≠ .notFound id) ∧ ∀ tail child, e ≠ .corrupted (.loop tail child) := by
  obtain ⟨record, -, he⟩ := opening_eq_refused.1 h
  unfold Link.decrypt at he
  repeat' split at he
  all_goals cases he
  all_goals exact ⟨fun _ h => (by cases h), fun _ _ h => (by cases h)⟩

theorem opening_congr {links₁ links₂ : Links} {owner : Key}
    (h : links₁.get? owner.id = links₂.get? owner.id) : opening links₁ owner = opening links₂ owner := by
  unfold opening
  rw [h]

theorem get?_insert_self (links : Links) (id : KeyId) (record : Record) :
    (links.insert id record).get? id = some record := by
  rw [OrderedMap.get?_insert, if_pos Std.ReflCmp.compare_self]

theorem get?_insert_ne {id id' : KeyId} (h : id' ≠ id) (links : Links) (record : Record) :
    (links.insert id record).get? id' = links.get? id' := by
  rw [OrderedMap.get?_insert, if_neg fun he => h (Std.LawfulEqCmp.eq_of_compare he)]

theorem follow_eq (links : Links) (visited : List KeyId) (tail : Key) :
    follow links visited tail =
      match opening links tail with
      | .empty | .closed => .ok []
      | .refused e => .error e
      | .leads child =>
        if child.id ∈ visited then .error (.corrupted (.loop tail.id child.id))
        else (follow (links.erase tail.id) (child.id :: visited) child).map (child :: ·) := by
  rw [follow]
  unfold opening
  split
  · next h => simp only [h]
  · next record h =>
    simp only [h]
    cases Link.decrypt tail record.bytes with
    | error e => rfl
    | ok child =>
      by_cases hterminal : child.isTerminal = true
      · simp [hterminal]
      · simp only [hterminal, Bool.false_eq_true, if_false]
        by_cases hv : child.id ∈ visited
        · simp only [if_pos hv]
        · simp only [if_neg hv]
          cases follow (links.erase tail.id) (child.id :: visited) child <;> rfl

/-! Walks. -/

namespace Walk

variable {links : Links} {root : Key} {before : List Key} {tail : Key}

/-- No two keys of a walk have one identifier. -/
theorem nodup (h : Walk links root before tail) : ((before ++ [tail]).map Key.id).Nodup := by
  induction h with
  | start => simp
  | hop _ _ fresh ih =>
    rw [List.map_append]
    refine List.nodup_append.2 ⟨ih, by simp, ?_⟩
    intro a ha b hb he
    rw [List.map_cons, List.map_nil, List.mem_singleton] at hb
    rw [he, hb] at ha
    exact fresh ha

/-- The keys that a walk has passed have other identifiers than its last. -/
theorem ne_of_mem {k : Key} (h : Walk links root before tail) (hk : k ∈ before) : k.id ≠ tail.id := by
  have hnodup := h.nodup
  rw [List.map_append] at hnodup
  exact (List.nodup_append.1 hnodup).2.2 _ (List.mem_map_of_mem hk) _ (by simp)

/-- A key that the walk has passed owns a link. -/
theorem occupied (h : Walk links root before tail) : ∀ k ∈ before, links.get? k.id ≠ none := by
  induction h with
  | start => intro k hk; cases hk
  | hop _ leads _ ih =>
    intro k hk
    rcases List.mem_append.1 hk with hk | hk
    · exact ih k hk
    · rw [List.mem_singleton.1 hk]
      intro hempty
      rw [opening_eq_empty.2 hempty] at leads
      cases leads

/-- The walk has passed no more keys than there are links. -/
theorem length_le (h : Walk links root before tail) : before.length ≤ links.size := by
  have hnodup : (before.map Key.id).Nodup := by
    have := h.nodup
    rw [List.map_append] at this
    exact (List.nodup_append.1 this).1
  have hsub : before.map Key.id ⊆ links.keys := by
    intro id hid
    obtain ⟨k, hk, rfl⟩ := List.mem_map.1 hid
    obtain ⟨record, hrecord⟩ := Option.ne_none_iff_exists'.1 (h.occupied k hk)
    exact List.mem_map.2 ⟨(k.id, record), OrderedMap.mem_of_lookup hrecord, rfl⟩
  have hle := List.Nodup.length_le_of_subset hnodup hsub
  rw [List.length_map] at hle
  simpa [OrderedMap.keys, OrderedMap.size] using hle

theorem head?_eq (h : Walk links root before tail) : (before ++ [tail]).head? = some root := by
  induction h with
  | start => rfl
  | hop _ _ _ ih =>
    rw [List.head?_append, ih]
    rfl

theorem eq_root (h : Walk links root [] tail) : tail = root := by
  have hhead := h.head?_eq
  rw [List.nil_append, List.head?_cons] at hhead
  exact Option.some.inj hhead

/-- A walk from an empty slot has not moved. -/
theorem eq_start (h : Walk links root before tail) (hroot : links.get? root.id = none) :
    before = [] ∧ tail = root := by
  cases h with
  | start => exact ⟨rfl, rfl⟩
  | @hop before tail child walk leads fresh =>
    have hhead := (walk.hop leads fresh).head?_eq
    cases before with
    | nil =>
      rw [List.nil_append, List.singleton_append, List.head?_cons] at hhead
      cases hhead
      rw [opening_eq_empty.2 hroot] at leads
      cases leads
    | cons k rest =>
      rw [List.cons_append, List.cons_append, List.head?_cons] at hhead
      cases hhead
      exact absurd hroot (walk.occupied root (by simp))

/-- A walk is the same over links that hold the same for the keys it has passed. -/
theorem congr {links' : Links} (h : Walk links root before tail)
    (same : ∀ k ∈ before, links'.get? k.id = links.get? k.id) : Walk links' root before tail := by
  induction h with
  | start => exact .start
  | hop _ leads fresh ih =>
    have hwalk := ih fun k hk => same k (List.mem_append_left _ hk)
    refine hwalk.hop ?_ fresh
    rw [opening_congr (same _ (by simp))]
    exact leads

/-- A walk goes on with a walk from the child of its last key that keeps clear of it. -/
theorem append {owner child : Key} {onward : List Key} (h : Walk links root before owner)
    (leads : opening links owner = .leads child)
    (h' : Walk links child onward tail)
    (clear : ∀ k ∈ onward ++ [tail], k.id ∉ (before ++ [owner]).map Key.id) :
    Walk links root (before ++ owner :: onward) tail := by
  induction h' with
  | start => exact h.hop leads (clear child (by simp))
  | @hop onward tail child' _ leads' fresh ih =>
    have hwalk := ih fun k hk => clear k (List.mem_append_left _ hk)
    have hclear := clear child' (by simp)
    rw [show before ++ owner :: (onward ++ [tail]) = (before ++ owner :: onward) ++ [tail] by simp]
    refine hwalk.hop leads' ?_
    rw [show (before ++ owner :: onward) ++ [tail] = (before ++ [owner]) ++ (onward ++ [tail]) by simp,
      List.map_append, List.mem_append, not_or]
    exact ⟨hclear, fresh⟩

/-- A walk that has passed a key came to it, and went on from what it leads to. -/
theorem split {k : Key} (h : Walk links root before tail) (hk : k ∈ before) :
    ∃ first onward next, before = first ++ k :: onward ∧ Walk links root first k ∧
      opening links k = .leads next ∧ Walk links next onward tail := by
  induction h with
  | start => cases hk
  | @hop before tail child walk leads fresh ih =>
    rcases List.mem_append.1 hk with hk | hk
    · obtain ⟨first, onward, next, rfl, hfirst, hleads, honward⟩ := ih hk
      refine ⟨first, onward ++ [tail], next, by simp, hfirst, hleads, honward.hop leads fun hmem => ?_⟩
      apply fresh
      simp only [List.map_append, List.map_cons, List.mem_append, List.mem_cons] at hmem ⊢
      rcases hmem with hmem | hmem
      · exact .inl (.inr (.inr hmem))
      · exact .inr hmem
    · obtain rfl := List.mem_singleton.1 hk
      exact ⟨before, [], child, rfl, walk, leads, .start⟩

end Walk

/-! The loop. -/

theorem search_succ_of_hop {links : Links} {mode : ChainMode} {before : List Key} {tail child : Key}
    (h : turn links mode before tail = .inr child) (lookups : Nat) :
    search links mode (lookups + 1) before tail = search links mode lookups (before ++ [tail]) child := by
  rw [search, h]

theorem turn_eq_inr {links : Links} {mode : ChainMode} {before : List Key} {tail child : Key} :
    turn links mode before tail = .inr child ↔
      opening links tail = .leads child ∧ child.id ∉ (before ++ [tail]).map Key.id := by
  unfold turn
  constructor
  · intro h
    split at h
    · split at h <;> cases h
    · cases h
    · cases h
    · next child' hleads =>
      split at h
      · cases h
      · next hfresh =>
        cases h
        exact ⟨hleads, hfresh⟩
  · intro h
    obtain ⟨hleads, hfresh⟩ := h
    simp only [hleads, if_neg hfresh]

/-- A loop from the root makes the look-ups that bring a walk to its last key, and goes on there. -/
theorem search_of_walk {links : Links} {root : Key} {before : List Key} {tail : Key}
    (h : Walk links root before tail) (mode : ChainMode) (lookups : Nat) :
    search links mode (lookups + before.length) [] root = search links mode lookups before tail := by
  induction h generalizing lookups with
  | start => rfl
  | hop _ leads fresh ih =>
    rw [← search_succ_of_hop (turn_eq_inr.2 ⟨leads, fresh⟩), ← ih, List.length_append]
    congr 1
    simp only [List.length_cons, List.length_nil]
    omega

/-- What a loop comes to is what the last turn of a walk decides. -/
theorem walk_of_search {links : Links} {root : Key} {mode : ChainMode}
    {outcome : Except KeychainError (List Key)} :
    ∀ {lookups : Nat} {before : List Key} {tail : Key}, Walk links root before tail →
      search links mode lookups before tail = some outcome →
      ∃ before tail, Walk links root before tail ∧ turn links mode before tail = .inl outcome
  | 0, _, _, _, h => by cases h
  | lookups + 1, before, tail, walk, h => by
    rw [search] at h
    split at h
    · next hturn =>
      cases h
      exact ⟨before, tail, walk, hturn⟩
    · next child hturn =>
      obtain ⟨leads, fresh⟩ := turn_eq_inr.1 hturn
      exact walk_of_search (walk.hop leads fresh) h

/-! Recursion and loop. -/

theorem opening_erased {links left : Links} {before : List Key} {tail : Key}
    (hleft : ∀ id, left.get? id = if id ∈ before.map Key.id then none else links.get? id)
    (htail : tail.id ∉ before.map Key.id) : opening left tail = opening links tail := by
  apply opening_congr
  rw [hleft, if_neg htail]

/-- The recursion forgets the slots of the keys it has passed, the loop keeps them all: as long as the
    last key is not among those, both see the same. -/
theorem search_follow {links : Links} {mode : ChainMode} :
    ∀ {lookups : Nat} {left : Links} {before : List Key} {visited : List KeyId} {tail : Key},
      (∀ id, left.get? id = if id ∈ before.map Key.id then none else links.get? id) →
      tail.id ∉ before.map Key.id → (∀ id, id ∈ visited ↔ id ∈ (before ++ [tail]).map Key.id) →
      ¬ (before = [] ∧ mode = .use ∧ links.get? tail.id = none) → left.size < lookups →
      search links mode lookups before tail =
        some ((follow left visited tail).map (before ++ tail :: ·))
  | 0, _, _, _, _, _, _, _, _, hsize => absurd hsize (Nat.not_lt_zero _)
  | lookups + 1, left, before, visited, tail, hleft, htail, hvisited, hmode, hsize => by
    rw [search, follow_eq, turn, opening_erased hleft htail]
    cases hopen : opening links tail with
    | empty =>
      have hnone := opening_eq_empty.1 hopen
      have hroot : ¬ (before = [] ∧ mode = .use) := fun h => hmode ⟨h.1, h.2, hnone⟩
      simp only [if_neg hroot]
      rfl
    | refused e => rfl
    | closed => rfl
    | leads child =>
      by_cases hfresh : child.id ∈ (before ++ [tail]).map Key.id
      · simp only [if_pos hfresh, if_pos ((hvisited _).2 hfresh)]
        rfl
      · simp only [if_neg hfresh, if_neg (mt (hvisited _).1 hfresh)]
        obtain ⟨record, hrecord, -, -⟩ := opening_eq_leads.1 (opening_erased hleft htail ▸ hopen)
        have hsmaller := OrderedMap.size_erase_lt hrecord
        -- The slot of `tail` is the one that the recursion forgets and the loop has passed.
        have hleft' : ∀ id, (left.erase tail.id).get? id =
            if id ∈ (before ++ [tail]).map Key.id then none else links.get? id := by
          intro id
          rw [OrderedMap.get?_erase, hleft, List.map_append]
          by_cases hid : id = tail.id
          · simp [hid]
          · have hne : ¬ compare tail.id id = .eq := fun h => hid (Std.LawfulEqCmp.eq_of_compare h).symm
            rw [if_neg hne]
            simp [hid]
        have hvisited' : ∀ id, id ∈ child.id :: visited ↔
            id ∈ ((before ++ [tail]) ++ [child]).map Key.id := by
          intro id
          rw [List.mem_cons, hvisited]
          simp [or_comm, or_left_comm, or_assoc]
        have hnext := @search_follow links mode lookups (left.erase tail.id) (before ++ [tail])
          (child.id :: visited) child hleft' hfresh hvisited' (by simp) (by omega)
        rw [hnext]
        cases follow (left.erase tail.id) (child.id :: visited) child with
        | error e => rfl
        | ok rest => simp [Except.map]

/-- The loop over the whole store needs one look-up more than there are links, and comes to what
    resolution gives. -/
theorem search_resolve (links : Links) (root : Key) (mode : ChainMode) :
    search links mode (links.size + 1) [] root = some ((resolve links root mode).map keys) := by
  unfold resolve
  split
  · next h =>
    rw [search, turn, opening_eq_empty.2 h.1]
    simp only [h.2, and_self, if_true]
    rfl
  · next h =>
    have hfollow := @search_follow links mode (links.size + 1) links [] [root.id] root (by simp) (by simp)
      (by simp) (fun hroot => h ⟨hroot.2.2, hroot.2.1⟩) (Nat.lt_succ_self _)
    rw [hfollow]
    cases follow links [root.id] root <;> rfl

/-- Resolution has exactly the outcome that the walk of its root ends with. -/
theorem resolve_iff {links : Links} {root : Key} {mode : ChainMode}
    {outcome : Except KeychainError (List Key)} :
    (resolve links root mode).map keys = outcome ↔
      ∃ before tail, Walk links root before tail ∧ turn links mode before tail = .inl outcome := by
  constructor
  · intro h
    exact walk_of_search .start (h ▸ search_resolve links root mode)
  · intro h
    obtain ⟨before, tail, walk, hturn⟩ := h
    have hlength := walk.length_le
    have hsearch := search_of_walk walk mode (links.size - before.length + 1)
    rw [show links.size - before.length + 1 + before.length = links.size + 1 by omega, search_resolve,
      search, hturn] at hsearch
    exact Option.some.inj hsearch

theorem map_keys_eq_ok {result : Except KeychainError Chain} {c : Chain} :
    result.map keys = .ok c.keys ↔ result = .ok c := by
  cases result with
  | error e => exact ⟨fun h => (by cases h), fun h => (by cases h)⟩
  | ok d =>
    obtain ⟨root, rest⟩ := d
    obtain ⟨root', rest'⟩ := c
    simp [Except.map, keys]

theorem map_keys_eq_error {result : Except KeychainError Chain} {e : KeychainError} :
    result.map keys = .error e ↔ result = .error e := by
  cases result with
  | error e' => simp [Except.map]
  | ok c => exact ⟨fun h => (by cases h), fun h => (by cases h)⟩

/-! The outcomes, one by one. -/

theorem resolve_ok_iff {links : Links} {root : Key} {mode : ChainMode} {c : Chain} :
    resolve links root mode = .ok c ↔
      ¬ (mode = .use ∧ links.get? root.id = none) ∧
      ∃ before tail, Walk links root before tail ∧ c.keys = before ++ [tail] ∧
        (opening links tail = .empty ∨ opening links tail = .closed) := by
  rw [← map_keys_eq_ok, resolve_iff]
  constructor
  · intro h
    obtain ⟨before, tail, walk, hturn⟩ := h
    unfold turn at hturn
    -- Of the four openings only an empty slot and a terminal child end in a chain.
    split at hturn
    · next hopen =>
      split at hturn
      · cases hturn
      · next hmode =>
        injection hturn with hkeys
        injection hkeys with hkeys
        refine ⟨fun hroot => ?_, before, tail, walk, hkeys.symm, .inl hopen⟩
        exact hmode ⟨(walk.eq_start hroot.2).1, hroot.1⟩
    · cases hturn
    · next hopen =>
      injection hturn with hkeys
      injection hkeys with hkeys
      refine ⟨fun hroot => ?_, before, tail, walk, hkeys.symm, .inr hopen⟩
      rw [(walk.eq_start hroot.2).2, opening_eq_empty.2 hroot.2] at hopen
      cases hopen
    · split at hturn <;> cases hturn
  · intro h
    obtain ⟨hmode, before, tail, walk, hkeys, hopen⟩ := h
    refine ⟨before, tail, walk, ?_⟩
    rw [hkeys]
    unfold turn
    rcases hopen with hopen | hopen
    · simp only [hopen]
      rw [if_neg]
      intro h
      obtain ⟨rfl, hmode'⟩ := h
      exact hmode ⟨hmode', walk.eq_root ▸ opening_eq_empty.1 hopen⟩
    · simp only [hopen]

theorem resolve_notFound_iff {links : Links} {root : Key} {mode : ChainMode} {id : KeyId} :
    resolve links root mode = .error (.notFound id) ↔
      mode = .use ∧ links.get? root.id = none ∧ id = root.id := by
  rw [← map_keys_eq_error, resolve_iff]
  constructor
  · intro h
    obtain ⟨before, tail, walk, hturn⟩ := h
    unfold turn at hturn
    split at hturn
    · next hopen =>
      split at hturn
      · next hmode =>
        obtain ⟨rfl, hmode⟩ := hmode
        obtain rfl := walk.eq_root
        cases hturn
        exact ⟨hmode, opening_eq_empty.1 hopen, rfl⟩
      · cases hturn
    · next hopen =>
      injection hturn with he
      injection he with he
      exact absurd he ((refused_kind hopen).1 id)
    · cases hturn
    · split at hturn <;> cases hturn
  · intro h
    obtain ⟨rfl, hroot, rfl⟩ := h
    refine ⟨[], root, .start, ?_⟩
    simp only [turn, opening_eq_empty.2 hroot, and_self, if_true]

theorem resolve_refused_iff {links : Links} {root : Key} {mode : ChainMode} {e : KeychainError} :
    (∃ before tail, Walk links root before tail ∧ opening links tail = .refused e) ↔
      resolve links root mode = .error e ∧ (∀ id, e ≠ .notFound id) ∧
        ∀ tail child, e ≠ .corrupted (.loop tail child) := by
  rw [← map_keys_eq_error, resolve_iff]
  constructor
  · intro h
    obtain ⟨before, tail, walk, hopen⟩ := h
    refine ⟨⟨before, tail, walk, ?_⟩, refused_kind hopen⟩
    simp only [turn, hopen]
  · intro h
    obtain ⟨⟨before, tail, walk, hturn⟩, hfound, hloop⟩ := h
    refine ⟨before, tail, walk, ?_⟩
    unfold turn at hturn
    split at hturn
    · split at hturn
      · cases hturn
        exact absurd rfl (hfound _)
      · cases hturn
    · next hopen =>
      cases hturn
      exact hopen
    · cases hturn
    · split at hturn
      · cases hturn
        exact absurd rfl (hloop _ _)
      · cases hturn

theorem resolve_loop_iff {links : Links} {root : Key} {mode : ChainMode} {last back : KeyId} :
    resolve links root mode = .error (.corrupted (.loop last back)) ↔
      ∃ before tail child, Walk links root before tail ∧ opening links tail = .leads child ∧
        child.id ∈ (before ++ [tail]).map Key.id ∧ last = tail.id ∧ back = child.id := by
  rw [← map_keys_eq_error, resolve_iff]
  constructor
  · intro h
    obtain ⟨before, tail, walk, hturn⟩ := h
    unfold turn at hturn
    split at hturn
    · split at hturn <;> cases hturn
    · next hopen =>
      injection hturn with he
      injection he with he
      exact absurd he ((refused_kind hopen).2 last back)
    · cases hturn
    · next child hopen =>
      split at hturn
      · next hback =>
        cases hturn
        exact ⟨before, tail, child, walk, hopen, hback, rfl, rfl⟩
      · cases hturn
  · intro h
    obtain ⟨before, tail, child, walk, hopen, hback, rfl, rfl⟩ := h
    refine ⟨before, tail, walk, ?_⟩
    simp only [turn, hopen, if_pos hback]

/-- The two modes differ only over an empty first slot. -/
theorem resolve_use_eq_iff {links : Links} {root : Key} :
    resolve links root .use = resolve links root .ignoreMissing ↔ links.get? root.id ≠ none := by
  constructor
  · intro h hroot
    rw [resolve_notFound_iff.2 ⟨rfl, hroot, rfl⟩] at h
    cases (resolve_notFound_iff.1 h.symm).1
  · intro hroot
    unfold resolve
    rw [if_neg (fun h => hroot h.1), if_neg (fun h => hroot h.1)]

/-- A chain starts at the root, no identifier stands twice on it, and it has at most one key more than
    there are links. -/
theorem resolve_shape {links : Links} {root : Key} {mode : ChainMode} {c : Chain}
    (h : resolve links root mode = .ok c) :
    c.root = root ∧ (c.keys.map Key.id).Nodup ∧ c.length ≤ links.size + 1 := by
  obtain ⟨-, before, tail, walk, hkeys, -⟩ := resolve_ok_iff.1 h
  have hlength := walk.length_le
  have hhead := walk.head?_eq
  rw [← hkeys] at hhead
  refine ⟨Option.some.inj hhead, hkeys ▸ walk.nodup, ?_⟩
  rw [length, hkeys, List.length_append, List.length_singleton]
  omega

/-- Whether a chain was resolved or is that of one key. -/
def IsMade (c : Chain) : Prop := (∃ links root mode, resolve links root mode = .ok c) ∨ ∃ key, c = .single key

theorem IsMade.distinct {c : Chain} (h : c.IsMade) : (c.keys.map Key.id).Nodup := by
  rcases h with ⟨links, root, mode, hresolve⟩ | ⟨key, rfl⟩
  · exact (resolve_shape hresolve).2.1
  · simp [keys, single]

/-- Resolution ends, after at most one look-up more than there are links, with exactly what the walk of
    its root ends with: with the chain of the keys on it, if it comes to an empty slot or a terminal
    child, with the error of a record that its owner cannot decrypt, or with a loop at a child that is
    on it already. A missing first link is the one thing that only `use` refuses. -/
theorem resolve_walk (links : Links) (root : Key) (mode : ChainMode) :
    search links mode (links.size + 1) [] root = some ((resolve links root mode).map keys) ∧
    (∀ c, resolve links root mode = .ok c ↔
      ¬ (mode = .use ∧ links.get? root.id = none) ∧
      ∃ before tail, Walk links root before tail ∧ c.keys = before ++ [tail] ∧
        (opening links tail = .empty ∨ opening links tail = .closed)) ∧
    (∀ c, resolve links root mode = .ok c →
      c.root = root ∧ (c.keys.map Key.id).Nodup ∧ c.length ≤ links.size + 1) ∧
    (∀ id, resolve links root mode = .error (.notFound id) ↔
      mode = .use ∧ links.get? root.id = none ∧ id = root.id) ∧
    (∀ e, (∃ before tail, Walk links root before tail ∧ opening links tail = .refused e) ↔
      resolve links root mode = .error e ∧ (∀ id, e ≠ .notFound id) ∧
        ∀ last back, e ≠ .corrupted (.loop last back)) ∧
    (∀ last back, resolve links root mode = .error (.corrupted (.loop last back)) ↔
      ∃ before tail child, Walk links root before tail ∧ opening links tail = .leads child ∧
        child.id ∈ (before ++ [tail]).map Key.id ∧ last = tail.id ∧ back = child.id) ∧
    (resolve links root .use = resolve links root .ignoreMissing ↔ links.get? root.id ≠ none) :=
  ⟨search_resolve links root mode, fun _ => resolve_ok_iff, fun _ => resolve_shape,
    fun _ => resolve_notFound_iff, fun _ => resolve_refused_iff, fun _ _ => resolve_loop_iff,
    resolve_use_eq_iff⟩

end KeyChain.Chain
