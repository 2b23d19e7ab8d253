import KeyChain.Proofs.LinkCodec
import KeyChain.Proofs.Sessions
/-! Adding decoys, draw by draw. What becomes of a draw depends on the links as they are then: it is added if its
   slot is empty, and collides otherwise, be it with a link that was there before or with a decoy of the
   same call.

   1. `Draw.added`, `Draw.collided`: the draws of a list that are added, and those that collide;
   2. `Draw.exists_source`: every list of draws is drawn from some source of random bytes;
   3. `addDecoys_draws`: decoys are added until there are enough, or until one collision too many;
   4. `inject_exact`: what is listed, what is in the store, and what is in the file, also after a failure. -/
namespace KeyChain

/-- What is drawn for one decoy. -/
structure Draw where
  parent : Key
  child : Key
  nonce : FixedBytes 24

namespace Draw

def record (d : Draw) : Record := Link.encryptWith d.nonce d.parent d.child

/-- What is listed of a decoy. -/
def ids (d : Draw) : KeyId × KeyId := (d.parent.id, d.child.id)

/-- The draw of two secrets and a nonce. -/
def ofSecrets (parent child : Secret) (nonce : FixedBytes 24) : Draw :=
  ⟨Key.ofSecret .invalid parent, Key.ofSecret .invalid child, nonce⟩

/-- The next draw, and the random bytes behind it. -/
def next (source : RandomSource) : Draw × RandomSource :=
  let parent := source.draw secretSize
  let child := parent.2.draw secretSize
  let nonce := child.2.draw 24
  (ofSecrets parent.1 child.1 nonce.1, nonce.2)

/-- The first draws from a source. -/
def first : Nat → RandomSource → List Draw
  | 0, _ => []
  | n + 1, source => (next source).1 :: first n (next source).2

/-- The links with those of some draws. -/
def file (links : Links) (draws : List Draw) : Links :=
  draws.foldl (fun links d => links.insert d.parent.id d.record) links

/-- The draws that find their slot empty, one after the other. -/
def added (links : Links) : List Draw → List Draw
  | [] => []
  | d :: rest =>
    if links.get? d.parent.id = none then d :: added (links.insert d.parent.id d.record) rest
    else added links rest

/-- The draws that find their slot occupied, one after the other. -/
def collided (links : Links) : List Draw → List Draw
  | [] => []
  | d :: rest =>
    if links.get? d.parent.id = none then collided (links.insert d.parent.id d.record) rest
    else d :: collided links rest

variable {links : Links} {draws : List Draw} {d : Draw}

/-! Draws from a source. -/

/-- The child of a draw is a terminal key, and the parent gives it back. -/
theorem decrypt_of_mem {n : Nat} {source : RandomSource} (h : d ∈ first n source) :
    d.child.isTerminal = true ∧ Link.decrypt d.parent d.record.bytes = .ok d.child := by
  induction n generalizing source with
  | zero => cases h
  | succ n ih =>
    rw [first] at h
    rcases List.mem_cons.1 h with rfl | h
    · exact ⟨rfl, Link.decrypt_encryptWith _ _ (.inl rfl)⟩
    · exact ih h

/-- The bytes that a draw takes. -/
def bytes (parent child : Secret) (nonce : FixedBytes 24) : Bytes := parent.bytes ++ (child.bytes ++ nonce.bytes)

theorem length_bytes (parent child : Secret) (nonce : FixedBytes 24) : (bytes parent child nonce).length = 152 := by
  simp [bytes, parent.length_eq, child.length_eq, nonce.length_eq, secretSize]

/-- Random bytes that are those of given draws, one after the other. -/
def tape (secrets : Nat → Secret × Secret × FixedBytes 24) (i : Nat) : UInt8 :=
  let (parent, child, nonce) := secrets (i / 152)
  (bytes parent child nonce).getD (i % 152) 0

theorem draw_tape (secrets : Nat → Secret × Secret × FixedBytes 24) (k : Nat) {skip n : Nat} (h : skip + n ≤ 152) :
    ((⟨tape secrets, 152 * k + skip⟩ : RandomSource).draw n).1.bytes =
      ((bytes (secrets k).1 (secrets k).2.1 (secrets k).2.2).drop skip).take n := by
  have hlength := length_bytes (secrets k).1 (secrets k).2.1 (secrets k).2.2
  refine List.ext_getElem ?_ fun i hi hi' => ?_
  · simp only [RandomSource.draw, List.length_map, List.length_range, List.length_take, List.length_drop, hlength]
    omega
  · have hlt : i < n := by simpa [RandomSource.draw] using hi
    have hdiv : (152 * k + skip + i) / 152 = k := by omega
    have hmod : (152 * k + skip + i) % 152 = skip + i := by omega
    simp only [RandomSource.draw, List.getElem_map, List.getElem_range, tape, hdiv, hmod, List.getElem_take,
      List.getElem_drop]
    exact (List.getElem_eq_getD 0).symm

theorem next_tape (secrets : Nat → Secret × Secret × FixedBytes 24) (k : Nat) :
    next ⟨tape secrets, 152 * k⟩ =
      (ofSecrets (secrets k).1 (secrets k).2.1 (secrets k).2.2, ⟨tape secrets, 152 * (k + 1)⟩) := by
  have hparent : ((⟨tape secrets, 152 * k⟩ : RandomSource).draw secretSize).1 = (secrets k).1 := by
    have hdraw := @draw_tape secrets k 0 secretSize (by decide)
    refine FixedBytes.ext (hdraw.trans ?_)
    rw [List.drop_zero, bytes, List.take_left' (secrets k).1.length_eq]
  have hchild : ((⟨tape secrets, 152 * k + secretSize⟩ : RandomSource).draw secretSize).1 = (secrets k).2.1 := by
    have hdraw := @draw_tape secrets k secretSize secretSize (by decide)
    refine FixedBytes.ext (hdraw.trans ?_)
    rw [bytes, List.drop_left' (secrets k).1.length_eq, List.take_left' (secrets k).2.1.length_eq]
  have hnonce : ((⟨tape secrets, 152 * k + (secretSize + secretSize)⟩ : RandomSource).draw 24).1 =
      (secrets k).2.2 := by
    have hdraw := @draw_tape secrets k (secretSize + secretSize) 24 (by decide)
    refine FixedBytes.ext (hdraw.trans ?_)
    rw [bytes, ← List.drop_drop, List.drop_left' (secrets k).1.length_eq,
      List.drop_left' (secrets k).2.1.length_eq, List.take_of_length_le (Nat.le_of_eq (secrets k).2.2.length_eq)]
  rw [← hparent, ← hchild, ← hnonce]
  rfl

/-- Every list of secrets and nonces is drawn from some source. -/
theorem exists_source (secrets : Nat → Secret × Secret × FixedBytes 24) :
    ∃ source, ∀ n, first n source = (List.range n).map fun i =>
      ofSecrets (secrets i).1 (secrets i).2.1 (secrets i).2.2 := by
  have hfrom : ∀ n k, first n ⟨tape secrets, 152 * k⟩ = (List.range' k n).map fun i =>
      ofSecrets (secrets i).1 (secrets i).2.1 (secrets i).2.2 := by
    intro n
    induction n with
    | zero => exact fun _ => rfl
    | succ n ih =>
      intro k
      rw [first, next_tape, ih, List.range'_succ, List.map_cons]
  refine ⟨⟨tape secrets, 0⟩, fun n => ?_⟩
  rw [List.range_eq_range']
  exact hfrom n 0

/-! Draws that are added and draws that collide. -/

theorem get?_insert_draw (links : Links) (d : Draw) (id : KeyId) :
    (links.insert d.parent.id d.record).get? id = if id = d.parent.id then some d.record else links.get? id := by
  rw [OrderedMap.get?_insert]
  simp only [Std.LawfulEqCmp.compare_eq_iff_eq]

/-- A draw is added to a slot that was empty from the beginning. -/
theorem empty_of_added (h : d ∈ added links draws) : links.get? d.parent.id = none := by
  induction draws generalizing links with
  | nil => cases h
  | cons head rest ih =>
    rw [added] at h
    split at h
    · next hslot =>
      rcases List.mem_cons.1 h with rfl | h
      · exact hslot
      · have hempty := ih h
        rw [get?_insert_draw] at hempty
        split at hempty
        · cases hempty
        · exact hempty
    · exact ih h

theorem nodup_added (links : Links) (draws : List Draw) : ((added links draws).map (·.parent.id)).Nodup := by
  induction draws generalizing links with
  | nil => exact List.nodup_nil
  | cons head rest ih =>
    rw [added]
    split
    · refine List.nodup_cons.2 ⟨fun hmem => ?_, ih _⟩
      -- What is added later finds its slot empty, and that of the first is occupied by then.
      obtain ⟨d, hd, hid⟩ := List.mem_map.1 hmem
      have hempty := empty_of_added hd
      rw [get?_insert_draw, if_pos hid] at hempty
      cases hempty
    · exact ih links

theorem get?_file_of_ne {id : KeyId} (h : ∀ d ∈ draws, d.parent.id ≠ id) :
    (file links draws).get? id = links.get? id :=
  OrderedMap.get?_foldl_insert_of_ne (fun d : Draw => d.parent.id) Draw.record draws links h

theorem get?_file_of_mem (hnodup : (draws.map (·.parent.id)).Nodup) (h : d ∈ draws) :
    (file links draws).get? d.parent.id = some d.record := by
  induction draws generalizing links with
  | nil => cases h
  | cons head rest ih =>
    obtain ⟨hhead, hrest⟩ := List.nodup_cons.1 hnodup
    rcases List.mem_cons.1 h with rfl | h
    · have hlast := @get?_file_of_ne (links.insert d.parent.id d.record) rest d.parent.id
        fun d' hd' he => hhead (List.mem_map.2 ⟨d', hd', he⟩)
      rw [get?_insert_draw, if_pos rfl] at hlast
      exact hlast
    · exact ih hrest h

theorem size_file_added (links : Links) (draws : List Draw) :
    (file links (added links draws)).size = links.size + (added links draws).length := by
  induction draws generalizing links with
  | nil => rfl
  | cons head rest ih =>
    rw [added]
    split
    · next hslot =>
      have hrest := ih (links.insert head.parent.id head.record)
      rw [OrderedMap.size_insert hslot] at hrest
      rw [List.length_cons]
      exact hrest.trans (by omega)
    · exact ih links

/-- A draw collides with a link that was there from the beginning, or with another draw. -/
theorem cause_of_collided (h : d ∈ collided links draws) :
    links.get? d.parent.id ≠ none ∨ ∃ d' ∈ added links draws, d'.parent.id = d.parent.id := by
  induction draws generalizing links with
  | nil => cases h
  | cons head rest ih =>
    rw [collided] at h
    rw [added]
    split at h
    · next hslot =>
      rw [if_pos hslot]
      rcases ih h with hlater | ⟨d', hd', hid⟩
      · rw [get?_insert_draw] at hlater
        split at hlater
        · next hid => exact .inr ⟨head, List.mem_cons_self, hid.symm⟩
        · exact .inl hlater
      · exact .inr ⟨d', List.mem_cons_of_mem _ hd', hid⟩
    · next hslot =>
      rw [if_neg hslot]
      rcases List.mem_cons.1 h with rfl | h
      · exact .inl hslot
      · exact ih h

theorem length_added_collided (links : Links) (draws : List Draw) :
    (added links draws).length + (collided links draws).length = draws.length := by
  induction draws generalizing links with
  | nil => rfl
  | cons head rest ih =>
    rw [added, collided]
    split
    · have := ih (links.insert head.parent.id head.record)
      rw [List.length_cons, List.length_cons]
      omega
    · have := ih links
      rw [List.length_cons, List.length_cons]
      omega

/-- Whether links are others with the decoys of those draws that are added, and nothing else is different. -/
structure Filed (links : Links) (draws : List Draw) (links' : Links) : Prop where
  all : (added links draws).length + (collided links draws).length = draws.length
  distinct : ((added links draws).map (·.parent.id)).Nodup
  empty : ∀ d ∈ added links draws, links.get? d.parent.id = none
  opens : ∀ d ∈ added links draws, ∃ record, links'.get? d.parent.id = some record ∧
    Link.decrypt d.parent record.bytes = .ok d.child ∧ d.child.isTerminal = true
  kept : ∀ id record, links.get? id = some record → links'.get? id = some record
  others : ∀ id, (∀ d ∈ added links draws, d.parent.id ≠ id) → links'.get? id = links.get? id
  size : links'.size = links.size + (added links draws).length
  cause : ∀ d ∈ collided links draws,
    links.get? d.parent.id ≠ none ∨ ∃ d' ∈ added links draws, d'.parent.id = d.parent.id

theorem mem_of_added (h : d ∈ added links draws) : d ∈ draws := by
  induction draws generalizing links with
  | nil => cases h
  | cons head rest ih =>
    rw [added] at h
    split at h
    · rcases List.mem_cons.1 h with rfl | h
      · exact List.mem_cons_self
      · exact List.mem_cons_of_mem _ (ih h)
    · exact List.mem_cons_of_mem _ (ih h)

theorem filed_first (links : Links) (n : Nat) (source : RandomSource) :
    Filed links (first n source) (file links (added links (first n source))) := by
  refine ⟨length_added_collided _ _, nodup_added _ _, fun _ => empty_of_added, fun d hd => ?_, fun id record hslot => ?_,
    fun _ => get?_file_of_ne, size_file_added _ _, fun _ => cause_of_collided⟩
  · obtain ⟨hterminal, hdecrypt⟩ := decrypt_of_mem (mem_of_added hd)
    exact ⟨d.record, get?_file_of_mem (nodup_added _ _) hd, hdecrypt, hterminal⟩
  · rw [get?_file_of_ne, hslot]
    intro d hd hid
    have hempty := empty_of_added hd
    rw [hid, hslot] at hempty
    cases hempty

/-- Whether draws are those that were made when this was the outcome of adding `count` decoys, with `spare`
    collisions to be tolerated. -/
def Explains (links : Links) (count spare : Nat) (draws : List Draw)
    (outcome : Except KeychainError (List (KeyId × KeyId)) × Store × RandomSource) : Prop :=
  outcome.2.1.links = file links (added links draws) ∧
  (outcome.1 = .ok ((added links draws).map ids) ∧ (added links draws).length = count ∧
      (collided links draws).length ≤ spare ∨
    ∃ d, outcome.1 = .error (.chainExists d.parent.id d.child.id) ∧
      draws.getLast? = some d ∧ (collided links draws).getLast? = some d ∧
      (collided links draws).length = spare + 1 ∧ (added links draws).length < count)

variable {count spare : Nat} {outcome : Except KeychainError (List (KeyId × KeyId)) × Store × RandomSource}

theorem getLast?_cons_of_some {α : Type} {a b : α} {l : List α} (h : l.getLast? = some b) :
    (a :: l).getLast? = some b := by
  rw [List.getLast?_cons, h]
  rfl

/-- One draw is added before the others are made. -/
theorem Explains.add (hslot : links.get? d.parent.id = none)
    (h : Explains (links.insert d.parent.id d.record) count spare draws outcome) :
    Explains links (count + 1) spare (d :: draws)
      (outcome.1.map fun added => d.ids :: added, outcome.2.1, outcome.2.2) := by
  obtain ⟨hlinks, hcases⟩ := h
  unfold Explains
  rw [added, if_pos hslot, collided, if_pos hslot, List.length_cons]
  refine ⟨hlinks, ?_⟩
  rcases hcases with ⟨hok, hcount, hspare⟩ | ⟨last, herror, hlast, hlast', hspare, hcount⟩
  · refine .inl ⟨?_, by rw [hcount], hspare⟩
    rw [hok]
    rfl
  · refine .inr ⟨last, ?_, getLast?_cons_of_some hlast, hlast', hspare, by omega⟩
    rw [herror]
    rfl

/-- One draw collides before the others are made. -/
theorem Explains.collide (hslot : links.get? d.parent.id ≠ none) (h : Explains links count spare draws outcome) :
    Explains links count (spare + 1) (d :: draws) outcome := by
  obtain ⟨hlinks, hcases⟩ := h
  unfold Explains
  rw [added, if_neg hslot, collided, if_neg hslot, List.length_cons]
  refine ⟨hlinks, ?_⟩
  rcases hcases with ⟨hok, hcount, hspare⟩ | ⟨last, herror, hlast, hlast', hspare, hcount⟩
  · exact .inl ⟨hok, hcount, by omega⟩
  · exact .inr ⟨last, herror, getLast?_cons_of_some hlast, getLast?_cons_of_some hlast', by rw [hspare], hcount⟩

/-- One draw collides, and no collision is tolerated any more. -/
theorem explains_last (hslot : links.get? d.parent.id ≠ none) {s : Store} (hs : s.links = links) (hcount : 0 < count)
    (source : RandomSource) :
    Explains links count 0 [d] (.error (.chainExists d.parent.id d.child.id), s, source) := by
  unfold Explains
  rw [added, if_neg hslot, collided, if_neg hslot]
  exact ⟨hs, .inr ⟨d, rfl, rfl, rfl, rfl, hcount⟩⟩

/-- A draw that is repeated is added once. -/
theorem added_replicate (hslot : links.get? d.parent.id = none) (n : Nat) :
    added links (List.replicate (n + 1) d) = [d] := by
  have hoccupied : ∀ (n : Nat) (links : Links), links.get? d.parent.id ≠ none →
      added links (List.replicate n d) = [] := by
    intro n links hslot
    induction n with
    | zero => rfl
    | succ n ih => rw [List.replicate_succ, added, if_neg hslot, ih]
  rw [List.replicate_succ, added, if_pos hslot, hoccupied]
  rw [get?_insert_draw, if_pos rfl]
  exact fun h => by cases h

end Draw

namespace Store

variable {s : Store}

/-- A draw for an empty slot is added, in front of those that are still to be. -/
theorem addDecoys_of_empty (hs : s.mode = .exclusive) {source : RandomSource}
    (hslot : s.links.get? (Draw.next source).1.parent.id = none) (count spare : Nat) :
    addDecoys (count + 1) spare s source =
      let d := (Draw.next source).1
      let rest := addDecoys count spare { s with links := s.links.insert d.parent.id d.record, dirty := true }
        (Draw.next source).2
      (rest.1.map fun added => d.ids :: added, rest.2.1, rest.2.2) := by
  have hlink : s.insertLink (Key.random .invalid source).1 (Key.random .invalid (Key.random .invalid source).2).1
      (Key.random .invalid (Key.random .invalid source).2).2 = _ := insertLink_of_empty hs hslot _ _
  rw [addDecoys_succ]
  dsimp only
  rw [hlink]
  rfl

/-- A draw for an occupied slot is made anew, as long as collisions are tolerated. -/
theorem addDecoys_of_occupied (hs : s.mode = .exclusive) {source : RandomSource}
    (hslot : s.links.get? (Draw.next source).1.parent.id ≠ none) (count spare : Nat) :
    addDecoys (count + 1) 0 s source =
        (.error (.chainExists (Draw.next source).1.parent.id (Draw.next source).1.child.id), s, (Draw.next source).2) ∧
      addDecoys (count + 1) (spare + 1) s source = addDecoys (count + 1) spare s (Draw.next source).2 := by
  have hlink : s.insertLink (Key.random .invalid source).1 (Key.random .invalid (Key.random .invalid source).2).1
      (Key.random .invalid (Key.random .invalid source).2).2 =
        (.error (.chainExists (Draw.next source).1.parent.id (Draw.next source).1.child.id),
          (Draw.next source).2) := by
    have hslot' : s.links.get? (Key.random .invalid source).1.id ≠ none := hslot
    rw [insertLink_eq]
    unfold insert ensureWritable lookup?
    rw [hs]
    cases hrecord : s.links.get? (Key.random .invalid source).1.id with
    | none => exact absurd hrecord hslot'
    | some record => rfl
  constructor
  · rw [addDecoys_succ]
    dsimp only
    rw [hlink]
  · rw [addDecoys_succ]
    dsimp only
    rw [hlink]

/-- Decoys are added until there are enough of them, or until one collision more than is tolerated. Either way
    those that were added until then stay. -/
theorem addDecoys_draws (hs : s.mode = .exclusive) (count spare : Nat) (source : RandomSource) :
    ∃ n, Draw.Explains s.links count spare (Draw.first n source) (addDecoys count spare s source) := by
  -- An addition leaves fewer to be added, with as many collisions to spare; a collision leaves fewer to spare.
  induction count generalizing s spare source with
  | zero =>
    rw [addDecoys]
    exact ⟨0, rfl, .inl ⟨rfl, rfl, Nat.zero_le _⟩⟩
  | succ count ih =>
    have hadded : ∀ spare source, s.links.get? (Draw.next source).1.parent.id = none →
        ∃ n, Draw.Explains s.links (count + 1) spare (Draw.first n source) (addDecoys (count + 1) spare s source) := by
      intro spare source hslot
      rw [addDecoys_of_empty hs hslot]
      let added := (Draw.next source).1
      obtain ⟨n, hrest⟩ := @ih { s with links := s.links.insert added.parent.id added.record, dirty := true } hs
        spare (Draw.next source).2
      exact ⟨n + 1, hrest.add hslot⟩
    induction spare generalizing source with
    | zero =>
      by_cases hslot : s.links.get? (Draw.next source).1.parent.id = none
      · exact hadded 0 source hslot
      · rw [(addDecoys_of_occupied hs hslot count 0).1]
        exact ⟨1, Draw.explains_last hslot rfl (Nat.succ_pos count) _⟩
    | succ spare ihspare =>
      by_cases hslot : s.links.get? (Draw.next source).1.parent.id = none
      · exact hadded (spare + 1) source hslot
      · rw [(addDecoys_of_occupied hs hslot count spare).2]
        obtain ⟨n, hrest⟩ := ihspare (Draw.next source).2
        exact ⟨n + 1, hrest.collide hslot⟩

/-- Adding decoys is exact, for every store that is open for changes and whatever is drawn. Either there are as
    many decoys as were asked for, each listed, in a slot of its own that was empty before, and at most eight
    draws collided; or nine draws collided, the last of them the last that was made, and the fewer decoys that
    were added before it stay. A call leaves these links in the file, even if it ends with that error. -/
theorem inject_exact (hs : s.mode = .exclusive) {count : Nat} (hcount : 1 ≤ count) (source : RandomSource) :
    (∃ n, let draws := Draw.first n source
      let added := Draw.added s.links draws
      let collided := Draw.collided s.links draws
      Draw.Filed s.links draws (s.inject count source).2.1.links ∧
      ((s.inject count source).1 = .ok (added.map Draw.ids) ∧ added.length = count ∧ collided.length ≤ 8 ∨
        ∃ d, (s.inject count source).1 = .error (.chainExists d.parent.id d.child.id) ∧
          draws.getLast? = some d ∧ collided.getLast? = some d ∧ collided.length = 9 ∧ added.length < count)) ∧
    ∀ (m : Machine) (root : Root) (dir : Location), m.Stores root.path dir s.links → m.diskFaults = {} →
      s.path = pathFor root.path →
      ∃ m', (root.inject count source).run m = (((s.inject count source).1, (s.inject count source).2.2), m') ∧
        (load (pathFor root.path)).run m' = (.ok (s.inject count source).2.1.links, m') := by
  constructor
  · rw [inject, if_neg (by omega)]
    obtain ⟨n, hlinks, hcases⟩ := addDecoys_draws hs count maxCollisions source
    refine ⟨n, ?_, hcases⟩
    rw [hlinks]
    exact Draw.filed_first s.links n source
  · intro m root dir h hfaultless hpath
    obtain ⟨m', hrun, hfaultless', content, h', hspelled⟩ :=
      Root.run_inject_faultless h hfaultless hpath hs count source
    refine ⟨m', hrun, ?_⟩
    rw [run_load_faultless h' hfaultless', hspelled]

/-- Two decoys are asked for, and the same is drawn over and over: one is added, and the call fails. -/
theorem inject_exact_repeated :
    let root : Root := ⟨⟨"/"⟩⟩
    let s : Store := ⟨pathFor root.path, OrderedMap.empty, false, .exclusive, none⟩
    let m := Machine.new Disk.empty
    s.mode = .exclusive ∧ 1 ≤ 2 ∧ m.Stores root.path Location.root s.links ∧ m.diskFaults = {} ∧
      ∃ source parent child links m', (root.inject 2 source).run m =
          ((.error (.chainExists parent child), (s.inject 2 source).2.2), m') ∧
        (load (pathFor root.path)).run m' = (.ok links, m') ∧ links.size = 1 ∧ links.get? parent ≠ none := by
  intro root s m
  have hstores : m.Stores root.path Location.root s.links := ⟨none, holds_new, rfl⟩
  refine ⟨rfl, by decide, hstores, rfl, ?_⟩
  obtain ⟨source, hsource⟩ := Draw.exists_source fun _ => (.zero secretSize, .zero secretSize, .zero 24)
  obtain ⟨⟨n, hfiled, hcases⟩, hcall⟩ := @inject_exact s rfl 2 (by decide) source
  obtain ⟨m', hrun, hload⟩ := hcall m root Location.root hstores rfl rfl
  rw [hsource, List.map_const', List.length_range] at hfiled hcases
  generalize Draw.ofSecrets _ _ _ = d at hfiled hcases
  cases n with
  | zero =>
    rcases hcases with ⟨-, hcount, -⟩ | ⟨_, -, hlast, -⟩
    · cases hcount
    · cases hlast
  | succ n =>
    have hadded := @Draw.added_replicate s.links d rfl n
    obtain ⟨record, hslot, -⟩ := hfiled.opens d (by rw [hadded]; exact List.mem_cons_self)
    have hsize := hfiled.size
    rw [hadded] at hsize hcases
    rcases hcases with ⟨-, hcount, -⟩ | ⟨d', herror, hlast, -⟩
    · cases hcount
    · obtain rfl : d' = d := (List.mem_replicate.1 (List.mem_of_getLast? hlast)).2
      rw [herror] at hrun
      exact ⟨source, _, _, _, m', hrun, hload, hsize, by rw [hslot]; exact fun h => by cases h⟩

end Store

end KeyChain
