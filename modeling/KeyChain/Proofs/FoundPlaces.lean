import KeyChain.Proofs.DerivedKeys
import KeyChain.Proofs.Markers
/-! Where the search for a file ends, in terms of the tree. A walk goes through directories, by names that stand for
   themselves, whatever links and dots it meets. So the path that writes the place it ends at leads straight back
   there, and what is asked of that path is answered by what the tree has at the place.

   1. `plainWay_steps`: the names on the way along a path stand for themselves;
   2. `walk_isPlace`: a walk goes from place to place (`IsPlace`), and does not end at a link;
   3. `pieces_path`, `parts_path`, `walk_names`: the path of a place has its names as pieces, and a walk along them
      meets no link;
   4. `isDirectory_path`, `isPresent_join`, `isMarked_iff`: what is asked of the path of a place. -/
namespace KeyChain

/-! Names on a way. -/

/-- No piece between slashes has a slash. -/
theorem mem_of_mem_segments {cs piece : List Char} (h : piece ∈ segments cs) : ∀ c ∈ piece, c ∈ cs ∧ c ≠ '/' := by
  induction cs generalizing piece with
  | nil =>
    obtain rfl := List.mem_singleton.1 h
    exact fun c hc => by cases hc
  | cons first rest ih =>
    rw [segments] at h
    split at h
    · rcases List.mem_cons.1 h with rfl | h
      · exact fun c hc => by cases hc
      · exact fun c hc => ⟨List.mem_cons_of_mem _ (ih h c hc).1, (ih h c hc).2⟩
    · next hslash =>
      cases hsegments : segments rest with
      | nil => exact absurd hsegments (segments_ne_nil rest)
      | cons head tail =>
        rw [hsegments] at h ih
        rcases List.mem_cons.1 h with rfl | h
        · intro c hc
          rcases List.mem_cons.1 hc with rfl | hc
          · exact ⟨List.mem_cons_self, hslash⟩
          · exact ⟨List.mem_cons_of_mem _ (ih List.mem_cons_self c hc).1, (ih List.mem_cons_self c hc).2⟩
        · have hmem := ih (List.mem_cons_of_mem _ h)
          exact fun c hc => ⟨List.mem_cons_of_mem _ (hmem c hc).1, (hmem c hc).2⟩

namespace Disk

/-- Whether the names on a way stand for themselves, those apart that are too long for any file. -/
def PlainWay (way : List Step) : Prop :=
  ∀ n, .part (.name n) ∈ way → n.utf8ByteSize ≤ maxNameSize → PlainName n

theorem PlainWay.tail {s : Step} {way : List Step} (h : PlainWay (s :: way)) : PlainWay way :=
  fun n hn => h n (List.mem_cons_of_mem _ hn)

theorem PlainWay.append {way way' : List Step} (h : PlainWay way) (h' : PlainWay way') : PlainWay (way ++ way') :=
  fun n hn => (List.mem_append.1 hn).elim (h n) (h' n)

/-- A name on the way along a path is what one of its pieces stands for. -/
theorem exists_piece_of_mem_steps {p : Path} {n : String} (h : .part (.name n) ∈ steps p) :
    ∃ piece ∈ segments p.text.toList, Path.partOf? piece = some (.name n) := by
  unfold steps at h
  rcases List.mem_append.1 h with h | h
  · rcases List.mem_append.1 h with h | h
    · split at h
      · cases List.mem_singleton.1 h
      · cases h
    · obtain ⟨piece, hmem, hpart⟩ := List.mem_map.1 h
      refine ⟨piece, (List.mem_filter.1 hmem).1, ?_⟩
      cases hname : Path.partOf? piece with
      | none => rw [hname] at hpart; cases hpart
      | some part => rw [hname] at hpart; exact congrArg some (Step.part.inj hpart)
  · split at h
    · cases List.mem_singleton.1 h
    · cases h

/-- A piece that stands for a name is the name, and neither empty nor dots. -/
theorem partOf?_eq_name {piece : List Char} {n : String} (h : Path.partOf? piece = some (.name n)) :
    n.toList = piece ∧ n ≠ "" ∧ n ≠ "." ∧ n ≠ ".." := by
  unfold Path.partOf? at h
  split at h
  · cases h
  next hdot =>
  rw [not_or] at hdot
  split at h
  · cases h
  next hup =>
  obtain rfl : String.ofList piece = n := Part.name.inj (Option.some.inj h)
  have hne : ∀ cs, piece ≠ cs → String.ofList piece ≠ String.ofList cs := fun cs hcs he =>
    hcs (String.ofList_injective he)
  exact ⟨String.toList_ofList, hne [] hdot.1, hne ['.'] hdot.2, hne ['.', '.'] hup⟩

theorem plainWay_steps {p : Path} (hnul : '\x00' ∉ p.text.toList) : PlainWay (steps p) := by
  intro n hn hsize
  obtain ⟨piece, hsegment, hpart⟩ := exists_piece_of_mem_steps hn
  obtain ⟨rfl, hempty, hdot, hup⟩ := partOf?_eq_name hpart
  have hchars := mem_of_mem_segments hsegment
  exact ⟨fun hc => (hchars _ hc).2 rfl, fun hc => hnul (hchars _ hc).1, hempty, hdot, hup, hsize⟩

/-! Places. -/

/-- Whether a link leads to no path with a NUL, as a path with one cannot be asked for. -/
def IsSpelled (d : Disk) : Prop := ∀ l target, d.node? l = some (.link target) → '\x00' ∉ target.text.toList

variable {d : Disk}

theorem isSpelled_empty : empty.IsSpelled := by
  intro l target h
  unfold node? at h
  split at h <;> cases h

theorem IsSpelled.put (h : d.IsSpelled) (l : Location) {n : Node}
    (hn : ∀ target, n = .link target → '\x00' ∉ target.text.toList) : (d.put l n).IsSpelled := by
  intro l' target hlink
  by_cases hroot : l = Location.root
  · subst hroot
    by_cases hroot' : l' = Location.root
    · subst hroot'
      cases hlink
    · have hne : ¬ compare l'.names Location.root.names = .eq := fun he =>
        hroot' (congrArg Location.mk (Std.LawfulEqCmp.eq_of_compare he))
      refine h l' target ?_
      rw [node?, if_neg hroot', Disk.put, OrderedMap.get?_insert, if_neg hne] at hlink
      rw [node?, if_neg hroot', hlink]
  · rw [node?_put _ _ _ _ hroot] at hlink
    split at hlink
    · exact hn target (Option.some.inj hlink)
    · exact h l' target hlink

theorem not_mem_of_trail {p : Path} {way : List Step} (h : trail p = .ok way) :
    '\x00' ∉ p.text.toList ∧ way = steps p := by
  unfold trail at h
  split at h
  · cases h
  split at h
  · cases h
  · next hnul =>
    cases h
    exact ⟨by simpa using hnul, rfl⟩

theorem not_mem_of_shortTrail {p : Path} {way : List Step} (h : shortTrail p = .ok way) : '\x00' ∉ p.text.toList := by
  obtain ⟨_, htrail, -⟩ := except_bind_ok_iff.1 h
  exact (not_mem_of_trail htrail).1

/-- What a link is to lead to is asked for before the link is made. -/
theorem IsSpelled.makeLink {d' : Disk} {target p : Path} (h : d.IsSpelled) (hmake : d.makeLink target p = .ok d') :
    d'.IsSpelled := by
  obtain ⟨_, htarget, hmake⟩ := except_bind_ok_iff.1 hmake
  obtain ⟨onward, -, hmake⟩ := except_bind_ok_iff.1 hmake
  obtain ⟨spot, -, hmake⟩ := except_bind_ok_iff.1 hmake
  split at hmake
  · cases hmake
  split at hmake
  · cases hmake
  cases hmake
  exact h.put spot.location fun t ht => Node.link.inj ht ▸ not_mem_of_shortTrail htarget

/-- The places that can be come to: from the root downwards, by names that stand for themselves. -/
inductive IsPlace (d : Disk) : Location → Prop where
  | root : IsPlace d Location.root
  | child {l : Location} {n : String} : IsPlace d l → d.node? l = some .directory → PlainName n → IsPlace d (l.child n)

theorem node?_root (d : Disk) : d.node? Location.root = some .directory := if_pos rfl

namespace IsPlace

variable {l x : Location}

theorem parent (h : d.IsPlace l) : d.IsPlace l.parent ∧ d.node? l.parent = some .directory := by
  cases h with
  | root => exact ⟨.root, d.node?_root⟩
  | @child l n hl hdirectory hplain =>
    have hparent : (l.child n).parent = l := congrArg Location.mk List.dropLast_concat
    rw [hparent]
    exact ⟨hl, hdirectory⟩

/-- What is above a place is a place, and a directory. -/
theorem above (h : d.IsPlace l) (hx : l.isWithin x = true) :
    d.IsPlace x ∧ (x = l ∨ d.node? x = some .directory) := by
  induction h with
  | root =>
    have hnil : x.names = [] := List.prefix_nil.1 (List.isPrefixOf_iff_prefix.1 hx)
    obtain rfl : x = Location.root := congrArg Location.mk hnil
    exact ⟨.root, .inl rfl⟩
  | @child l n hl hdirectory hplain ih =>
    rcases List.prefix_concat_iff.1 (List.isPrefixOf_iff_prefix.1 hx) with hall | hprefix
    · obtain rfl : x = l.child n := congrArg Location.mk hall
      exact ⟨.child hl hdirectory hplain, .inl rfl⟩
    · obtain ⟨hplace, hdir⟩ := ih (List.isPrefixOf_iff_prefix.2 hprefix)
      refine ⟨hplace, .inr ?_⟩
      rcases hdir with rfl | hdir
      · exact hdirectory
      · exact hdir

end IsPlace

/-- A walk goes from directory to directory, and ends at what is at a place. It does not end at a link, unless it is
    for one. -/
theorem walk_isPlace (hd : d.IsSpelled) {aim : Aim} (haim : aim ≠ .entry) :
    ∀ {links : Nat} {way : List Step} {here : Location} {spot : Spot}, PlainWay way → d.IsPlace here →
      d.node? here = some .directory → d.walk aim links here way = .ok spot →
      d.IsPlace spot.location ∧ spot.node = d.node? spot.location ∧ ∀ target, spot.node ≠ some (.link target)
  | links, [], here, spot, hway, hplace, hhere, hwalk => by
    rw [walk] at hwalk
    cases hwalk
    exact ⟨hplace, hhere.symm, fun _ h => by cases h⟩
  | links, .slash :: way, here, spot, hway, hplace, hhere, hwalk => by
    rw [walk] at hwalk
    exact walk_isPlace hd haim hway.tail hplace hhere hwalk
  | links, .part .root :: way, here, spot, hway, hplace, hhere, hwalk => by
    rw [walk] at hwalk
    exact walk_isPlace hd haim hway.tail .root d.node?_root hwalk
  | links, .part .here :: way, here, spot, hway, hplace, hhere, hwalk => by
    rw [walk] at hwalk
    exact walk_isPlace hd haim hway.tail hplace hhere hwalk
  | links, .part .up :: way, here, spot, hway, hplace, hhere, hwalk => by
    rw [walk] at hwalk
    exact walk_isPlace hd haim hway.tail hplace.parent.1 hplace.parent.2 hwalk
  | links, .part (.name n) :: way, here, spot, hway, hplace, hhere, hwalk => by
    rw [walk] at hwalk
    split at hwalk
    · cases hwalk
    split at hwalk
    · cases hwalk
    next hsize =>
    have hchild : d.IsPlace (here.child n) :=
      .child hplace hhere (hway n List.mem_cons_self (Nat.not_lt.1 hsize))
    split at hwalk
    · next hnode =>
      split at hwalk
      · cases hwalk
        exact ⟨hchild, hnode.symm, fun _ h => by cases h⟩
      · cases hwalk
    · next hnode => exact walk_isPlace hd haim hway.tail hchild hnode hwalk
    · next hnode =>
      split at hwalk
      · cases hwalk
        exact ⟨hchild, hnode.symm, fun _ h => by cases h⟩
      · cases hwalk
    · next target hnode =>
      rw [if_neg fun hend => haim hend.2] at hwalk
      cases links with
      | zero => cases hwalk
      | succ links =>
        have htarget : PlainWay (steps target) := plainWay_steps (hd _ _ hnode)
        exact walk_isPlace hd haim (htarget.append hway.tail) hplace hhere hwalk
termination_by links way => (links, way.length)

/-- A file that was found is at a place whose path is not too long to be asked for. -/
theorem isPlace_of_realPath (hd : d.IsSpelled) {p : Path} {l : Location} (hpath : d.realPath p = .ok l) :
    d.IsPlace l ∧ (∃ node, d.node? l = some node ∧ ∀ target, node ≠ .link target) ∧
      l.path.text.utf8ByteSize ≤ maxPathSize := by
  obtain ⟨way, htrail, hrest⟩ := except_bind_ok_iff.1 hpath
  obtain ⟨hnul, rfl⟩ := not_mem_of_trail htrail
  obtain ⟨spot, hfollow, hfound⟩ := except_bind_ok_iff.1 hrest
  obtain ⟨hplace, hnode, hlink⟩ := walk_isPlace hd (by decide) (plainWay_steps hnul) .root d.node?_root hfollow
  split at hfound
  · cases hfound
  next hsize =>
  split at hfound
  · next hsome =>
    cases hfound
    obtain ⟨node, hnode'⟩ := Option.isSome_iff_exists.1 hsome
    exact ⟨hplace, ⟨node, hnode ▸ hnode', fun target he => hlink target (he ▸ hnode')⟩, Nat.not_lt.1 hsize⟩
  · cases hfound

/-! Paths of locations. -/

/-- Whether the names of a location stand for themselves. -/
def PlainLocation (l : Location) : Prop := ∀ n ∈ l.names, PlainName n

variable {l x : Location} {n : String}

theorem PlainLocation.child (h : PlainLocation l) (hn : PlainName n) : PlainLocation (l.child n) := by
  intro m hm
  rcases List.mem_append.1 hm with hm | hm
  · exact h m hm
  · exact List.mem_singleton.1 hm ▸ hn

theorem IsPlace.plain (h : d.IsPlace l) : PlainLocation l := by
  induction h with
  | root => exact fun n hn => by cases hn
  | child hl hdirectory hplain ih => exact ih.child hplain

theorem toList_path (l : Location) : l.path.text.toList = '/' :: ['/'].intercalate (l.names.map String.toList) := by
  simp [Location.path]

theorem path_ne_empty (l : Location) : l.path.text ≠ "" := by
  intro he
  have hnil := congrArg String.toList he
  rw [toList_path] at hnil
  cases hnil

theorem isAbsolute_path (l : Location) : l.path.isAbsolute = true := by
  rw [Path.isAbsolute, toList_path]
  rfl

/-- Behind a last name there is no slash. -/
theorem endsInSlash_child (l : Location) (hn : PlainName n) : (l.child n).path.endsInSlash = false := by
  have htext : ∃ before, (l.child n).path.text.toList = before ++ n.toList := by
    by_cases hnames : l.names = []
    · exact ⟨['/'], by simp [Location.path, Location.child, hnames]⟩
    · refine ⟨('/' :: ("/".intercalate l.names).toList) ++ ['/'], ?_⟩
      rw [Location.path, Location.child, String.intercalate_append_of_ne_nil hnames (List.cons_ne_nil n [])]
      simp
  obtain ⟨before, htext⟩ := htext
  have hlast := List.getLast?_eq_some_getLast hn.toList_ne_nil
  have hslash : n.toList.getLast hn.toList_ne_nil ≠ '/' := fun he => hn.1 (he ▸ List.getLast_mem _)
  unfold Path.endsInSlash
  rw [htext, List.getLast?_append, hlast]
  simpa using hslash

/-- The path of a name in a directory is that of the directory with the name behind it. -/
theorem PlainLocation.path_child (h : PlainLocation l) (n : String) : (l.child n).path = l.path.join n := by
  unfold Path.join
  rcases List.eq_nil_or_concat' l.names with hnames | ⟨names, m, hnames⟩
  · obtain rfl : l = Location.root := congrArg Location.mk hnames
    rfl
  · obtain rfl : l = Location.child ⟨names⟩ m := congrArg Location.mk hnames
    have hends := endsInSlash_child ⟨names⟩ (h m (by simp [Location.child]))
    rw [if_neg (by simp [path_ne_empty, hends])]
    have hlast : "/".intercalate ((names ++ [m]) ++ [n]) = "/".intercalate (names ++ [m]) ++ "/" ++ n := by
      rw [String.intercalate_append_of_ne_nil (by simp) (List.cons_ne_nil n []), String.intercalate_singleton]
    simp only [Location.path, Location.child, hlast, String.append_assoc]

/-- The pieces of the path of a location are its names. -/
theorem PlainLocation.pieces_path (h : PlainLocation l) :
    (segments l.path.text.toList).filter (· ≠ []) = l.names.map String.toList := by
  have hnames : ∀ names : List String, (∀ n ∈ names, PlainName n) →
      (segments (['/'].intercalate (names.map String.toList))).filter (· ≠ []) = names.map String.toList := by
    intro names hplain
    induction names with
    | nil => rfl
    | cons n rest ih =>
      have hn := hplain n List.mem_cons_self
      have hpiece : (segments n.toList).filter (· ≠ []) = [n.toList] := by
        rw [segments_of_not_mem hn.1]
        simpa using hn.toList_ne_nil
      specialize ih fun m hm => hplain m (List.mem_cons_of_mem _ hm)
      cases rest with
      | nil => simpa using hpiece
      | cons m rest =>
        rw [List.map_cons, List.map_cons, List.intercalate_cons_cons, ← List.map_cons, List.append_assoc,
          List.singleton_append, segments_append, List.filter_append, hpiece, ih]
        rfl
  rw [toList_path, segments, if_pos rfl, List.filter_cons_of_neg (by simp), hnames l.names h]

/-- The parts of the path of a location are the root and the names. So the paths of two locations count as one only
    if the locations are one. -/
theorem PlainLocation.parts_path (h : PlainLocation l) : l.path.parts = .root :: l.names.map .name := by
  have hparts : (segments l.path.text.toList).filterMap Path.partOf? =
      ((segments l.path.text.toList).filter (· ≠ [])).filterMap Path.partOf? := by
    rw [List.filterMap_filter]
    refine List.filterMap_congr fun piece _ => ?_
    by_cases hnil : piece = []
    · subst hnil
      rfl
    · rw [if_pos (by simpa using hnil)]
  unfold Path.parts
  dsimp only
  rw [if_pos (isAbsolute_path l), hparts, h.pieces_path, List.filterMap_map, ← List.filterMap_eq_map]
  exact congrArg (Part.root :: ·) (List.filterMap_congr fun n hn => (h n hn).partOf?)

/-- The steps along the path of a name in a directory are the root and the names. -/
theorem PlainLocation.steps_child (h : PlainLocation l) (hn : PlainName n) :
    steps (l.child n).path = .part .root :: (l.names.map fun m => .part (.name m)) ++ [.part (.name n)] := by
  have hchild := h.child hn
  unfold steps
  dsimp only
  rw [if_pos (isAbsolute_path _), endsInSlash_child l hn, hchild.pieces_path, List.map_map]
  have hnames : (l.child n).names.map ((fun piece => Step.part ((Path.partOf? piece).getD .here)) ∘ String.toList) =
      (l.names ++ [n]).map fun m => .part (.name m) := by
    refine List.map_congr_left fun m hm => ?_
    show Step.part ((Path.partOf? m.toList).getD .here) = _
    rw [(hchild m hm).partOf?]
    rfl
  rw [hnames]
  simp

theorem PlainLocation.not_mem_path (h : PlainLocation l) : '\x00' ∉ l.path.text.toList := by
  have hnames : ∀ names : List String, (∀ n ∈ names, PlainName n) →
      '\x00' ∉ ['/'].intercalate (names.map String.toList) := by
    intro names hplain
    induction names with
    | nil => simp
    | cons n rest ih =>
      have hn := (hplain n List.mem_cons_self).2.1
      specialize ih fun m hm => hplain m (List.mem_cons_of_mem _ hm)
      cases rest with
      | nil => simpa using hn
      | cons m rest =>
        rw [List.map_cons, List.map_cons, List.intercalate_cons_cons, ← List.map_cons]
        simp only [List.mem_append, List.mem_singleton, not_or]
        exact ⟨⟨hn, by decide⟩, ih⟩
  rw [toList_path, List.mem_cons, not_or]
  exact ⟨by decide, hnames l.names h⟩

/-! What is asked of the path of a place. -/

/-- A walk along the names of a directory comes to it without a link. -/
theorem IsPlace.walk_names (h : d.IsPlace l) (hdirectory : d.node? l = some .directory) (links : Nat)
    (onward : List Step) :
    d.walk .target links Location.root ((l.names.map fun n => .part (.name n)) ++ onward) =
      d.walk .target links l onward := by
  induction h generalizing onward with
  | root => rfl
  | @child l n hl hparent hplain ih =>
    have hnames : (l.child n).names = l.names ++ [n] := rfl
    rw [hnames, List.map_append, List.append_assoc, ih hparent]
    show d.walk .target links l (.part (.name n) :: onward) = _
    rw [walk, if_neg (by simp), if_neg (Nat.not_lt.2 hplain.2.2.2.2.2), hdirectory]

/-- The path of a name in a directory leads to what is there, or to where the link there leads. -/
theorem IsPlace.locate_child_iff (h : d.IsPlace l) (hdirectory : d.node? l = some .directory) (hn : PlainName n)
    {spot : Spot} :
    d.locate .target (l.child n).path = .ok spot ↔ (l.child n).path.text.utf8ByteSize ≤ maxPathSize ∧
      d.walk .target maxLinks l [.part (.name n)] = .ok spot := by
  rw [locate_ok_iff, h.plain.steps_child hn, List.cons_append, walk, h.walk_names hdirectory]
  have hnul := (h.plain.child hn).not_mem_path
  simp [path_ne_empty, hnul]

/-- The path of a place leads to the place, if there is no link. -/
theorem IsPlace.locate_path (h : d.IsPlace l) (hlink : ∀ target, d.node? l ≠ some (.link target))
    (hsize : l.path.text.utf8ByteSize ≤ maxPathSize) : d.locate .target l.path = .ok ⟨l, d.node? l⟩ := by
  cases h with
  | root => exact (locate_slash d).trans (by rw [d.node?_root])
  | child hl hdirectory hplain =>
    exact (hl.locate_child_iff hdirectory hplain).2 ⟨hsize, walk_name hplain.2.2.2.2.2 hlink _ _⟩

/-- What is at a place is found by the path of the place, and is found there. -/
theorem IsPlace.realPath_path (h : d.IsPlace l) {node : Node} (hnode : d.node? l = some node)
    (hlink : ∀ target, node ≠ .link target) (hsize : l.path.text.utf8ByteSize ≤ maxPathSize) :
    d.realPath l.path = .ok l := by
  have hlocate := h.locate_path (fun target he => hlink target (Option.some.inj (hnode.symm.trans he))) hsize
  obtain ⟨hempty, hnul, -, hwalk⟩ := locate_ok_iff.1 hlocate
  have htrail : trail l.path = .ok (steps l.path) := by
    rw [trail, if_neg hempty, if_neg (by simpa using hnul)]
  unfold realPath
  rw [htrail]
  show (d.walk .target maxLinks Location.root (steps l.path) >>= _) = _
  rw [hwalk, hnode]
  exact if_neg (Nat.not_lt.2 hsize)

/-- The path of a place leads to a directory exactly where there is one. -/
theorem IsPlace.isDirectory_path (h : d.IsPlace l) (hlink : ∀ target, d.node? l ≠ some (.link target))
    (hsize : l.path.text.utf8ByteSize ≤ maxPathSize) :
    d.isDirectory l.path = true ↔ d.node? l = some .directory := by
  rw [isDirectory, h.locate_path hlink hsize]
  generalize d.node? l = node
  rcases node with _ | (_ | _ | _) <;> simp

/-- Whether a directory holds a file of a name, or a link to one, and the path of the name is not too long. -/
structure Holds (d : Disk) (l : Location) (n : String) : Prop where
  directory : d.node? l = some .directory
  short : (l.path.join n).text.utf8ByteSize ≤ maxPathSize
  leads : ∃ spot, d.walk .target maxLinks l [.part (.name n)] = .ok spot ∧ spot.node.isSome

theorem isPresent_iff {p : Path} :
    d.isPresent p = true ↔ ∃ spot, d.locate .target p = .ok spot ∧ spot.node.isSome := by
  unfold isPresent
  rcases d.locate .target p with e | ⟨l, node⟩
  · simp
  · cases node <;> simp

/-- The path of a name behind that of a place is present exactly where the place holds it. -/
theorem IsPlace.isPresent_join (h : d.IsPlace l) (hlink : ∀ target, d.node? l ≠ some (.link target))
    (hn : PlainName n) : d.isPresent (l.path.join n) = true ↔ d.Holds l n := by
  rw [isPresent_iff]
  by_cases hdirectory : d.node? l = some .directory
  · rw [← h.plain.path_child]
    simp only [h.locate_child_iff hdirectory hn]
    constructor
    · intro hpresent
      obtain ⟨spot, ⟨hsize, hwalk⟩, hsome⟩ := hpresent
      exact ⟨hdirectory, h.plain.path_child n ▸ hsize, spot, hwalk, hsome⟩
    · intro hholds
      obtain ⟨spot, hwalk, hsome⟩ := hholds.leads
      exact ⟨spot, ⟨h.plain.path_child n ▸ hholds.short, hwalk⟩, hsome⟩
  · refine iff_of_false (fun hpresent => ?_) fun hholds => hdirectory hholds.directory
    obtain ⟨spot, hlocate, -⟩ := hpresent
    cases h with
    | root => exact hdirectory d.node?_root
    | @child above m habove hparent hplain =>
      -- Nothing is below a file, and the walk stops there.
      obtain ⟨-, -, -, hwalk⟩ := locate_ok_iff.1 hlocate
      have hchild := habove.plain.child hplain
      have hnames : (above.child m).names = above.names ++ [m] := rfl
      rw [← hchild.path_child, hchild.steps_child hn, List.cons_append, walk, hnames, List.map_append,
        List.append_assoc, habove.walk_names hparent] at hwalk
      change d.walk .target maxLinks above [.part (.name m), .part (.name n)] = _ at hwalk
      rw [walk, if_neg (by simp), if_neg (Nat.not_lt.2 hplain.2.2.2.2.2)] at hwalk
      split at hwalk
      · cases hwalk
      · next hnode => exact hdirectory hnode
      · cases hwalk
      · next target hnode => exact hlink target hnode

/-- Without a link what is held is what is there. -/
theorem holds_iff (hn : PlainName n) (hlink : ∀ target, d.node? (l.child n) ≠ some (.link target)) :
    d.Holds l n ↔ d.node? l = some .directory ∧ (l.path.join n).text.utf8ByteSize ≤ maxPathSize ∧
      (d.node? (l.child n)).isSome := by
  have hwalk := walk_name hn.2.2.2.2.2 hlink .target maxLinks
  constructor
  · intro h
    obtain ⟨spot, hspot, hsome⟩ := h.leads
    obtain rfl := Except.ok.inj (hspot.symm.trans hwalk)
    exact ⟨h.directory, h.short, hsome⟩
  · intro h
    exact ⟨h.1, h.2.1, _, hwalk, h.2.2⟩

/-- Whether a directory holds the lock file of a store, or a store. -/
def HoldsStore (d : Disk) (l : Location) : Prop :=
  d.Holds l (Store.fileName ++ ".lock") ∨ d.Holds l Store.fileName

end Disk

/-- The marks of a root are what the directory holds. -/
theorem isMarked_iff {m : Machine} {l : Location} (h : m.disk.IsPlace l)
    (hlink : ∀ target, m.disk.node? l ≠ some (.link target)) : m.isMarked l = true ↔ m.disk.HoldsStore l := by
  rw [Machine.isMarked, Bool.or_eq_true, Store.lockPathFor_eq, Store.pathFor,
    h.isPresent_join hlink (Disk.plainName_of_mem Store.lockName_mem),
    h.isPresent_join hlink (Disk.plainName_of_mem Store.fileName_mem)]
  rfl

end KeyChain
