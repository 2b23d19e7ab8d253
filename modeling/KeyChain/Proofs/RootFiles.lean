import KeyChain.Disk
import KeyChain.Store
/-! The files of a root on a disk. A walk to the root's directory meets directories and links only, so
   files that come and go in that directory leave it as it is (`locate_congr`), and the path of a file
   leads on from there by one name.

   1. `Hosts.locate_file`: each of the three paths that a store uses leads to the place of its name in
      the root's directory, also where a directory has taken the place of the draft (`Keeps.locate_file`);
   2. `Hosts.filled`, `Hosts.drop`: this stays so when files come and go there;
   3. what requests for these paths answer, and what they leave (`openFile_opened`, `read_free`,
      `create_file`, `write_file`, `rename_file`). -/
namespace KeyChain

/-! Paths of files in a directory. -/

theorem segments_of_not_mem {cs : List Char} (h : '/' ∉ cs) : segments cs = [cs] := by
  induction cs with
  | nil => rfl
  | cons c cs ih =>
    rw [List.mem_cons, not_or] at h
    rw [segments, if_neg (Ne.symm h.1), ih h.2]

theorem segments_ne_nil (cs : List Char) : segments cs ≠ [] := by
  cases cs with
  | nil => simp [segments]
  | cons c cs =>
    rw [segments]
    split
    · simp
    · split <;> simp

theorem segments_append (cs cs' : List Char) :
    segments (cs ++ '/' :: cs') = segments cs ++ segments cs' := by
  induction cs with
  | nil => simp [segments]
  | cons c cs ih =>
    rw [List.cons_append, segments, segments, ih]
    split
    · rfl
    · cases hcs : segments cs with
      | nil => exact absurd hcs (segments_ne_nil cs)
      | cons piece pieces => rfl

namespace Disk

/-- A name that stands for itself in a path. -/
def PlainName (n : String) : Prop :=
  '/' ∉ n.toList ∧ '\x00' ∉ n.toList ∧ n ≠ "" ∧ n ≠ "." ∧ n ≠ ".." ∧ n.utf8ByteSize ≤ maxNameSize

theorem PlainName.toList_ne_nil {n : String} (h : PlainName n) : n.toList ≠ [] := fun hnil =>
  h.2.2.1 (String.toList_eq_nil_iff.1 hnil)

theorem PlainName.partOf? {n : String} (h : PlainName n) : Path.partOf? n.toList = some (.name n) := by
  have hdots : ∀ m : String, n ≠ m → n.toList ≠ m.toList := fun m hm he => hm (String.toList_inj.1 he)
  have hup : n.toList ≠ ['.', '.'] := hdots ".." h.2.2.2.2.1
  rw [Path.partOf?, if_neg, if_neg hup, String.ofList_toList]
  intro hpart
  rcases hpart with hnil | hdot
  · exact h.toList_ne_nil hnil
  · exact hdots "." h.2.2.2.1 hdot

theorem toList_join (dir : Path) (n : String) (hdir : dir.text ≠ "") :
    (dir.join n).text.toList =
      if dir.endsInSlash then dir.text.toList ++ n.toList else dir.text.toList ++ '/' :: n.toList := by
  unfold Path.join
  by_cases hslash : dir.endsInSlash = true
  · rw [if_pos (.inr hslash), if_pos hslash, String.toList_append]
  · rw [if_neg (by simp [hdir, hslash]), if_neg hslash, String.toList_append, String.toList_append,
      List.append_assoc]
    rfl

/-- The pieces of a path to a file in a directory. -/
theorem pieces_join {dir : Path} {n : String} (hdir : dir.text ≠ "") (hn : PlainName n) :
    (segments (dir.join n).text.toList).filter (· ≠ []) =
      (segments dir.text.toList).filter (· ≠ []) ++ [n.toList] := by
  have hname : (segments n.toList).filter (· ≠ []) = [n.toList] := by
    rw [segments_of_not_mem hn.1]
    simpa using hn.toList_ne_nil
  rw [toList_join dir n hdir]
  split
  · next hslash =>
    obtain ⟨cs, hcs⟩ := List.getLast?_eq_some_iff.1 (by simpa [Path.endsInSlash] using hslash)
    have hempty : segments [] = [[]] := rfl
    rw [hcs, List.append_assoc, List.singleton_append, segments_append, segments_append, hempty,
      List.filter_append, List.filter_append, hname]
    simp
  · rw [segments_append, List.filter_append, hname]

/-- Behind the steps to a directory, with or without a slash at their end, the path of a file in it has one
    more. -/
theorem steps_join {dir : Path} {n : String} (hdir : dir.text ≠ "") (hn : PlainName n) :
    ∃ way finish, steps dir = way ++ finish ∧ (finish = [] ∨ finish = [.slash]) ∧
      steps (dir.join n) = way ++ [.part (.name n)] := by
  obtain ⟨c, cs, hcs⟩ := List.exists_cons_of_ne_nil fun hnil => hdir (String.toList_eq_nil_iff.1 hnil)
  have habsolute : (dir.join n).isAbsolute = dir.isAbsolute := by
    unfold Path.isAbsolute
    rw [toList_join dir n hdir, hcs]
    split <;> rfl
  have hends : (dir.join n).endsInSlash = false := by
    have hlast := List.getLast?_eq_some_getLast hn.toList_ne_nil
    have hslash : n.toList.getLast hn.toList_ne_nil ≠ '/' := fun he => hn.1 (he ▸ List.getLast_mem _)
    unfold Path.endsInSlash
    rw [toList_join dir n hdir]
    split
    · rw [List.getLast?_append, hlast]
      simpa using hslash
    · rw [List.getLast?_append, List.getLast?_cons_of_ne_nil hn.toList_ne_nil, hlast]
      simpa using hslash
  -- A slash at the end of `dir` is one of its steps; in front of a name it only parts the pieces.
  refine ⟨_, _, rfl, ?_, ?_⟩
  · split
    · exact .inr rfl
    · exact .inl rfl
  · unfold steps
    simp only [pieces_join hdir hn, habsolute, hends, List.map_append, List.map_cons, List.map_nil, hn.partOf?]
    simp

/-! Walks to a directory. -/

/-- Whether a disk has the directories and links that another has. -/
def KeepsTree (d d' : Disk) : Prop :=
  ∀ l, (d.node? l = some .directory → d'.node? l = some .directory) ∧
    ∀ target, d.node? l = some (.link target) → d'.node? l = some (.link target)

variable {d d' : Disk} {aim : Aim} {dir : Location} {finish onward : List Step}

/-- A walk to a directory goes the same way on a disk with the same directories and links, and there it
    goes on with the steps that are put in place of a slash at its end. -/
theorem walk_onward (htree : KeepsTree d d') (hfinish : finish = [] ∨ finish = [.slash])
    (honward : aim = .target ∨ ∃ n, onward = [.part (.name n)]) :
    ∀ {links : Nat} {way : List Step} {here : Location},
      d.walk .target links here (way ++ finish) = .ok ⟨dir, some .directory⟩ →
      ∃ links', d'.walk aim links here (way ++ onward) = d'.walk aim links' dir onward
  | links, [], here, h => by
    refine ⟨links, ?_⟩
    rcases hfinish with rfl | rfl
    · rw [List.append_nil, walk] at h
      cases h
      rfl
    · rw [List.nil_append, walk, walk] at h
      cases h
      rfl
  | links, .slash :: way, here, h => by
    rw [List.cons_append, walk] at h ⊢
    exact walk_onward htree hfinish honward h
  | links, .part .root :: way, here, h => by
    rw [List.cons_append, walk] at h ⊢
    exact walk_onward htree hfinish honward h
  | links, .part .here :: way, here, h => by
    rw [List.cons_append, walk] at h ⊢
    exact walk_onward htree hfinish honward h
  | links, .part .up :: way, here, h => by
    rw [List.cons_append, walk] at h ⊢
    exact walk_onward htree hfinish honward h
  | links, .part (.name n) :: way, here, h => by
    have hfile : ¬ (aim = .file ∧ way ++ onward = [.slash]) := by
      intro hend
      obtain ⟨rfl, hslash⟩ := hend
      obtain ⟨n, rfl⟩ := honward.resolve_left (by simp)
      simpa using congrArg List.getLast? hslash
    have hentry : ¬ (way ++ onward = [] ∧ aim = .entry) := by
      intro hend
      obtain ⟨hnil, rfl⟩ := hend
      obtain ⟨n, rfl⟩ := honward.resolve_left (by simp)
      simp at hnil
    rw [List.cons_append, walk] at h ⊢
    rw [if_neg (by simp)] at h
    rw [if_neg hfile]
    by_cases hsize : maxNameSize < n.utf8ByteSize
    · rw [if_pos hsize] at h
      cases h
    · rw [if_neg hsize] at h ⊢
      -- Only a directory or a link lets the walk go on, and the other disk has both.
      obtain ⟨hdir, hlink⟩ := htree (here.child n)
      split at h
      · split at h <;> cases h
      · next hnode =>
        rw [hdir hnode]
        exact walk_onward htree hfinish honward h
      · split at h <;> cases h
      · next target hnode =>
        rw [hlink target hnode]
        dsimp only
        rw [if_neg (by simp)] at h
        rw [if_neg hentry]
        cases links with
        | zero => cases h
        | succ links =>
          dsimp only at h ⊢
          rw [← List.append_assoc] at h ⊢
          exact walk_onward htree hfinish honward h
termination_by links way => (links, way.length)

theorem locate_ok_iff {p : Path} {spot : Spot} :
    d.locate aim p = .ok spot ↔ p.text ≠ "" ∧ '\x00' ∉ p.text.toList ∧
      p.text.utf8ByteSize ≤ maxPathSize ∧ d.walk aim maxLinks Location.root (steps p) = .ok spot := by
  unfold locate shortTrail trail follow
  by_cases hempty : p.text = ""
  · simp only [hempty, ne_eq, not_true_eq_false, false_and, iff_false]
    intro h
    cases h
  · rw [if_neg hempty]
    by_cases hnul : p.text.toList.contains '\x00' = true
    · have hmem : '\x00' ∈ p.text.toList := by simpa using hnul
      simp only [if_pos hnul, hmem, not_true_eq_false, false_and, and_false, iff_false]
      intro h
      cases h
    · have hmem : '\x00' ∉ p.text.toList := by simpa using hnul
      rw [if_neg hnul]
      by_cases hsize : maxPathSize < p.text.utf8ByteSize
      · have hle : ¬ p.text.utf8ByteSize ≤ maxPathSize := Nat.not_le.2 hsize
        simp only [hle, false_and, and_false, iff_false]
        intro h
        simp [hsize, Bind.bind, Except.bind] at h
      · simp only [ne_eq, hempty, not_false_eq_true, hmem, Nat.not_lt.1 hsize, true_and]
        simp [hsize, Bind.bind, Except.bind, pure, Except.pure]

/-- A path that leads to a directory leads there on a disk with the same directories and links. -/
theorem locate_congr (htree : KeepsTree d d') {p : Path}
    (h : d.locate .target p = .ok ⟨dir, some .directory⟩) :
    d'.locate .target p = .ok ⟨dir, some .directory⟩ := by
  rw [locate_ok_iff] at h ⊢
  obtain ⟨hempty, hnul, hsize, hwalk⟩ := h
  rw [← List.append_nil (steps p)] at hwalk ⊢
  obtain ⟨links, hlinks⟩ := @walk_onward d d' .target dir [] [] htree (.inl rfl) (.inl rfl) _ _ _ hwalk
  rw [walk] at hlinks
  exact ⟨hempty, hnul, hsize, hlinks⟩

theorem locate_slash (d : Disk) : d.locate .target ⟨"/"⟩ = .ok ⟨Location.root, some .directory⟩ := by
  refine locate_ok_iff.2 ⟨by decide, by decide, by decide, ?_⟩
  rw [show steps ⟨"/"⟩ = [.part .root, .slash] from by decide, walk, walk, walk]

/-! The files of a root. -/

/-- The names in the directory of a root that a store uses. -/
def storeNames : List String :=
  [Store.fileName, Store.fileName ++ ".lock", Store.fileName ++ ".tmp"]

theorem plainName_of_mem {n : String} (h : n ∈ storeNames) : PlainName n := by
  simp only [storeNames, List.mem_cons, List.not_mem_nil, or_false] at h
  unfold PlainName
  rcases h with rfl | rfl | rfl <;> decide

/-- Whether there is a file at a location, or nothing. -/
def IsFree (d : Disk) (l : Location) : Prop :=
  d.node? l = none ∨ ∃ serial content, d.node? l = some (.file serial content)

/-- Whether a root is a directory in which its store can be kept: no directory or link stands in the way
    of one of the files, and their paths are not too long. -/
structure Hosts (d : Disk) (root : Path) (dir : Location) : Prop where
  directory : d.locate .target root = .ok ⟨dir, some .directory⟩
  size : ∀ n ∈ storeNames, (root.join n).text.utf8ByteSize ≤ maxPathSize
  free : ∀ n ∈ storeNames, d.IsFree (dir.child n)

theorem withEnding_join (dir : Path) (n ending : String) :
    (dir.join n).withEnding ending = dir.join (n ++ ending) := by
  unfold Path.join Path.withEnding
  split
  · rw [String.append_assoc]
  · rw [String.append_assoc]

theorem child_ne_root (dir : Location) (n : String) : dir.child n ≠ Location.root := by
  intro h
  have hnames := congrArg Location.names h
  simp [Location.child, Location.root] at hnames

theorem child_inj {dir : Location} {n n' : String} (h : dir.child n = dir.child n') : n = n' := by
  have hnames := congrArg Location.names h
  simpa [Location.child] using hnames

theorem IsFree.not_link {d : Disk} {l : Location} (h : d.IsFree l) (target : Path) :
    d.node? l ≠ some (.link target) := by
  rcases h with hnone | ⟨serial, content, hfile⟩
  · rw [hnone]
    exact fun he => by cases he
  · rw [hfile]
    exact fun he => by cases he

theorem IsFree.not_directory {d : Disk} {l : Location} (h : d.IsFree l) : d.node? l ≠ some .directory := by
  rcases h with hnone | ⟨serial, content, hfile⟩
  · rw [hnone]
    exact fun he => by cases he
  · rw [hfile]
    exact fun he => by cases he

theorem walk_name {d : Disk} {dir : Location} {n : String} (hsize : n.utf8ByteSize ≤ maxNameSize)
    (hlink : ∀ target, d.node? (dir.child n) ≠ some (.link target)) (aim : Aim) (links : Nat) :
    d.walk aim links dir [.part (.name n)] = .ok ⟨dir.child n, d.node? (dir.child n)⟩ := by
  rw [walk, if_neg (by simp), if_neg (Nat.not_lt.2 hsize)]
  cases hnode : d.node? (dir.child n) with
  | none => rfl
  | some node =>
    cases node with
    | file serial content => rfl
    | directory =>
      dsimp only
      rw [walk]
    | link target => exact absurd hnode (hlink target)

/-- The path of a name in a directory leads to its place, if there is no link. -/
theorem locate_child {d : Disk} {root : Path} {dir : Location} {n : String}
    (hdirectory : d.locate .target root = .ok ⟨dir, some .directory⟩) (hplain : PlainName n)
    (hsize : (root.join n).text.utf8ByteSize ≤ maxPathSize)
    (hlink : ∀ target, d.node? (dir.child n) ≠ some (.link target)) (aim : Aim) :
    d.locate aim (root.join n) = .ok ⟨dir.child n, d.node? (dir.child n)⟩ := by
  obtain ⟨hempty, hnul, -, hwalk⟩ := locate_ok_iff.1 hdirectory
  obtain ⟨way, finish, hsteps, hfinish, hjoin⟩ := steps_join hempty hplain
  rw [hsteps] at hwalk
  obtain ⟨links, hlinks⟩ := @walk_onward d d aim dir finish [.part (.name n)] (fun _ => ⟨id, fun _ => id⟩)
    hfinish (.inr ⟨n, rfl⟩) _ _ _ hwalk
  refine locate_ok_iff.2 ⟨?_, ?_, hsize, ?_⟩
  · intro htext
    have hnil : (root.join n).text.toList = [] := String.toList_eq_nil_iff.2 htext
    rw [toList_join root n hempty] at hnil
    split at hnil <;> simp [hplain.toList_ne_nil] at hnil
  · rw [toList_join root n hempty]
    split <;> simp [hnul, hplain.2.1]
  · rw [hjoin, hlinks, walk_name hplain.2.2.2.2.2 hlink]

/-- What comes and goes at a place without a directory or a link is not part of the tree. -/
theorem keepsTree_of_free {d d' : Disk} {l : Location} (hfree : d.IsFree l)
    (hsame : ∀ l', l' ≠ l → d'.node? l' = d.node? l') : KeepsTree d d' := by
  intro l'
  by_cases hl : l' = l
  · subst hl
    rcases hfree with hnone | ⟨serial, content, hfile⟩
    · rw [hnone]
      exact ⟨fun h => (by cases h), fun _ h => (by cases h)⟩
    · rw [hfile]
      exact ⟨fun h => (by cases h), fun _ h => (by cases h)⟩
  · rw [hsame l' hl]
    exact ⟨id, fun _ => id⟩

namespace Hosts

variable {d d' : Disk} {root : Path} {dir : Location} {n : String}

/-- Each path of a store leads to the place of its name in the directory. -/
theorem locate_file (h : d.Hosts root dir) (hn : n ∈ storeNames) (aim : Aim) :
    d.locate aim (root.join n) = .ok ⟨dir.child n, d.node? (dir.child n)⟩ :=
  locate_child h.directory (plainName_of_mem hn) (h.size n hn) (h.free n hn).not_link aim

/-- A disk on which a place of the root's files is filled or emptied still hosts the root. -/
theorem congr (h : d.Hosts root dir) (hn : n ∈ storeNames)
    (hsame : ∀ l, l ≠ dir.child n → d'.node? l = d.node? l) (hfree : d'.IsFree (dir.child n)) :
    d'.Hosts root dir := by
  refine ⟨locate_congr (keepsTree_of_free (h.free n hn) hsame) h.directory, h.size, fun n' hn' => ?_⟩
  by_cases hname : n' = n
  · exact hname ▸ hfree
  · unfold IsFree
    rw [hsame _ fun he => hname (child_inj he)]
    exact h.free n' hn'

end Hosts

/-! What requests for these files answer and do. -/

/-- The content of the file at a location. -/
def content? (d : Disk) (l : Location) : Option Bytes :=
  match d.node? l with
  | some (.file _ content) => some content
  | _ => none

/-- Whether a disk is another with a file of some content at a location. -/
def Filled (d d' : Disk) (l : Location) (content : Bytes) : Prop :=
  (∃ serial, d'.node? l = some (.file serial content)) ∧ ∀ l', l' ≠ l → d'.node? l' = d.node? l'

theorem filled_put (d : Disk) {l : Location} (hl : l ≠ Location.root) (serial : Nat) (content : Bytes) :
    Filled d (d.put l (.file serial content)) l content := by
  refine ⟨⟨serial, ?_⟩, fun l' hl' => ?_⟩
  · rw [node?_put _ _ _ _ hl, if_pos rfl]
  · rw [node?_put _ _ _ _ hl, if_neg hl']

theorem Filled.content? {d d' : Disk} {l : Location} {content : Bytes} (h : Filled d d' l content)
    (l' : Location) : d'.content? l' = if l' = l then some content else d.content? l' := by
  obtain ⟨⟨serial, hfile⟩, hsame⟩ := h
  unfold Disk.content?
  by_cases hl : l' = l
  · rw [if_pos hl, hl, hfile]
  · rw [if_neg hl, hsame l' hl]

/-- Whether a disk is another with a file of a serial number at a location, which is the file that was there
    before, if there was one. -/
structure Opened (d d' : Disk) (l : Location) (serial : Nat) : Prop where
  file : ∃ content, d'.node? l = some (.file serial content)
  same : ∀ serial' content, d.node? l = some (.file serial' content) → serial' = serial
  elsewhere : ∀ l', l' ≠ l → d'.node? l' = d.node? l'

theorem opened_put (d : Disk) {l : Location} (hl : l ≠ Location.root) {serial : Nat} (content : Bytes)
    (hsame : ∀ serial' content', d.node? l = some (.file serial' content') → serial' = serial) :
    Opened d (d.put l (.file serial content)) l serial := by
  refine ⟨⟨content, ?_⟩, hsame, fun l' hl' => ?_⟩
  · rw [node?_put _ _ _ _ hl, if_pos rfl]
  · rw [node?_put _ _ _ _ hl, if_neg hl']

/-- A file that is opened keeps its serial number. -/
theorem openFile_opened {d : Disk} {p : Path} {l : Location} (hlocate : d.locate .file p = .ok ⟨l, d.node? l⟩)
    (hl : l ≠ Location.root) (hfree : d.IsFree l) (change : Bytes → Bytes) :
    ∃ d' serial, d.openFile p change = .ok (d', serial) ∧ Opened d d' l serial := by
  unfold openFile
  rw [hlocate]
  rcases hfree with hnode | ⟨serial, content, hnode⟩
  · rw [hnode]
    have hopened := @opened_put d _ hl d.nextSerial [] fun _ _ h => by cases hnode.symm.trans h
    exact ⟨_, _, rfl, hopened.file, hopened.same, hopened.elsewhere⟩
  · rw [hnode]
    refine ⟨_, _, rfl, opened_put d hl (change content) fun _ _ h => ?_⟩
    cases hnode.symm.trans h
    rfl

theorem read_free {d : Disk} {p : Path} {l : Location} (hlocate : d.locate .target p = .ok ⟨l, d.node? l⟩)
    (hfree : d.IsFree l) :
    d.read p =
      match d.content? l with
      | some content => .ok content
      | none => .error .noSuchFile := by
  unfold Disk.read content?
  rw [hlocate]
  rcases hfree with hnode | ⟨serial, content, hnode⟩ <;> rw [hnode]

/-- Whether a root is a directory in which its store can be kept open. A directory that stands in the place of the
    draft is only in the way of writing. -/
structure Keeps (d : Disk) (root : Path) (dir : Location) : Prop where
  directory : d.locate .target root = .ok ⟨dir, some .directory⟩
  size : ∀ n ∈ storeNames, (root.join n).text.utf8ByteSize ≤ maxPathSize
  free : ∀ n ∈ storeNames, n ≠ Store.fileName ++ ".tmp" → d.IsFree (dir.child n)
  draft : ∀ target, d.node? (dir.child (Store.fileName ++ ".tmp")) ≠ some (.link target)

namespace Keeps

variable {d d' : Disk} {root : Path} {dir : Location} {n : String}

theorem locate_file (h : d.Keeps root dir) (hn : n ∈ storeNames) (aim : Aim) :
    d.locate aim (root.join n) = .ok ⟨dir.child n, d.node? (dir.child n)⟩ := by
  refine locate_child h.directory (plainName_of_mem hn) (h.size n hn) (fun target => ?_) aim
  by_cases hdraft : n = Store.fileName ++ ".tmp"
  · exact hdraft ▸ h.draft target
  · exact (h.free n hn hdraft).not_link target

/-- A directory in the place of the draft is all that can be in the way. -/
theorem hosts_or (h : d.Keeps root dir) :
    d.Hosts root dir ∨ d.node? (dir.child (Store.fileName ++ ".tmp")) = some .directory := by
  by_cases hdirectory : d.node? (dir.child (Store.fileName ++ ".tmp")) = some .directory
  · exact .inr hdirectory
  refine .inl ⟨h.directory, h.size, fun n hn => ?_⟩
  by_cases hdraft : n = Store.fileName ++ ".tmp"
  · subst hdraft
    cases hnode : d.node? (dir.child (Store.fileName ++ ".tmp")) with
    | none => exact .inl hnode
    | some node =>
      cases node with
      | file serial content => exact .inr ⟨serial, content, hnode⟩
      | directory => exact absurd hnode hdirectory
      | link target => exact absurd hnode (h.draft target)
  · exact h.free n hn hdraft

theorem opened (h : d.Keeps root dir) (hn : n ∈ storeNames) (hdraft : n ≠ Store.fileName ++ ".tmp") {serial : Nat}
    (hopen : Opened d d' (dir.child n) serial) : d'.Keeps root dir := by
  have htree := keepsTree_of_free (h.free n hn hdraft) hopen.elsewhere
  refine ⟨locate_congr htree h.directory, h.size, fun n' hn' hdraft' => ?_, fun target => ?_⟩
  · by_cases hname : n' = n
    · obtain ⟨content, hfile⟩ := hopen.file
      exact hname ▸ .inr ⟨serial, content, hfile⟩
    · unfold IsFree
      rw [hopen.elsewhere _ fun he => hname (child_inj he)]
      exact h.free n' hn' hdraft'
  · rw [hopen.elsewhere _ fun he => hdraft (child_inj he).symm]
    exact h.draft target

end Keeps

namespace Hosts

variable {d d' : Disk} {root : Path} {dir : Location} {n n' : String} {content : Bytes}

theorem keeps (h : d.Hosts root dir) : d.Keeps root dir :=
  ⟨h.directory, h.size, fun n hn _ => h.free n hn, (h.free _ (by simp [storeNames])).not_link⟩

theorem filled (h : d.Hosts root dir) (hn : n ∈ storeNames) (hfill : Filled d d' (dir.child n) content) :
    d'.Hosts root dir := by
  obtain ⟨⟨serial, hfile⟩, hsame⟩ := hfill
  exact h.congr hn hsame (.inr ⟨serial, content, hfile⟩)

theorem drop (h : d.Hosts root dir) (hn : n ∈ storeNames) : (d.drop (dir.child n)).Hosts root dir := by
  have hdrop := fun l => node?_drop d (dir.child n) l (child_ne_root dir n)
  refine h.congr hn (fun l hl => ?_) (.inl ?_)
  · rw [hdrop, if_neg hl]
  · rw [hdrop, if_pos rfl]

/-- A file is there, or nothing is. -/
theorem node?_of_content? (h : d.Hosts root dir) (hn : n ∈ storeNames) :
    (d.content? (dir.child n) = none ∧ d.node? (dir.child n) = none) ∨
    ∃ serial content, d.content? (dir.child n) = some content ∧
      d.node? (dir.child n) = some (.file serial content) := by
  rcases h.free n hn with hnone | ⟨serial, content, hfile⟩
  · exact .inl ⟨by rw [content?, hnone], hnone⟩
  · exact .inr ⟨serial, content, by rw [Disk.content?, hfile], hfile⟩

theorem openFile_file (h : d.Hosts root dir) (hn : n ∈ storeNames) (change : Bytes → Bytes) :
    ∃ d' serial, d.openFile (root.join n) change = .ok (d', serial) ∧
      Filled d d' (dir.child n) ((d.content? (dir.child n)).elim [] change) := by
  unfold openFile
  rw [h.locate_file hn]
  rcases h.node?_of_content? hn with ⟨hcontent, hnode⟩ | ⟨serial, content, hcontent, hnode⟩
  · rw [hnode, hcontent]
    exact ⟨_, _, rfl, filled_put d (child_ne_root dir n) d.nextSerial []⟩
  · rw [hnode, hcontent]
    exact ⟨_, _, rfl, filled_put d (child_ne_root dir n) serial (change content)⟩

theorem opened (h : d.Hosts root dir) (hn : n ∈ storeNames) {serial : Nat}
    (hopen : Opened d d' (dir.child n) serial) : d'.Hosts root dir := by
  obtain ⟨content, hfile⟩ := hopen.file
  exact h.congr hn hopen.elsewhere (.inr ⟨serial, content, hfile⟩)

theorem create_file (h : d.Hosts root dir) (hn : n ∈ storeNames) :
    ∃ d', d.create (root.join n) = .ok d' ∧ Filled d d' (dir.child n) [] := by
  obtain ⟨d', serial, hopen, hfill⟩ := h.openFile_file hn fun _ => []
  refine ⟨d', ?_, ?_⟩
  · rw [create, hopen]
    rfl
  · cases hcontent : d.content? (dir.child n) <;> rw [hcontent] at hfill <;> exact hfill

theorem write_file (h : d.Hosts root dir) (hn : n ∈ storeNames)
    (hfile : d.content? (dir.child n) = some content) (new : Bytes) :
    ∃ d', d.write (root.join n) new = .ok d' ∧ Filled d d' (dir.child n) new := by
  unfold Disk.write
  rw [h.locate_file hn]
  rcases h.node?_of_content? hn with ⟨hcontent, -⟩ | ⟨serial, content', -, hnode⟩
  · rw [hcontent] at hfile
    cases hfile
  · rw [hnode]
    exact ⟨_, rfl, filled_put d (child_ne_root dir n) serial new⟩

theorem rename_file (h : d.Hosts root dir) (hn : n ∈ storeNames) (hn' : n' ∈ storeNames)
    (hfile : d.content? (dir.child n) = some content) :
    ∃ d', d.rename (root.join n) (root.join n') = .ok d' ∧
      Filled (d.drop (dir.child n)) d' (dir.child n') content := by
  unfold rename
  rw [h.locate_file hn, h.locate_file hn']
  rcases h.node?_of_content? hn with ⟨hcontent, -⟩ | ⟨serial, content', hcontent, hnode⟩
  · rw [hcontent] at hfile
    cases hfile
  · rw [hcontent] at hfile
    cases hfile
    have htarget := (h.free n' hn').not_directory
    refine ⟨_, ?_, filled_put (d.drop (dir.child n)) (child_ne_root dir n') serial content⟩
    simp only [hnode, Bind.bind, Except.bind, if_neg htarget]
    rfl

end Hosts

end Disk

end KeyChain
