import KeyChain.Error
import KeyChain.OrderedMap
/-! A disk as a value: files, directories and symbolic links by location. Paths are walked name by
   name from the root; a link is followed where it stands, at most forty of them in one walk. Main
   statements: making and moving files changes nothing at other locations (`node?_put`,
   `node?_drop`). -/
namespace KeyChain

/-- What is at a location. A file keeps its serial number when it is moved. -/
inductive Node where
  | file (serial : Nat) (content : Bytes)
  | directory
  | link (target : Path)
  deriving DecidableEq

structure Disk where
  nodes : OrderedMap (List String) Node
  /-- Serial number of the next file. -/
  nextSerial : Nat

/-- Where a walk ends, and what is there. -/
structure Spot where
  location : Location
  node : Option Node

namespace Disk

/-- A step of a walk. -/
inductive Step where
  | part (p : Part)
  /-- The slash at the end of a path. -/
  | slash
  deriving DecidableEq

/-- What a walk is for. -/
inductive Aim where
  /-- What stands at the path itself, be it a link. -/
  | entry
  /-- What a link at the path leads to. -/
  | target
  /-- The same, or the place of a file that is to be made. -/
  | file
  deriving DecidableEq

/-- A disk with nothing but its root directory. -/
def empty : Disk := ⟨OrderedMap.empty, 0⟩

/-- What is at a location; the root is always a directory. -/
def node? (d : Disk) (l : Location) : Option Node :=
  if l = Location.root then some .directory else d.nodes.get? l.names

def put (d : Disk) (l : Location) (n : Node) : Disk := { d with nodes := d.nodes.insert l.names n }

def drop (d : Disk) (l : Location) : Disk := { d with nodes := d.nodes.erase l.names }

/-- The steps along a path. Unlike `Path.parts` they keep dots and a slash at the end, at which there
    must be a directory. -/
def steps (p : Path) : List Step :=
  let pieces := (segments p.text.toList).filter (· ≠ [])
  let start : List Step := if p.isAbsolute then [.part .root] else []
  let finish : List Step := if p.endsInSlash then [.slash] else []
  start ++ (pieces.map fun piece => .part ((Path.partOf? piece).getD .here)) ++ finish

/-- Bytes that a name may have. -/
def maxNameSize : Nat := 255

/-- Bytes that the path of a request may have. -/
def maxPathSize : Nat := 4095

/-- Links that one walk may follow. -/
def maxLinks : Nat := 40

/-- The steps of a path along which a walk can begin. -/
def trail (p : Path) : Except SystemError (List Step) :=
  if p.text = "" then .error .noSuchFile
  else if p.text.toList.contains '\x00' then .error .nulInName
  else .ok (steps p)

/-- The steps of a path that is not too long to be asked for in one request. -/
def shortTrail (p : Path) : Except SystemError (List Step) := do
  let way ← trail p
  if maxPathSize < p.text.utf8ByteSize then throw .nameTooLong else return way

/-- Walks on from a directory. Only the last step may lead to something that is not there or is no
    directory. A walk for a file ends before a name with the slash of a directory behind it, be the
    slash that of the path or of the last link. -/
def walk (d : Disk) (aim : Aim) (links : Nat) (here : Location) :
    List Step → Except SystemError Spot
  | [] => .ok ⟨here, some .directory⟩
  | .slash :: rest => walk d aim links here rest
  | .part .root :: rest => walk d aim links Location.root rest
  | .part .here :: rest => walk d aim links here rest
  | .part .up :: rest => walk d aim links here.parent rest
  | .part (.name n) :: rest =>
    let there := here.child n
    if aim = .file ∧ rest = [.slash] then .error .isADirectory
    else if maxNameSize < n.utf8ByteSize then .error .nameTooLong
    else
      match d.node? there with
      | none => if rest = [] then .ok ⟨there, none⟩ else .error .noSuchFile
      | some .directory => walk d aim links there rest
      | some (.file serial content) =>
        if rest = [] then .ok ⟨there, some (.file serial content)⟩ else .error .notADirectory
      | some (.link target) =>
        if rest = [] ∧ aim = .entry then .ok ⟨there, some (.link target)⟩
        else
          match links with
          | 0 => .error .tooManyLinks
          | links + 1 => walk d aim links here (steps target ++ rest)
termination_by steps => (links, steps.length)

/-- Where steps lead from the root. -/
def follow (d : Disk) (aim : Aim) (way : List Step) : Except SystemError Spot :=
  d.walk aim maxLinks Location.root way

/-- Where a path leads. -/
def locate (d : Disk) (aim : Aim) (p : Path) : Except SystemError Spot := do
  d.follow aim (← shortTrail p)

/-- The entry that steps lead to, whether or not a slash ends them. -/
def entryAt (d : Disk) (way : List Step) : Except SystemError Spot :=
  d.follow .entry (way.filter (· ≠ .slash))

/-! What programs ask of a disk. -/

/-- The place of a file, all links followed. It is found name by name, so that the path may be of any
    length, and then asked for by its own path. -/
def realPath (d : Disk) (p : Path) : Except SystemError Location := do
  let spot ← d.follow .target (← trail p)
  if maxPathSize < spot.location.path.text.utf8ByteSize then throw .nameTooLong
  else if spot.node.isSome then return spot.location
  else throw .noSuchFile

def isPresent (d : Disk) (p : Path) : Bool :=
  match d.locate .target p with
  | .ok ⟨_, some _⟩ => true
  | _ => false

def isDirectory (d : Disk) (p : Path) : Bool :=
  match d.locate .target p with
  | .ok ⟨_, some .directory⟩ => true
  | _ => false

def read (d : Disk) (p : Path) : Except SystemError Bytes :=
  match d.locate .target p with
  | .error e => .error e
  | .ok ⟨_, some (.file _ content)⟩ => .ok content
  | .ok ⟨_, some .directory⟩ => .error .isADirectory
  | .ok _ => .error .noSuchFile

/-- The disk with a file at a path, and the file's serial number. A new file is empty; the content of
    one that is there goes through `change`. -/
def openFile (d : Disk) (p : Path) (change : Bytes → Bytes) : Except SystemError (Disk × Nat) :=
  match d.locate .file p with
  | .error e => .error e
  | .ok ⟨l, none⟩ =>
    .ok ({ d.put l (.file d.nextSerial []) with nextSerial := d.nextSerial + 1 }, d.nextSerial)
  | .ok ⟨l, some (.file serial content)⟩ => .ok (d.put l (.file serial (change content)), serial)
  | .ok _ => .error .isADirectory

/-- An empty file, in place of the content of one that is there. -/
def create (d : Disk) (p : Path) : Except SystemError Disk := do
  let (d, _) ← d.openFile p fun _ => []
  return d

/-- Gives a file that is there new content. -/
def write (d : Disk) (p : Path) (content : Bytes) : Except SystemError Disk :=
  match d.locate .target p with
  | .error e => .error e
  | .ok ⟨l, some (.file serial _)⟩ => .ok (d.put l (.file serial content))
  | .ok ⟨_, some .directory⟩ => .error .isADirectory
  | .ok _ => .error .noSuchFile

/-- Moves a file or a link, in place of one that is there. -/
def rename (d : Disk) (source target : Path) : Except SystemError Disk := do
  let s ← d.locate .entry source
  match s.node with
  | none => throw .noSuchFile
  | some .directory => throw .isADirectory
  | some node =>
    let t ← d.locate .entry target
    if t.node = some .directory then throw .isADirectory
    else return (d.drop s.location).put t.location node

/-! What else can be done to a disk. -/

/-- Makes a directory where steps lead. -/
def makeDirectory (d : Disk) (way : List Step) : Except SystemError Disk :=
  match d.entryAt way with
  | .error e => .error e
  | .ok ⟨l, none⟩ => .ok (d.put l .directory)
  | .ok ⟨_, some _⟩ => .error .fileExists

/-- Makes a directory where steps lead, unless one is there. -/
def ensureDirectory (d : Disk) (way : List Step) : Except SystemError Disk :=
  match d.makeDirectory way with
  | .error .fileExists =>
    match d.follow .target way with
    | .ok ⟨_, some .directory⟩ => .ok d
    | _ => .error .fileExists
  | outcome => outcome

/-- The outcome of a change, with the disk as it then is. -/
def after (d : Disk) : Except SystemError Disk → Except SystemError Unit × Disk
  | .ok changed => (.ok (), changed)
  | .error e => (.error e, d)

/-- Makes the first directory of a list, and before it those behind it, as far as they are missing. -/
def ensureFirst (d : Disk) : List (List Step) → Except SystemError Unit × Disk
  | [] => (.ok (), d)
  | way :: above =>
    match d.ensureDirectory way with
    | .error .noSuchFile =>
      match d.ensureFirst above with
      | (.ok (), d) => d.after (d.ensureDirectory way)
      | failed => failed
    | outcome => d.after outcome

/-- The ways to the directories that a path leads through, the nearest first. -/
def waysAbove (p : Path) : List (List Step) :=
  (List.range' 1 (p.parts.length - 1)).reverse.map fun n => (p.parts.take n).map .part

/-- Makes a directory and those it is in; one that is there is left alone. -/
def makeDirectories (d : Disk) (p : Path) : Except SystemError Unit × Disk :=
  if p.text = "" then (.ok (), d)
  else
    match shortTrail p with
    | .error e => (.error e, d)
    | .ok way => d.ensureFirst (way :: waysAbove p)

/-- Makes a symbolic link. -/
def makeLink (d : Disk) (target p : Path) : Except SystemError Disk := do
  let _ ← shortTrail target
  let spot ← d.entryAt (← shortTrail p)
  if spot.node.isSome then throw .fileExists
  else if p.endsInSlash then throw .noSuchFile
  else return d.put spot.location (.link target)

/-- Removes the empty directory that steps name; neither a link nor dots name one. -/
def removeDirectory (d : Disk) (way : List Step) : Except SystemError Disk := do
  let spot ← d.entryAt way
  match (way.filter (· ≠ .slash)).getLast? with
  | some (.part .here) => throw (.numbered 22 "Invalid argument")
  | some (.part .up) => throw (.numbered 39 "Directory not empty")
  | _ => if spot.node = some .directory then return d.drop spot.location else throw .notADirectory

/-- Removes a file, a link, or a directory with all that is in it. A directory is emptied first. -/
def remove (d : Disk) (p : Path) : Except SystemError Unit × Disk :=
  match d.locate .entry p with
  | .error e => (.error e, d)
  | .ok ⟨_, none⟩ => (.error .noSuchFile, d)
  | .ok ⟨l, some .directory⟩ =>
    let emptied : Disk :=
      { d with nodes := d.nodes.filter fun e => e.1 = l.names || !Location.isWithin ⟨e.1⟩ l }
    emptied.after (emptied.removeDirectory (steps p))
  | .ok ⟨l, some _⟩ => (.ok (), d.drop l)

/-- The names in a directory, ascending. -/
def names (d : Disk) (p : Path) : Except SystemError (List String) :=
  match d.locate .target p with
  | .error e => .error e
  | .ok ⟨l, some .directory⟩ =>
    let inside := d.nodes.keys.filter fun names => names.dropLast = l.names ∧ names ≠ []
    .ok (inside.filterMap List.getLast?)
  | .ok ⟨_, some _⟩ => .error .notADirectory
  | .ok ⟨_, none⟩ => .error .noSuchFile

/-! Laws. -/

theorem node?_put (d : Disk) (l l' : Location) (n : Node) (h : l ≠ Location.root) :
    (d.put l n).node? l' = if l' = l then some n else d.node? l' := by
  simp only [node?, put, OrderedMap.get?_insert, Std.LawfulEqCmp.compare_eq_iff_eq]
  by_cases hl : l' = l
  · subst hl; simp [h]
  · have : l'.names ≠ l.names := fun e => hl (by cases l; cases l'; simp_all)
    simp [hl, this]

theorem node?_drop (d : Disk) (l l' : Location) (h : l ≠ Location.root) :
    (d.drop l).node? l' = if l' = l then none else d.node? l' := by
  simp only [node?, drop, OrderedMap.get?_erase, Std.LawfulEqCmp.compare_eq_iff_eq]
  by_cases hl : l' = l
  · subst hl; simp [h]
  · have : l.names ≠ l'.names := fun e => hl (by cases l; cases l'; simp_all)
    simp [hl, this]

end Disk

end KeyChain
