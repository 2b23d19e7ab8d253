/-! Names of files. A `Path` is text as it was given and is shown as given; paths name the same
   file by the same `parts`, in which repeated slashes and dots do not count. A `Location` is the
   list of names from the root down to a file that has been found. -/
namespace KeyChain

structure Path where
  text : String
  deriving DecidableEq, Repr

/-- One part of a path. -/
inductive Part where
  | root
  | here
  | up
  | name (text : String)
  deriving DecidableEq, Repr

namespace Part

/-- The root stands first, then the dots, then all names. -/
def rank : Part → Nat
  | root => 0
  | here => 1
  | up => 2
  | name _ => 3

def nameText : Part → String
  | name text => text
  | _ => ""

/-- Parts are ordered by kind, and names by their bytes. -/
def order : Part → Part → Ordering := compareLex (compareOn rank) (compareOn nameText)

instance : Std.TransCmp order :=
  inferInstanceAs (Std.TransCmp (compareLex (compareOn rank) (compareOn nameText)))

instance : Ord Part := ⟨order⟩

instance : Std.TransOrd Part := inferInstanceAs (Std.TransCmp order)

instance : Std.LawfulEqOrd Part where
  compare_self {a} := (Std.ReflCmp.compare_self : order a a = .eq)
  eq_of_compare {a b} h := by
    have h : (compareOn rank a b).then (compareOn nameText a b) = .eq := h
    obtain ⟨h₁, h₂⟩ := Ordering.then_eq_eq.1 h
    have h₁ : a.rank = b.rank :=
      Std.LawfulEqCmp.eq_of_compare (show compare a.rank b.rank = .eq from h₁)
    have h₂ : a.nameText = b.nameText :=
      Std.LawfulEqCmp.eq_of_compare (show compare a.nameText b.nameText = .eq from h₂)
    cases a <;> cases b <;> simp_all [rank, nameText]

end Part

/-- The pieces between slashes. -/
def segments : List Char → List (List Char)
  | [] => [[]]
  | c :: rest =>
    if c = '/' then [] :: segments rest
    else
      match segments rest with
      | [] => [[c]]
      | piece :: pieces => (c :: piece) :: pieces

namespace Path

def isAbsolute (p : Path) : Bool := p.text.toList.head? == some '/'

/-- The part a piece stands for; empty pieces and single dots stand for none. -/
def partOf? (piece : List Char) : Option Part :=
  if piece = [] ∨ piece = ['.'] then none
  else if piece = ['.', '.'] then some .up
  else some (.name (String.ofList piece))

/-- The parts of a path. A dot counts only at the start of a relative path. -/
def parts (p : Path) : List Part :=
  let pieces := segments p.text.toList
  let start : List Part :=
    if p.isAbsolute then [.root] else if pieces.head? = some ['.'] then [.here] else []
  start ++ pieces.filterMap partOf?

/-- Whether the text ends in a slash, so that only a directory can be meant. -/
def endsInSlash (p : Path) : Bool := p.text.toList.getLast? == some '/'

/-- The path of a file in a directory. -/
def join (dir : Path) (name : String) : Path :=
  if dir.text = "" ∨ dir.endsInSlash then ⟨dir.text ++ name⟩ else ⟨dir.text ++ "/" ++ name⟩

/-- The path with an ending put behind its last name. -/
def withEnding (p : Path) (ending : String) : Path := ⟨p.text ++ ending⟩

instance : ToString Path := ⟨text⟩

end Path

/-- The names from the root down to a file. -/
structure Location where
  names : List String
  deriving DecidableEq, Repr

namespace Location

/-- The root directory. -/
def root : Location := ⟨[]⟩

/-- The path that writes a location. -/
def path (l : Location) : Path := ⟨"/" ++ "/".intercalate l.names⟩

/-- The file of a name in the directory at a location. -/
def child (l : Location) (name : String) : Location := ⟨l.names ++ [name]⟩

/-- The directory that a file is in; the root is in itself. -/
def parent (l : Location) : Location := ⟨l.names.dropLast⟩

/-- The last name, which the root has not. -/
def fileName? (l : Location) : Option String := l.names.getLast?

/-- Whether a file is at or below another. -/
def isWithin (l above : Location) : Bool := above.names.isPrefixOf l.names

/-- The location itself and the directories above it, up to the root. -/
def ancestors (l : Location) : List Location :=
  ((List.range (l.names.length + 1)).reverse).map fun n => ⟨l.names.take n⟩

end Location

end KeyChain
