/-! How resolution treats a first key without a link. -/
namespace KeyChain

inductive ChainMode where
  /-- The first key must own a link. -/
  | use
  /-- A first key without a link is a chain of one key. -/
  | ignoreMissing
  deriving DecidableEq, Repr

namespace ChainMode

def name : ChainMode → String
  | use => "use"
  | ignoreMissing => "ignore-missing"

def ofName? (text : String) : Option ChainMode :=
  [use, ignoreMissing].find? fun mode => mode.name == text

/-- What is said of a text that names no mode. -/
def refusal (text : String) : String :=
  s!"invalid chain mode: {text} (expected: use, ignore-missing)"

theorem ofName?_name (mode : ChainMode) : ofName? mode.name = some mode := by cases mode <;> rfl

end ChainMode

end KeyChain
