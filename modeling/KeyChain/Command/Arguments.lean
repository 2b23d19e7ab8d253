/-! Command-line arguments. An option has a long name, and perhaps a letter; it is a flag or takes one
   value. Values stand in the next argument, behind an equals sign, or right behind the letter;
   letters may stand together behind one dash. Two dashes end the options. No option may be given
   twice, and a value that looks like an option is none, except a negative number where an integer
   is asked for. -/
namespace KeyChain

/-- Why arguments are refused. -/
inductive ArgumentFault where
  | unknownOption (text : String)
  | missingValue (option : String)
  | unexpectedValue (option : String)
  | invalidValue (option value : String)
  | repeated (option : String)
  | conflict (option other : String)
  | unexpected (text : String)
  | missing (name : String)
  | unknownCommand (name : String)
  | missingCommand
  deriving DecidableEq, Repr

def ArgumentFault.message : ArgumentFault → String
  | unknownOption text => s!"unexpected argument '{text}' found"
  | missingValue option => s!"a value is required for '--{option}' but none was supplied"
  | unexpectedValue option => s!"unexpected value for '--{option}'"
  | invalidValue option value => s!"invalid value '{value}' for '--{option}'"
  | repeated option => s!"the argument '--{option}' cannot be used multiple times"
  | conflict option other => s!"the argument '--{option}' cannot be used with '--{other}'"
  | unexpected text => s!"unexpected argument '{text}' found"
  | missing name => s!"the required argument '{name}' was not provided"
  | unknownCommand name => s!"unrecognized subcommand '{name}'"
  | missingCommand => "a subcommand is required but none was provided"

/-! Values. -/

/-- The decimal number that a text spells, a sign in front or not, if 64 bits hold it. -/
def integerOf? (text : String) : Option Int := do
  let cs := text.toList
  let (negative, digits) :=
    match cs with
    | '-' :: rest => (true, rest)
    | '+' :: rest => (false, rest)
    | rest => (false, rest)
  if digits = [] ∨ !digits.all Char.isDigit then none
  else
    let n : Nat := digits.foldl (fun n c => 10 * n + (c.toNat - 48)) 0
    let value : Int := if negative then -n else n
    if Int64.minValue.toInt ≤ value ∧ value ≤ Int64.maxValue.toInt then some value else none

/-- Whether characters look like a number: digits, a point that is not the first of them, and an
    exponent. -/
def looksNumeric (cs : List Char) : Bool :=
  go false false true cs
where
  go (seenPoint seenExponent first : Bool) : List Char → Bool
    | [] => true
    | c :: rest =>
      if c.isDigit then go seenPoint seenExponent false rest
      else if c = '.' && !seenPoint && !seenExponent && !first then go true seenExponent false rest
      else if (c = 'e' || c = 'E') && !seenExponent && !first && !rest.isEmpty then
        go seenPoint true false rest
      else false

/-- What the value of an option must be. -/
inductive ValueKind where
  | text
  /-- A path, which is not empty. -/
  | path
  | integer
  /-- One of some words. -/
  | word (choices : List String)
  deriving DecidableEq, Repr

def ValueKind.accepts : ValueKind → String → Bool
  | text, _ => true
  | path, value => value ≠ ""
  | integer, value => (integerOf? value).isSome
  | word choices, value => choices.contains value

/-! Options. -/

/-- An option that takes a value says what kind. -/
structure OptionSpec where
  name : String
  letter : Option Char
  value : Option ValueKind
  deriving DecidableEq, Repr

/-- Options and operands given so far. A flag is given with an empty value. -/
structure Given where
  options : List (String × String)
  operands : List String
  deriving DecidableEq, Repr

namespace Given

def none : Given := ⟨[], []⟩

/-- The value of an option. -/
def value? (g : Given) (name : String) : Option String :=
  (g.options.find? fun o => o.1 == name).map (·.2)

def has (g : Given) (name : String) : Bool := (g.value? name).isSome

/-- The integer that an option gives. -/
def integer? (g : Given) (name : String) : Option Int := (g.value? name).bind integerOf?

/-- Records an option, once, with a value of its kind. -/
def addOption (g : Given) (spec : OptionSpec) (value : String) : Except ArgumentFault Given :=
  if g.has spec.name then .error (.repeated spec.name)
  else if spec.value.all fun kind => kind.accepts value then
    .ok { g with options := g.options ++ [(spec.name, value)] }
  else .error (.invalidValue spec.name value)

end Given

/-- The options and the operands that a command takes. With `nested` set, the first operand is the
    name of a command that has arguments of its own. -/
structure Grammar where
  options : List OptionSpec
  operands : List String
  nested : Bool
  deriving Repr

/-- What arguments amount to. -/
inductive Scanned where
  | given (g : Given)
  | command (g : Given) (name : String) (rest : List String)
  /-- An option of this name asks for a text, whatever follows. -/
  | notice (name : String)
  deriving Repr

/-- Options that ask for a text instead of a run. -/
def notices : List String := ["help", "version"]

/-- What one argument adds, and the option whose value is to follow. -/
inductive Advance where
  | on (g : Given) (pending : Option OptionSpec)
  | notice (name : String)

namespace Grammar

/-- A flag takes effect at once if it asks for a text. -/
def applyFlag (g : Given) (spec : OptionSpec) : Except ArgumentFault Advance :=
  if notices.contains spec.name then .ok (.notice spec.name)
  else (g.addOption spec "").map (.on · none)

/-- An argument behind two dashes: a name, and perhaps a value behind an equals sign. -/
def long (grammar : Grammar) (g : Given) (body : List Char) : Except ArgumentFault Advance :=
  let name := String.ofList (body.takeWhile (· ≠ '='))
  let attached := body.dropWhile (· ≠ '=')
  match grammar.options.find? fun o => o.name == name with
  | none => .error (.unknownOption (String.ofList ('-' :: '-' :: body)))
  | some spec =>
    match spec.value, attached with
    | none, [] => applyFlag g spec
    | none, _ :: _ => .error (.unexpectedValue name)
    | some _, [] => .ok (.on g (some spec))
    | some _, _ :: value => (g.addOption spec (String.ofList value)).map (.on · none)

/-- Letters behind one dash; the first that takes a value takes what is left as its value. -/
def letters (grammar : Grammar) (g : Given) : List Char → Except ArgumentFault Advance
  | [] => .ok (.on g none)
  | c :: rest =>
    match grammar.options.find? fun o => o.letter == some c with
    | none => .error (.unknownOption (String.ofList ['-', c]))
    | some spec =>
      match spec.value, rest with
      | none, rest =>
        match applyFlag g spec with
        | .ok (.on g _) => letters grammar g rest
        | other => other
      | some _, [] => .ok (.on g (some spec))
      | some _, '=' :: value => (g.addOption spec (String.ofList value)).map (.on · none)
      | some _, value => (g.addOption spec (String.ofList value)).map (.on · none)

/-- One more operand, if one more is taken. -/
def addOperand (grammar : Grammar) (g : Given) (text : String) : Except ArgumentFault Given :=
  if grammar.operands.length ≤ g.operands.length then .error (.unexpected text)
  else if text = "" then .error (.invalidValue "path" text)
  else .ok { g with operands := g.operands ++ [text] }

/-- All that follows two dashes is operands. -/
def addOperands (grammar : Grammar) : Given → List String → Except ArgumentFault Given
  | g, [] => .ok g
  | g, text :: rest =>
    match grammar.addOperand g text with
    | .error e => .error e
    | .ok g => addOperands grammar g rest

/-- Whether an argument can be the value of an option that waits for one. -/
def isValueFor (kind : ValueKind) : List Char → Bool
  | '-' :: '-' :: _ => false
  | '-' :: c :: rest => kind = .integer && looksNumeric (c :: rest)
  | _ => true

/-- Reads arguments from the left, while the option in `pending` waits for its value. -/
def scan (grammar : Grammar) :
    Given → Option OptionSpec → List String → Except ArgumentFault Scanned
  | g, none, [] => .ok (.given g)
  | _, some spec, [] => .error (.missingValue spec.name)
  | g, some spec, arg :: rest =>
    if isValueFor (spec.value.getD .text) arg.toList then
      match g.addOption spec arg with
      | .error e => .error e
      | .ok g => scan grammar g none rest
    else .error (.missingValue spec.name)
  | g, none, arg :: rest =>
    let operand (_ : Unit) : Except ArgumentFault Scanned :=
      if grammar.nested then .ok (.command g arg rest)
      else
        match grammar.addOperand g arg with
        | .error e => .error e
        | .ok g => scan grammar g none rest
    let advance : Except ArgumentFault Advance → Except ArgumentFault Scanned
      | .error e => .error e
      | .ok (.notice name) => .ok (.notice name)
      | .ok (.on g pending) => scan grammar g pending rest
    match arg.toList with
    | ['-', '-'] =>
      if grammar.nested then
        .error (rest.head?.elim .missingCommand ArgumentFault.unexpected)
      else (grammar.addOperands g rest).map .given
    | '-' :: '-' :: body => advance (grammar.long g body)
    | '-' :: c :: body => advance (grammar.letters g (c :: body))
    | _ => operand ()

/-- What the arguments of a command give: all its operands are needed. -/
def read (grammar : Grammar) (args : List String) : Except ArgumentFault Scanned :=
  match grammar.scan Given.none none args with
  | .error e => .error e
  | .ok (.given g) =>
    match grammar.operands.drop g.operands.length with
    | [] => if grammar.nested then .error .missingCommand else .ok (.given g)
    | name :: _ => .error (.missing name)
  | .ok other => .ok other

end Grammar

end KeyChain
