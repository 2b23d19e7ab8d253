import KeyChain.Command.Arguments
import KeyChain.Key.Params
/-! Commands, and how they are written on a command line. `Invocation.ofArguments` gives the command of
   a line of arguments or says why it is none; nothing else is looked at before that. -/
namespace KeyChain

/-- How a key is derived, where that differs from the configuration. -/
structure KeyOptions where
  algorithm : Option String
  iterations : Option Int
  keyfile : Option Path
  noPassphrase : Bool
  deriving DecidableEq, Repr

/-- The parameters that options make of those in the configuration. -/
def KeyOptions.params (o : KeyOptions) (p : KeyParams) : KeyParams :=
  { p with
    algorithm := o.algorithm.getD p.algorithm
    iterations := o.iterations.getD p.iterations
    keyfile := o.keyfile.or p.keyfile
    noPassphrase := p.noPassphrase || o.noPassphrase }

/-- What a command does with the chain of its key. -/
inductive ChainChoice where
  /-- As the configuration says. -/
  | configured
  /-- The key must have a chain. -/
  | required
  /-- The key stands alone. -/
  | ignored
  deriving DecidableEq, Repr

inductive Command where
  | addKey (key : KeyOptions) (chain : ChainChoice) (verbose : Bool) (root : Path)
  | deleteKey (key : KeyOptions) (chain : ChainChoice) (verbose : Bool) (root : Path)
  | setKey (key : KeyOptions) (chain : ChainChoice) (add verbose : Bool) (directory : Path)
  | getKey (test : Bool) (path : Path)
  | showKeys (test : Bool) (root : Path)
  | flushKeys (root : Path)
  /-- Without a chained key the parent's chain is closed. -/
  | addChain (key : KeyOptions) (chained : Option KeyOptions) (verbose : Bool) (root : Path)
  | deleteChain (key : KeyOptions) (full verbose : Bool) (root : Path)
  | showChain (key : KeyOptions) (root : Path)
  | addDecoys (min max : Option Int) (verbose : Bool) (root : Path)
  | showAlgorithms
  deriving DecidableEq, Repr

/-- Settings from outside the command line, which count where it says nothing. -/
structure Environment where
  config : Option String
  log : Option String
  logFormat : Option String
  deriving DecidableEq, Repr

/-- What a command line asks for. -/
inductive Invocation where
  | run (config : Path) (command : Command)
  | help
  | version
  deriving DecidableEq, Repr

namespace Command

def flag (name : String) (letter : Char) : OptionSpec := ⟨name, some letter, none⟩

def valued (name : String) (letter : Char) (kind : ValueKind) : OptionSpec :=
  ⟨name, some letter, some kind⟩

def keyOptions : List OptionSpec :=
  [valued "algorithm" 'a' .text, valued "iterations" 'i' .integer, valued "keyfile" 'k' .path,
    flag "no-passphrase" 'p']

def chainedOptions : List OptionSpec :=
  [valued "chained-algorithm" 'A' .text, valued "chained-iterations" 'I' .integer,
    valued "chained-keyfile" 'K' .path, flag "chained-no-passphrase" 'P']

def chainOptions : List OptionSpec := [flag "chain" 'c', flag "no-chain" 'C']

def verboseOption : OptionSpec := flag "verbose" 'v'

def testOption : OptionSpec := flag "test" 't'

/-- The grammar of a command with these options and operands. -/
def grammar (options : List OptionSpec) (operands : List String) : Grammar :=
  ⟨options ++ [flag "help" 'h'], operands, false⟩

/-- The key options given under names that start in `lead`. -/
def givenKey (g : Given) (lead : String) : KeyOptions :=
  ⟨g.value? (lead ++ "algorithm"), g.integer? (lead ++ "iterations"),
    (g.value? (lead ++ "keyfile")).map Path.mk, g.has (lead ++ "no-passphrase")⟩

def givenChain (g : Given) : ChainChoice :=
  if g.has "no-chain" then .ignored else if g.has "chain" then .required else .configured

/-- The operand of a command that takes one. -/
def givenPath (g : Given) : Path := ⟨g.operands.headD ""⟩

/-- How a command is written: its options and operands, the options that exclude each other, and the
    command that they give. -/
structure Form where
  name : String
  grammar : Grammar
  conflicts : List (String × String)
  command : Given → Command

def forms : List Form := [
  { name := "addkey"
    grammar := grammar (keyOptions ++ chainOptions ++ [verboseOption]) ["FSROOT"]
    conflicts := [("chain", "no-chain")]
    command := fun g => .addKey (givenKey g "") (givenChain g) (g.has "verbose") (givenPath g) },
  { name := "delkey"
    grammar := grammar (keyOptions ++ chainOptions ++ [verboseOption]) ["FSROOT"]
    conflicts := [("chain", "no-chain")]
    command := fun g => .deleteKey (givenKey g "") (givenChain g) (g.has "verbose") (givenPath g) },
  { name := "setkey"
    grammar := grammar (keyOptions ++ chainOptions ++ [flag "add" 'x', verboseOption]) ["DIRECTORY"]
    conflicts := [("chain", "no-chain"), ("add", "chain")]
    command := fun g =>
      .setKey (givenKey g "") (givenChain g) (g.has "add") (g.has "verbose") (givenPath g) },
  { name := "getkey"
    grammar := grammar [testOption] ["PATH"]
    conflicts := []
    command := fun g => .getKey (g.has "test") (givenPath g) },
  { name := "showkeys"
    grammar := grammar [testOption] ["FSROOT"]
    conflicts := []
    command := fun g => .showKeys (g.has "test") (givenPath g) },
  { name := "flushkeys"
    grammar := grammar [] ["FSROOT"]
    conflicts := []
    command := fun g => .flushKeys (givenPath g) },
  { name := "addchain"
    grammar := grammar (keyOptions ++ chainedOptions ++ [flag "seal" 'Z', verboseOption]) ["FSROOT"]
    conflicts := chainedOptions.map fun o => ("seal", o.name)
    command := fun g =>
      let chained := if g.has "seal" then none else some (givenKey g "chained-")
      .addChain (givenKey g "") chained (g.has "verbose") (givenPath g) },
  { name := "delchain"
    grammar := grammar (keyOptions ++ [flag "full" 'F', verboseOption]) ["FSROOT"]
    conflicts := []
    command := fun g => .deleteChain (givenKey g "") (g.has "full") (g.has "verbose") (givenPath g) },
  { name := "showchains"
    grammar := grammar keyOptions ["FSROOT"]
    conflicts := []
    command := fun g => .showChain (givenKey g "") (givenPath g) },
  { name := "randomchain"
    grammar := grammar [valued "min" 'n' .integer, valued "max" 'N' .integer, verboseOption] ["FSROOT"]
    conflicts := []
    command := fun g =>
      .addDecoys (g.integer? "min") (g.integer? "max") (g.has "verbose") (givenPath g) },
  { name := "showalgs"
    grammar := grammar [] []
    conflicts := []
    command := fun _ => .showAlgorithms }]

end Command

namespace Invocation

def logFormats : List String := ["json", "text"]

/-- Options in front of the command. -/
def grammar : Grammar :=
  ⟨[⟨"config", none, some .path⟩, ⟨"log", none, some .text⟩, ⟨"log-format", none, some (.word logFormats)⟩,
    ⟨"help", some 'h', none⟩, ⟨"version", some 'V', none⟩], [], true⟩

/-- The configuration that is read if none is named. -/
def standardConfig : String := "/etc/kcfs/config.toml"

/-- The value of an option or of the environment, which must be of the same kind. -/
def setting (g : Given) (name : String) (kind : ValueKind) (outside : Option String) :
    Except ArgumentFault (Option String) :=
  match g.value? name, outside with
  | some value, _ => .ok (some value)
  | none, none => .ok none
  | none, some value =>
    if kind.accepts value then .ok (some value) else .error (.invalidValue name value)

/-- What is meant by a notice. -/
def ofNotice (name : String) : Invocation := if name = "version" then .version else .help

/-- The invocation of a command by its arguments, behind the options in `g`. -/
def ofForm (env : Environment) (g : Given) (form : Command.Form) (args : List String) :
    Except ArgumentFault Invocation := do
  match ← form.grammar.read args with
  | .notice name => return ofNotice name
  | .command _ name _ => throw (.unexpected name)
  | .given own =>
    match form.conflicts.find? fun c => own.has c.1 && own.has c.2 with
    | some (option, other) => throw (.conflict option other)
    | none =>
      let config ← setting g "config" .path env.config
      let _ ← setting g "log" .text env.log
      let _ ← setting g "log-format" (.word logFormats) env.logFormat
      return .run ⟨config.getD standardConfig⟩ (form.command own)

/-- What the command `help` asks for: it takes the name of at most one command, its own included. -/
def helpFor : List String → Except ArgumentFault Invocation
  | [] => .ok .help
  | [name] =>
    if name = "help" || Command.forms.any fun form => form.name == name then .ok .help
    else .error (.unknownCommand name)
  | _ :: name :: _ => .error (.unknownCommand name)

/-- What a line of arguments asks for. -/
def ofArguments (env : Environment) (args : List String) : Except ArgumentFault Invocation := do
  match ← grammar.read args with
  | .notice name => return ofNotice name
  | .given _ => throw .missingCommand
  | .command g name rest =>
    match Command.forms.find? fun form => form.name == name with
    | some form => ofForm env g form rest
    | none => if name = "help" then helpFor rest else throw (.unknownCommand name)

end Invocation

end KeyChain
