import KeyChain.Command
import KeyChain.Command.Find
import KeyChain.Config
import KeyChain.Key.Derive
import KeyChain.Root
/-! What the commands do. Parameters are checked before a passphrase is asked for, and a root before
   both; a command that fails tells why and ends with the status of the failure. -/
namespace KeyChain

/-- A program that may fail. -/
abbrev Action (α : Type) := ExceptT Failure Program α

namespace Action

variable {α : Type}

/-- A program that cannot fail. -/
def always (p : Program α) : Action α := ExceptT.lift p

/-- An operation of the library. -/
def attempt (p : Program (Except KeychainError α)) : Action α :=
  ExceptT.mk do return (← p).mapError Failure.keychain

/-- An operation of the library in the course of a task. -/
def during (task : Task) (p : Program (Except KeychainError α)) : Action α :=
  ExceptT.mk do return (← p).mapError (Failure.during task)

def ofResult (result : Except KeychainError α) : Action α := attempt (return result)

def print (line : String) : Action Unit := always (Program.print line)

end Action

open KeyChain.Action

/-! Reading keys and finding roots. -/

/-- Asks for a passphrase, twice if it is to be verified. -/
def readPassphrase (what : String) (verify : Bool) : Action String := do
  match ← always (Program.prompt s!"Enter {what}: ") with
  | none => throw (.prompt .unreadable)
  | some first =>
    if first = "" then throw (.prompt .unreadable)
    else if verify then
      match ← always (Program.prompt s!"Reenter {what}: ") with
      | none => throw (.prompt .unreadable)
      | some second => if first = second then return first else throw (.prompt .mismatch)
    else return first

/-- The key of the parameters, its passphrase asked for unless it is suppressed. -/
def readKey (p : KeyParams) (what : String) (verify : Bool) : Action Key := do
  let _ ← ofResult p.validate
  if p.noPassphrase then attempt (Key.load p none)
  else
    let passphrase ← readPassphrase what verify
    attempt (Key.load p (some passphrase))

/-- Where a file is. -/
def locate (path : Path) : Action Location :=
  attempt do return (← Program.realPath path).mapError (KeychainError.store path)

/-- Where a directory is. -/
def locateDirectory (path : Path) : Action Location := do
  let l ← locate path
  if ← always (Program.isDirectory l.path) then return l
  else throw (.keychain (.usage (.notADirectory path)))

/-- The chain that a key is used with. -/
def chainFor (c : Config) (root : Location) (key : Key) : ChainChoice → Action Chain
  | .ignored => return Chain.single key
  | .required => during (.resolving key.id) (Root.get ⟨root.path⟩ key .use)
  | .configured => during (.resolving key.id) (Root.get ⟨root.path⟩ key c.mode)

def connect (root : Location) : Action VaultKeyring := attempt (VaultKeyring.connect root.path.text)

/-! Showing. -/

/-- A text filled up with blanks to a width. -/
def padded (width : Nat) (text : String) : String :=
  text ++ String.ofList (List.replicate (width - text.length) ' ')

def showIndexed (index : Nat) (key : Key) : Action Unit :=
  print s!"\t{padded 4 (toString index)} {key.id} {key.algorithm.name}"

def showNode (l : Location) (key : Option Key) : Action Unit :=
  let base := l.fileName?.getD l.path.text
  match key with
  | some key => print s!"Key({base}): {key.id} {key.algorithm.name}"
  | none => print s!"Key({base}): <not specified>"

/-- Lines that are printed only if asked for. -/
def printIf (verbose : Bool) (lines : List String) : Action Unit :=
  if verbose then lines.forM print else return ()

/-! Keyring commands. -/

def addKey (c : Config) (key : KeyOptions) (choice : ChainChoice) (verbose : Bool) (path : Path) :
    Action UInt8 := do
  let root ← locateDirectory path
  let key ← readKey (key.params c.keys) "passphrase" false
  let chain ← chainFor c root key choice
  let keyring ← connect root
  let (result, keyring) ← always (keyring.install chain)
  let installed :=
    match result with
    | .ok count => count
    | .error _ => keyring.keyring.countLeading chain.keys
  printIf verbose ((chain.keys.take installed).map fun k => s!"Key added: {k.id}")
  let _ ← during .adding (return result)
  return 0

/-- The status once all keys of a chain were tried: keys that were not there are invalid input, any
    other failure is one of the system. -/
def removalStatus (failures : List (KeyId × KeychainError)) : UInt8 :=
  let isAbsence : KeychainError → Bool
    | .notFound _ => true
    | _ => false
  if failures.isEmpty then 0 else if failures.all fun f => isAbsence f.2 then 3 else 5

def deleteKey (c : Config) (key : KeyOptions) (choice : ChainChoice) (verbose : Bool) (path : Path) :
    Action UInt8 := do
  let root ← locateDirectory path
  let key ← readKey (key.params c.keys) "passphrase" false
  let chain ← chainFor c root key choice
  let keyring ← connect root
  let (failures, _) ← always (keyring.uninstall chain)
  failures.forM fun (id, cause) => always (Program.complain (.notDeleted id cause))
  let deleted := chain.keys.filter fun k => failures.all fun f => f.1 != k.id
  printIf verbose (deleted.map fun k => s!"Key deleted: {k.id}")
  return removalStatus failures

def setKey (c : Config) (key : KeyOptions) (choice : ChainChoice) (add verbose : Bool) (path : Path) :
    Action UInt8 := do
  let directory ← locateDirectory path
  let root ← always (findRoot directory)
  let key ← readKey (key.params c.keys) "passphrase" false
  let chain ← chainFor c root key choice
  let keyring ← connect root
  let keyring ←
    if add then do
      let (result, keyring) ← always (keyring.add chain.root)
      during .adding (return result)
      pure keyring
    else pure keyring
  let (result, _) ← always (keyring.bindPath directory.path chain.root)
  during (.binding directory.path) (return result)
  if verbose then showNode directory (some chain.root)
  return 0

def getKey (test : Bool) (path : Path) : Action UInt8 := do
  let l ← locate path
  let root ← always (findRoot l)
  let keyring ← connect root
  let key := keyring.keyring.nodeKey root l
  if test then return if key.isSome then 0 else 1
  else
    showNode l key
    return 0

def showKeys (test : Bool) (path : Path) : Action UInt8 := do
  let root ← locateDirectory path
  let keyring ← connect root
  let keys := keyring.keyring.keys
  if test then return if keys.isEmpty then 3 else 0
  else if keys.isEmpty then
    print "No keys specified"
    return 0
  else
    print "Keys:"
    keys.zipIdx.forM fun (key, index) => showIndexed index key
    return 0

def flushKeys (path : Path) : Action UInt8 := do
  let root ← locateDirectory path
  let keyring ← connect root
  let (result, _) ← always keyring.clear
  during .flushing (return result)
  return 0

/-! Key chain commands. -/

def addChain (c : Config) (key : KeyOptions) (chained : Option KeyOptions) (verbose : Bool)
    (path : Path) (source : RandomSource) : Action UInt8 := do
  let root ← locateDirectory path
  if let some chained := chained then
    let _ ← ofResult (chained.params c.keys).validate
  let parent ← readKey (key.params c.keys) "parent key passphrase" true
  let target ←
    match chained with
    | none => pure LinkTarget.terminal
    | some chained => do
      pure (LinkTarget.key (← readKey (chained.params c.keys) "chained key passphrase" true))
  let (result, _) ← always (Root.set ⟨root.path⟩ parent target source)
  ofResult result
  let line :=
    match target with
    | .key child => s!"Key chain set: {parent.id} -> {child.id}"
    | .terminal => s!"Key chain set: {parent.id}"
  printIf verbose [line]
  return 0

def deleteChain (c : Config) (key : KeyOptions) (full verbose : Bool) (path : Path) :
    Action UInt8 := do
  let root ← locateDirectory path
  let key ← readKey (key.params c.keys) "passphrase" false
  let removed ← attempt (Root.delete ⟨root.path⟩ key (if full then .full else .first))
  printIf verbose <| removed.map fun link =>
    match link.child with
    | some child => s!"Key chain deleted: {link.parent} -> {child}"
    | none => s!"Key chain deleted: {link.parent}"
  return 0

def showChain (c : Config) (key : KeyOptions) (path : Path) : Action UInt8 := do
  let root ← locateDirectory path
  let key ← readKey (key.params c.keys) "passphrase" false
  let chain ← attempt (Root.get ⟨root.path⟩ key .use)
  print "Key chain:"
  chain.keys.zipIdx.forM fun (key, index) => showIndexed (index + 1) key
  return 0

def addDecoys (c : Config) (min max : Option Int) (verbose : Bool) (path : Path)
    (source : RandomSource) : Action UInt8 := do
  let range ← ofResult (DecoyRange.ofBounds (min.getD c.decoyMin) (max.getD c.decoyMax))
  let root ← locateDirectory path
  let (result, _) ← always (Root.injectIn ⟨root.path⟩ range source)
  let added ← ofResult result
  printIf verbose (added.map fun (parent, child) => s!"Key chain set: {parent} -> {child}")
  return 0

def showAlgorithms : Action UInt8 := do
  print "Supported algorithms:"
  Algorithm.supported.forM fun a => print s!"\t{padded 20 a.name} {a.keyBits}"
  return 0

/-! Running. -/

/-- Runs a command under a configuration; the result is the exit status. -/
def Command.action (c : Config) (source : RandomSource) : Command → Action UInt8
  | .addKey key chain verbose root => KeyChain.addKey c key chain verbose root
  | .deleteKey key chain verbose root => KeyChain.deleteKey c key chain verbose root
  | .setKey key chain add verbose directory => KeyChain.setKey c key chain add verbose directory
  | .getKey test path => KeyChain.getKey test path
  | .showKeys test root => KeyChain.showKeys test root
  | .flushKeys root => KeyChain.flushKeys root
  | .addChain key chained verbose root => KeyChain.addChain c key chained verbose root source
  | .deleteChain key full verbose root => KeyChain.deleteChain c key full verbose root
  | .showChain key root => KeyChain.showChain c key root
  | .addDecoys min max verbose root => KeyChain.addDecoys c min max verbose root source
  | .showAlgorithms => KeyChain.showAlgorithms

/-- The configuration in a file; without the file the standard one. -/
def loadConfig (path : Path) : Action Config := do
  if ← always (Program.isPresent path) then
    match ← always (Program.read path) with
    | .error cause => throw (.unreadableConfig path cause)
    | .ok content =>
      match Bytes.text? content with
      | none => throw (.unreadableConfig path .invalidText)
      | some text =>
        match Config.ofText? text with
        | none => throw (.malformedConfig path Config.complaint)
        | some config => return config
  else return Config.standard

def versionLine : String := "kcfs 0.1.0"

/-- What is shown instead of a run when help is asked for. -/
def helpLines : List String :=
  ["Usage: kcfs [OPTIONS] <COMMAND>", "", "Commands:"] ++
    Command.forms.map fun form =>
      "  " ++ " ".intercalate (form.name :: form.grammar.operands.map fun o => s!"<{o}>")

/-- Runs a line of arguments; the result is the exit status. -/
def runArguments (env : Environment) (args : List String) (source : RandomSource) :
    Program UInt8 := do
  match Invocation.ofArguments env args with
  | .error fault =>
    Program.complain (.arguments fault.message)
    return 2
  | .ok .version =>
    Program.print versionLine
    return 0
  | .ok .help =>
    helpLines.forM Program.print
    return 0
  | .ok (.run path command) =>
    let action : Action UInt8 := do
      let config ← loadConfig path
      command.action config source
    match ← action.run with
    | .ok status => return status
    | .error failure =>
      Program.complain (.failed failure)
      return failure.status

end KeyChain
