import KeyChain.ChainMode
import KeyChain.Key.Params
import KeyChain.Toml.Quoted
import KeyChain.Toml.Text
/-! The configuration: four TOML tables, each of them and each of their entries optional, with the
   standard values where nothing is said. Names that are not known are passed over. -/
namespace KeyChain

structure Config where
  /-- Which messages of the log are shown, and how. -/
  logLevel : String
  logFormat : String
  keys : KeyParams
  mode : ChainMode
  /-- Bounds for a number of decoys. -/
  decoyMin : Int
  decoyMax : Int
  deriving DecidableEq, Repr

namespace Config

def standard : Config := ⟨"warn", "text", KeyParams.standard, .ignoreMissing, 16, 64⟩

/-- The value of a field, or what holds where it is not given. -/
def fieldOr {α : Type} (otherwise : α) (read? : Toml → Option α) : Option Toml → Option α
  | none => some otherwise
  | some v => read? v

def readLog (c : Config) (v : Toml) : Option Config := do
  match ← v.record? ["level", "format"] with
  | [level, format] =>
    let level ← fieldOr c.logLevel Toml.text? level
    let format ← fieldOr c.logFormat Toml.text? format
    return { c with logLevel := level, logFormat := format }
  | _ => none

def keyFieldNames : List String :=
  ["algorithm", "iterations", "argon2_mem_cost_kib", "argon2_parallelism", "keyfile", "no_passphrase"]

def readKeys (c : Config) (v : Toml) : Option Config := do
  match ← v.record? keyFieldNames with
  | [algorithm, iterations, memory, parallelism, keyfile, noPassphrase] =>
    let algorithm ← fieldOr c.keys.algorithm Toml.text? algorithm
    let iterations ← fieldOr c.keys.iterations Toml.integer? iterations
    let memory ← fieldOr c.keys.memory Toml.word? memory
    let parallelism ← fieldOr c.keys.parallelism Toml.word? parallelism
    let keyfile ← fieldOr c.keys.keyfile (fun v => v.text?.map fun text => some ⟨text⟩) keyfile
    let noPassphrase ← fieldOr c.keys.noPassphrase Toml.boolean? noPassphrase
    return { c with keys := ⟨algorithm, iterations, keyfile, noPassphrase, memory, parallelism⟩ }
  | _ => none

def readChain (c : Config) (v : Toml) : Option Config := do
  match ← v.record? ["mode"] with
  | [mode] =>
    let mode ← fieldOr c.mode (fun v => v.choice?.bind ChainMode.ofName?) mode
    return { c with mode := mode }
  | _ => none

def readDecoys (c : Config) (v : Toml) : Option Config := do
  match ← v.record? ["min", "max"] with
  | [min, max] =>
    let min ← fieldOr c.decoyMin Toml.integer? min
    let max ← fieldOr c.decoyMax Toml.integer? max
    return { c with decoyMin := min, decoyMax := max }
  | _ => none

/-- Reads a table into the configuration, if it is given. -/
def readTable (read : Config → Toml → Option Config) (c : Config) : Option Toml → Option Config
  | none => some c
  | some v => read c v

def ofToml? (v : Toml) : Option Config := do
  match ← v.record? ["log", "keys", "chain", "chaff"] with
  | [log, keys, chain, decoys] =>
    let c ← readTable readLog standard log
    let c ← readTable readKeys c keys
    let c ← readTable readChain c chain
    readTable readDecoys c decoys
  | _ => none

/-- The configuration that a text writes. -/
def ofText? (text : String) : Option Config := (Toml.read? text).bind ofToml?

/-- What is said of a text that is no configuration. -/
def complaint : String := "not a valid configuration"

/-- A line that gives a name its value. -/
def line (name value : String) : String := name ++ " = " ++ value ++ "\n"

/-- The text of a configuration, with every value that there is. -/
def text (c : Config) : String :=
  let keyfile :=
    match c.keys.keyfile with
    | none => ""
    | some path => line "keyfile" (Toml.quote path.text)
  "[log]\n" ++
    line "level" (Toml.quote c.logLevel) ++
    line "format" (Toml.quote c.logFormat) ++
  "\n[keys]\n" ++
    line "algorithm" (Toml.quote c.keys.algorithm) ++
    line "iterations" (toString c.keys.iterations) ++
    line "argon2_mem_cost_kib" (toString c.keys.memory) ++
    line "argon2_parallelism" (toString c.keys.parallelism) ++
    keyfile ++
    line "no_passphrase" (toString c.keys.noPassphrase) ++
  "\n[chain]\n" ++
    line "mode" (Toml.quote c.mode.name) ++
  "\n[chaff]\n" ++
    line "min" (toString c.decoyMin) ++
    line "max" (toString c.decoyMax)

end Config

end KeyChain
