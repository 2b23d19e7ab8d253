import KeyChain.Config
import KeyChain.Proofs.TomlTables
/-! The configuration as text, and back. The text is a list of lines, four tables with a line for each field that
   has a value, and what is left when lines are taken out is still a configuration: the fields whose lines
   are gone have their standard values. Only the header of a table must not go before its pairs.

   1. `text_eq_textOf`: the text of a configuration is all of its lines;
   2. `writes_textOf`: any of the lines are read as the tables and pairs that are left;
   3. `ofToml?_document`: and those give the fields that are left, and the standard values for the others;
   4. `text_reread`: so a configuration is read back from its text, and from any part of it as far as it is
      there. -/
namespace KeyChain.Config

/-- The tables of a configuration. -/
inductive Table where
  | log
  | keys
  | chain
  | decoys
  deriving DecidableEq

/-- The fields of a configuration. -/
inductive Field where
  | level
  | format
  | algorithm
  | iterations
  | memory
  | parallelism
  | keyfile
  | noPassphrase
  | mode
  | min
  | max
  deriving DecidableEq

namespace Table

def name : Table → String
  | log => "log"
  | keys => "keys"
  | chain => "chain"
  | decoys => "chaff"

/-- The tables in the order they are written. -/
def all : List Table := [log, keys, chain, decoys]

/-- The fields of a table in the order they are written. -/
def fields : Table → List Field
  | log => [.level, .format]
  | keys => [.algorithm, .iterations, .memory, .parallelism, .keyfile, .noPassphrase]
  | chain => [.mode]
  | decoys => [.min, .max]

theorem mem_all (t : Table) : t ∈ all := by cases t <;> decide

theorem name_injective (t t' : Table) (h : t.name = t'.name) : t = t' := by
  cases t <;> cases t' <;> first | rfl | exact absurd h (by decide)

theorem isBare_name (t : Table) : Toml.IsBare t.name := by cases t <;> decide

end Table

namespace Field

def name : Field → String
  | level => "level"
  | format => "format"
  | algorithm => "algorithm"
  | iterations => "iterations"
  | memory => "argon2_mem_cost_kib"
  | parallelism => "argon2_parallelism"
  | keyfile => "keyfile"
  | noPassphrase => "no_passphrase"
  | mode => "mode"
  | min => "min"
  | max => "max"

/-- The table that a field is in. -/
def table : Field → Table
  | level | format => .log
  | algorithm | iterations | memory | parallelism | keyfile | noPassphrase => .keys
  | mode => .chain
  | min | max => .decoys

theorem mem_fields_iff (f : Field) (t : Table) : f ∈ t.fields ↔ f.table = t := by
  cases f <;> cases t <;> decide

theorem name_injective (f f' : Field) (h : f.name = f'.name) : f = f' := by
  cases f <;> cases f' <;> first | rfl | exact absurd h (by decide)

theorem isBare_name (f : Field) : Toml.IsBare f.name := by cases f <;> decide

end Field

/-- The lines of a text: the pair of a field, which goes over several lines if its value does, the header of a
    table, and the empty line in front of one. -/
inductive Line where
  | gap (table : Table)
  | header (table : Table)
  | pair (field : Field)

/-- What is written for a field, if it has a value. -/
def spelling (c : Config) : Field → Option String
  | .level => some (Toml.quote c.logLevel)
  | .format => some (Toml.quote c.logFormat)
  | .algorithm => some (Toml.quote c.keys.algorithm)
  | .iterations => some (toString c.keys.iterations)
  | .memory => some (toString c.keys.memory)
  | .parallelism => some (toString c.keys.parallelism)
  | .keyfile => c.keys.keyfile.map fun path => Toml.quote path.text
  | .noPassphrase => some (toString c.keys.noPassphrase)
  | .mode => some (Toml.quote c.mode.name)
  | .min => some (toString c.decoyMin)
  | .max => some (toString c.decoyMax)

/-- The lines of a table. -/
def tableLines (c : Config) (t : Table) : List Line :=
  (if t = .log then [] else [.gap t]) ++ .header t :: (t.fields.filter fun f => (c.spelling f).isSome).map .pair

/-- The lines of the text. -/
def lines (c : Config) : List Line := Table.all.flatMap c.tableLines

def lineText (c : Config) : Line → String
  | .gap _ => "\n"
  | .header t => "[" ++ t.name ++ "]\n"
  | .pair f => line f.name ((c.spelling f).getD "")

/-- What is left of the text if only some lines are kept. -/
def textOf (c : Config) (keep : Line → Bool) : String := String.join ((c.lines.filter keep).map c.lineText)

/-- Some of the fields, and the standard values for the others. -/
def keeping (c : Config) (keep : Field → Bool) : Config where
  logLevel := if keep .level then c.logLevel else standard.logLevel
  logFormat := if keep .format then c.logFormat else standard.logFormat
  keys :=
    { algorithm := if keep .algorithm then c.keys.algorithm else standard.keys.algorithm
      iterations := if keep .iterations then c.keys.iterations else standard.keys.iterations
      keyfile := if keep .keyfile then c.keys.keyfile else standard.keys.keyfile
      noPassphrase := if keep .noPassphrase then c.keys.noPassphrase else standard.keys.noPassphrase
      memory := if keep .memory then c.keys.memory else standard.keys.memory
      parallelism := if keep .parallelism then c.keys.parallelism else standard.keys.parallelism }
  mode := if keep .mode then c.mode else standard.mode
  decoyMin := if keep .min then c.decoyMin else standard.decoyMin
  decoyMax := if keep .max then c.decoyMax else standard.decoyMax

/-- Whether 64 bits hold the integers of a configuration. -/
structure Fits (c : Config) : Prop where
  iterations : Toml.InRange c.keys.iterations
  decoyMin : Toml.InRange c.decoyMin
  decoyMax : Toml.InRange c.decoyMax

theorem text_eq_textOf (c : Config) : c.text = c.textOf fun _ => true := by
  have hlines : (c.lines.filter fun _ => true) = c.lines := List.filter_eq_self.2 fun _ _ => rfl
  have hkeys : ∀ rest, "\n[keys]\n" ++ rest = "\n" ++ ("[keys]\n" ++ rest) := fun _ => by
    rw [← String.append_assoc]; rfl
  have hchain : ∀ rest, "\n[chain]\n" ++ rest = "\n" ++ ("[chain]\n" ++ rest) := fun _ => by
    rw [← String.append_assoc]; rfl
  have hdecoys : ∀ rest, "\n[chaff]\n" ++ rest = "\n" ++ ("[chaff]\n" ++ rest) := fun _ => by
    rw [← String.append_assoc]; rfl
  rw [textOf, hlines]
  unfold text
  cases hkeyfile : c.keys.keyfile <;>
    simp [lines, tableLines, Table.all, Table.fields, lineText, spelling, hkeyfile, Table.name, Field.name,
      String.append_assoc, hkeys, hchain, hdecoys]

section

variable (c : Config)

/-- What is read for a field, if it has a value. -/
def value : Field → Option Toml
  | .level => some (.string c.logLevel)
  | .format => some (.string c.logFormat)
  | .algorithm => some (.string c.keys.algorithm)
  | .iterations => some (.integer c.keys.iterations)
  | .memory => some (.integer c.keys.memory.toNat)
  | .parallelism => some (.integer c.keys.parallelism.toNat)
  | .keyfile => c.keys.keyfile.map fun path => .string path.text
  | .noPassphrase => some (.boolean c.keys.noPassphrase)
  | .mode => some (.string c.mode.name)
  | .min => some (.integer c.decoyMin)
  | .max => some (.integer c.decoyMax)

theorem inRange_word (n : UInt32) : Toml.InRange n.toNat := by
  have hn := n.toNat_lt
  constructor
  · exact Int.le_trans (by decide) (Int.natCast_nonneg _)
  · exact Int.le_trans (Int.ofNat_le.2 (Nat.le_of_lt hn)) (by decide)

variable {c}

/-- What is written for a field is read as its value. -/
theorem spelled (h : c.Fits) (f : Field) :
    (c.spelling f = none ∧ c.value f = none) ∨
      ∃ text v, c.spelling f = some text ∧ c.value f = some v ∧ Toml.Spells text v := by
  cases f with
  | level => exact .inr ⟨_, _, rfl, rfl, .string _⟩
  | format => exact .inr ⟨_, _, rfl, rfl, .string _⟩
  | algorithm => exact .inr ⟨_, _, rfl, rfl, .string _⟩
  | iterations => exact .inr ⟨_, _, rfl, rfl, .integer h.iterations⟩
  | memory => exact .inr ⟨_, _, rfl, rfl, .integer (inRange_word _)⟩
  | parallelism => exact .inr ⟨_, _, rfl, rfl, .integer (inRange_word _)⟩
  | keyfile =>
    cases hkeyfile : c.keys.keyfile with
    | none => exact .inl ⟨by rw [spelling, hkeyfile]; rfl, by rw [value, hkeyfile]; rfl⟩
    | some path => exact .inr ⟨_, _, by rw [spelling, hkeyfile]; rfl, by rw [value, hkeyfile]; rfl, .string _⟩
  | noPassphrase => exact .inr ⟨_, _, rfl, rfl, .boolean _⟩
  | mode => exact .inr ⟨_, _, rfl, rfl, .string _⟩
  | min => exact .inr ⟨_, _, rfl, rfl, .integer h.decoyMin⟩
  | max => exact .inr ⟨_, _, rfl, rfl, .integer h.decoyMax⟩

/-- What a line says. -/
def statements (c : Config) : Line → List Toml.Statement
  | .gap _ => []
  | .header t => [Toml.headed t.name]
  | .pair f => ((c.value f).map fun v => Toml.paired (f.name, v)).toList

theorem writes_line (h : c.Fits) {l : Line} (hl : l ∈ c.lines) : Toml.Writes (c.lineText l) (c.statements l) := by
  cases l with
  | gap t => exact .blank
  | header t => exact .header t.isBare_name
  | pair f =>
    have hwritten : (c.spelling f).isSome = true := by
      obtain ⟨t, -, ht⟩ := List.mem_flatMap.1 hl
      rcases List.mem_append.1 ht with hgap | hrest
      · split at hgap <;> simp at hgap
      · obtain ⟨g, hg, he⟩ := List.mem_map.1 ((List.mem_cons.1 hrest).resolve_left nofun)
        cases he
        exact (List.mem_filter.1 hg).2
    rcases spelled h f with ⟨hnone, -⟩ | ⟨text, v, htext, hv, hspells⟩
    · rw [hnone] at hwritten
      cases hwritten
    · rw [lineText, statements, htext, hv]
      exact .pair f.isBare_name hspells

/-- The pairs of a table that are left. -/
def pairsLeft (c : Config) (keep : Line → Bool) (t : Table) : Toml.Entries :=
  t.fields.filterMap fun f => (if keep (.pair f) then c.value f else none).map (f.name, ·)

/-- The tables that are left. -/
def tablesLeft (c : Config) (keep : Line → Bool) : List (String × Toml.Entries) :=
  Table.all.filterMap fun t => (if keep (.header t) then some (c.pairsLeft keep t) else none).map (t.name, ·)

theorem statements_pairs (h : c.Fits) (keep : Line → Bool) (fields : List Field) :
    (((fields.filter fun f => (c.spelling f).isSome).map Line.pair).filter keep).flatMap c.statements =
      (fields.filterMap fun f => (if keep (.pair f) then c.value f else none).map (f.name, ·)).map Toml.paired := by
  induction fields with
  | nil => rfl
  | cons f fields ih =>
    rcases spelled h f with ⟨hnone, hnone'⟩ | ⟨text, v, htext, hv, -⟩
    · simp [hnone, hnone', ih]
    · cases hkeep : keep (.pair f) with
      | true => simp [htext, hv, hkeep, ih, statements]
      | false => simp [htext, hkeep, ih]

/-- If no header goes before the pairs of its table, the lines that are left make the tables that are left. -/
theorem statements_left (h : c.Fits) {keep : Line → Bool} (hwhole : ∀ f, keep (.pair f) → keep (.header f.table)) :
    (c.lines.filter keep).flatMap c.statements = Toml.tabled (c.tablesLeft keep) := by
  unfold lines tablesLeft Toml.tabled
  rw [List.filter_flatMap, List.flatMap_assoc]
  generalize Table.all = tables
  induction tables with
  | nil => rfl
  | cons t tables ih =>
    have hgap : ((if t = .log then [] else [Line.gap t]).filter keep).flatMap c.statements = [] := by
      split
      · rfl
      · cases hkeep : keep (.gap t) <;> simp [hkeep, statements]
    have hpairs := statements_pairs h keep t.fields
    rw [List.flatMap_cons, ih, tableLines, List.filter_append, List.flatMap_append, hgap, List.nil_append]
    cases hkeep : keep (.header t) with
    | true =>
      simp [hkeep, statements, hpairs, pairsLeft]
    | false =>
      have hnone : ∀ f ∈ t.fields, keep (.pair f) = false := by
        intro f hf
        rw [Bool.eq_false_iff]
        intro hf'
        have htable := hwhole f hf'
        rw [(Field.mem_fields_iff f t).1 hf, hkeep] at htable
        cases htable
      have hleft : (t.fields.filterMap fun f => (if keep (.pair f) then c.value f else none).map (f.name, ·)) = [] := by
        rw [List.filterMap_eq_nil_iff]
        intro f hf
        rw [hnone f hf]
        rfl
      rw [hleft] at hpairs
      simp [hkeep, hpairs]

/-- Each name has what is left under it. -/
theorem names_left (keep : Line → Bool) (t : Table) : ((c.pairsLeft keep t).map Prod.fst).Nodup := by
  have hnames : (t.fields.map Field.name).Nodup := by cases t <;> decide
  exact hnames.sublist (Toml.names_filterMap_sublist ..)

/-- The document that is left. -/
def document (c : Config) (keep : Line → Bool) : Toml.Entries :=
  (c.tablesLeft keep).map fun t => (t.1, .table .header t.2)

theorem read?_textOf (h : c.Fits) {keep : Line → Bool} (hwhole : ∀ f, keep (.pair f) → keep (.header f.table)) :
    Toml.read? (c.textOf keep) = some (.table .header (c.document keep)) := by
  have hwrites : Toml.Writes (c.textOf keep) ((c.lines.filter keep).flatMap c.statements) :=
    .join fun l hl => writes_line h (List.mem_filter.1 hl).1
  rw [statements_left h hwhole] at hwrites
  rw [hwrites.read?, Toml.build_tabled]
  · rfl
  · exact (show (Table.all.map Table.name).Nodup by decide).sublist (Toml.names_filterMap_sublist ..)
  · intro t ht
    obtain ⟨t', -, ht'⟩ := List.mem_filterMap.1 ht
    split at ht'
    · cases ht'
      exact names_left keep t'
    · cases ht'

theorem lookup?_document (keep : Line → Bool) (t : Table) :
    Toml.lookup? t.name (c.document keep) =
      if keep (.header t) then some (.table .header (c.pairsLeft keep t)) else none := by
  have hdocument : c.document keep = Table.all.filterMap fun t =>
      (if keep (.header t) then some (.table .header (c.pairsLeft keep t)) else none).map (t.name, ·) := by
    rw [document, tablesLeft, List.map_filterMap]
    congr 1
    funext t
    split <;> rfl
  rw [hdocument, Toml.lookup?_filterMap Table.name_injective, if_pos t.mem_all]

theorem lookup?_pairsLeft (keep : Line → Bool) (f : Field) :
    Toml.lookup? f.name (c.pairsLeft keep f.table) = if keep (.pair f) then c.value f else none := by
  rw [pairsLeft, Toml.lookup?_filterMap Field.name_injective, if_pos ((Field.mem_fields_iff f _).2 rfl)]

/-- A field that is left has its value, and another one what holds otherwise. -/
theorem fieldOr_left {α : Type} {read? : Toml → Option α} {v : Toml} {x : α} (h : read? v = some x) (kept : Bool)
    (otherwise : α) :
    fieldOr otherwise read? (if kept then some v else none) = some (if kept then x else otherwise) := by
  cases kept with
  | true => exact h
  | false => rfl

end

/-! What the tables that are left say, read into a configuration. -/

section

variable {c : Config} {keep : Line → Bool} (base : Config)

theorem readLog_left : readLog base (.table .header (c.pairsLeft keep .log)) =
    some { base with
      logLevel := if keep (.pair .level) then c.logLevel else base.logLevel
      logFormat := if keep (.pair .format) then c.logFormat else base.logFormat } := by
  have hlevel : Toml.lookup? "level" (c.pairsLeft keep .log) = _ := lookup?_pairsLeft keep .level
  have hformat : Toml.lookup? "format" (c.pairsLeft keep .log) = _ := lookup?_pairsLeft keep .format
  unfold readLog
  simp only [Toml.record?, List.map_cons, List.map_nil, hlevel, hformat, value, Option.bind_eq_bind, Option.bind_some,
    fieldOr_left (show Toml.text? (.string _) = some _ from rfl)]
  rfl

theorem word?_integer (n : UInt32) : Toml.word? (.integer n.toNat) = some n := by
  have hrange : (0 : Int) ≤ n.toNat ∧ (n.toNat : Int) < UInt32.size := by
    have hn := n.toNat_lt_size
    omega
  have hvalue : UInt32.ofNat (n.toNat : Int).toNat = n := by
    rw [Int.toNat_natCast, UInt32.ofNat_toNat]
  rw [Toml.word?, show Toml.integer? (.integer n.toNat) = some (n.toNat : Int) from rfl, Option.bind_eq_bind,
    Option.bind_some, if_pos hrange, hvalue]

theorem keyfile_left (hbase : base.keys.keyfile = none) :
    fieldOr base.keys.keyfile (fun v => v.text?.map fun text => some ⟨text⟩)
        (if keep (.pair .keyfile) then c.value .keyfile else none) =
      some (if keep (.pair .keyfile) then c.keys.keyfile else base.keys.keyfile) := by
  rw [hbase, value]
  cases keep (.pair .keyfile) with
  | false => rfl
  | true => cases c.keys.keyfile <;> rfl

theorem readKeys_left (hbase : base.keys.keyfile = none) :
    readKeys base (.table .header (c.pairsLeft keep .keys)) =
      some { base with keys :=
        { algorithm := if keep (.pair .algorithm) then c.keys.algorithm else base.keys.algorithm
          iterations := if keep (.pair .iterations) then c.keys.iterations else base.keys.iterations
          keyfile := if keep (.pair .keyfile) then c.keys.keyfile else base.keys.keyfile
          noPassphrase := if keep (.pair .noPassphrase) then c.keys.noPassphrase else base.keys.noPassphrase
          memory := if keep (.pair .memory) then c.keys.memory else base.keys.memory
          parallelism := if keep (.pair .parallelism) then c.keys.parallelism else base.keys.parallelism } } := by
  have halgorithm : Toml.lookup? "algorithm" (c.pairsLeft keep .keys) = _ := lookup?_pairsLeft keep .algorithm
  have hiterations : Toml.lookup? "iterations" (c.pairsLeft keep .keys) = _ := lookup?_pairsLeft keep .iterations
  have hmemory : Toml.lookup? "argon2_mem_cost_kib" (c.pairsLeft keep .keys) = _ := lookup?_pairsLeft keep .memory
  have hparallelism : Toml.lookup? "argon2_parallelism" (c.pairsLeft keep .keys) = _ :=
    lookup?_pairsLeft keep .parallelism
  have hkeyfile : Toml.lookup? "keyfile" (c.pairsLeft keep .keys) = _ := lookup?_pairsLeft keep .keyfile
  have hnoPassphrase : Toml.lookup? "no_passphrase" (c.pairsLeft keep .keys) = _ :=
    lookup?_pairsLeft keep .noPassphrase
  unfold readKeys
  simp only [Toml.record?, keyFieldNames, List.map_cons, List.map_nil, halgorithm, hiterations, hmemory,
    hparallelism, hkeyfile, hnoPassphrase, Option.bind_eq_bind, Option.bind_some, keyfile_left base hbase]
  simp only [value, Option.bind_some, fieldOr_left (show Toml.text? (.string _) = some _ from rfl),
    fieldOr_left (show Toml.integer? (.integer _) = some _ from rfl), fieldOr_left (word?_integer _),
    fieldOr_left (show Toml.boolean? (.boolean _) = some _ from rfl)]
  rfl

theorem readChain_left : readChain base (.table .header (c.pairsLeft keep .chain)) =
    some { base with mode := if keep (.pair .mode) then c.mode else base.mode } := by
  have hmode : Toml.lookup? "mode" (c.pairsLeft keep .chain) = _ := lookup?_pairsLeft keep .mode
  have hread : (Toml.choice? (.string c.mode.name)).bind ChainMode.ofName? = some c.mode := ChainMode.ofName?_name _
  unfold readChain
  simp only [Toml.record?, List.map_cons, List.map_nil, hmode, value, Option.bind_eq_bind, Option.bind_some]
  rw [fieldOr_left hread]
  rfl

theorem readDecoys_left : readDecoys base (.table .header (c.pairsLeft keep .decoys)) =
    some { base with
      decoyMin := if keep (.pair .min) then c.decoyMin else base.decoyMin
      decoyMax := if keep (.pair .max) then c.decoyMax else base.decoyMax } := by
  have hmin : Toml.lookup? "min" (c.pairsLeft keep .decoys) = _ := lookup?_pairsLeft keep .min
  have hmax : Toml.lookup? "max" (c.pairsLeft keep .decoys) = _ := lookup?_pairsLeft keep .max
  unfold readDecoys
  simp only [Toml.record?, List.map_cons, List.map_nil, hmin, hmax, value, Option.bind_eq_bind, Option.bind_some,
    fieldOr_left (show Toml.integer? (.integer _) = some _ from rfl)]
  rfl

/-- A table is read if its header is left; else its pairs are gone as well, and nothing changes. -/
theorem readTable_left {read : Config → Toml → Option Config} {result : Config} {t : Table}
    (hread : read base (.table .header (c.pairsLeft keep t)) = some result)
    (hgone : keep (.header t) = false → result = base) :
    readTable read base (Toml.lookup? t.name (c.document keep)) = some result := by
  rw [lookup?_document]
  cases hkeep : keep (.header t) with
  | true => exact hread
  | false => rw [hgone hkeep]; rfl

end

variable {c : Config}

/-- What is left of the document gives the fields that are left, and the standard values for the others. -/
theorem ofToml?_document {keep : Line → Bool} (hwhole : ∀ f, keep (.pair f) → keep (.header f.table)) :
    ofToml? (.table .header (c.document keep)) = some (c.keeping fun f => keep (.pair f)) := by
  have hgone : ∀ f, keep (.header f.table) = false → keep (.pair f) = false := by
    intro f htable
    rw [Bool.eq_false_iff]
    intro hf
    rw [hwhole f hf] at htable
    cases htable
  have hlog := readTable_left standard (@readLog_left c keep standard) fun h => by
    simp [hgone .level h, hgone .format h]
  generalize hbase₁ : ({ standard with logLevel := _, logFormat := _ } : Config) = base₁ at hlog
  have hkeys := readTable_left base₁ (@readKeys_left c keep base₁ (hbase₁ ▸ rfl)) fun h => by
    simp [hgone .algorithm h, hgone .iterations h, hgone .memory h, hgone .parallelism h, hgone .keyfile h,
      hgone .noPassphrase h]
  generalize hbase₂ : ({ base₁ with keys := _ } : Config) = base₂ at hkeys
  have hchain := readTable_left base₂ (@readChain_left c keep base₂) fun h => by simp [hgone .mode h]
  generalize hbase₃ : ({ base₂ with mode := _ } : Config) = base₃ at hchain
  have hdecoys := readTable_left base₃ (@readDecoys_left c keep base₃) fun h => by
    simp [hgone .min h, hgone .max h]
  show (readTable readLog standard (Toml.lookup? Table.log.name (c.document keep)) >>= fun c₁ =>
    readTable readKeys c₁ (Toml.lookup? Table.keys.name (c.document keep)) >>= fun c₂ =>
    readTable readChain c₂ (Toml.lookup? Table.chain.name (c.document keep)) >>= fun c₃ =>
    readTable readDecoys c₃ (Toml.lookup? Table.decoys.name (c.document keep))) = _
  simp only [Option.bind_eq_bind, hlog, hkeys, hchain, hdecoys, Option.bind_some]
  rw [← hbase₃, ← hbase₂, ← hbase₁]
  rfl

/-- A configuration is read back from its text. If any of the lines are taken out, and with the header of a table
    all of its pairs, what is left of the text is read as well: the fields that are left have their values, and all
    others the standard ones. -/
theorem text_reread {c : Config} (h : c.Fits) :
    ofText? c.text = some c ∧ c.text = c.textOf (fun _ => true) ∧
    ∀ keep : Line → Bool, (∀ f, keep (.pair f) → keep (.header f.table)) →
      ofText? (c.textOf keep) = some (c.keeping fun f => keep (.pair f)) := by
  have hleft : ∀ keep : Line → Bool, (∀ f, keep (.pair f) → keep (.header f.table)) →
      ofText? (c.textOf keep) = some (c.keeping fun f => keep (.pair f)) := by
    intro keep hwhole
    rw [ofText?, read?_textOf h hwhole, Option.bind_some, ofToml?_document hwhole]
  refine ⟨?_, text_eq_textOf c, hleft⟩
  rw [text_eq_textOf c, hleft (fun _ => true) fun _ _ => rfl]
  rfl

/-- A configuration with texts that need each of the four forms of a string, and with the least integer. -/
def unusual : Config :=
  ⟨"it's \"here\"", "a\\b", ⟨"'\"\"\"\n\\", Int64.minValue.toInt, some ⟨"\"\"\"'\n\x7f"⟩, true, 4294967295, 0⟩, .use, -1,
    Int64.maxValue.toInt⟩

/-- All lines but those of the first table and that of the mode. -/
def sparse : Line → Bool
  | .gap _ => true
  | .header t => t ≠ .log
  | .pair f => f.table ≠ .log ∧ f ≠ .mode

/-- The unusual texts are read back, also if the first table and the mode are not there. -/
theorem text_reread_unusual :
    unusual.Fits ∧ (∀ f, sparse (.pair f) → sparse (.header f.table)) ∧ ofText? unusual.text = some unusual ∧
      ofText? (unusual.textOf sparse) =
        some { unusual with logLevel := "warn", logFormat := "text", mode := .ignoreMissing } := by
  have hfits : unusual.Fits := ⟨by decide, by decide, by decide⟩
  have hwhole : ∀ f, sparse (.pair f) → sparse (.header f.table) := by intro f; cases f <;> decide
  obtain ⟨hread, -, hleft⟩ := text_reread hfits
  exact ⟨hfits, hwhole, hread, hleft sparse hwhole⟩

end KeyChain.Config
