import KeyChain.Proofs.TomlText
import Mathlib.Data.List.TakeDrop
/-! Plain TOML documents: tables under headers of one name, and in each of them one pair a line. They are read
   line by line, and then what the lines say is carried out.

   1. `Writes`: a text is read as statements, whatever is behind it, so the texts of lines can be put one behind
      the other (`Writes.append`, `Writes.join`);
   2. `carryOut_tables`: headers and pairs of different names make just those tables;
   3. `lookup?_filterMap`: in which a name that may be missing has the value that was given for it, if one was. -/
namespace KeyChain.Toml

/-! Names. -/

/-- Whether a name can be written as it is. -/
def IsBare (name : String) : Prop := name.toList ≠ [] ∧ ∀ c ∈ name.toList, isKeyChar c = true

instance (name : String) : Decidable (IsBare name) :=
  decidable_of_iff (name.toList ≠ [] ∧ name.toList.all isKeyChar = true) (by rw [List.all_eq_true]; rfl)

theorem ne_of_isKeyChar {c d : Char} (h : isKeyChar c = true) (hd : isKeyChar d = false) : c ≠ d := by
  rintro rfl
  rw [h] at hd
  cases hd

theorem dropBlanks_cons {c : Char} (h : isBlank c = false) (rest : List Char) :
    dropBlanks (c :: rest) = c :: rest := by
  rw [dropBlanks, List.dropWhile_cons, h]
  rfl

theorem isBlank_of_isKeyChar {c : Char} (h : isKeyChar c = true) : isBlank c = false := by
  rw [isBlank, Bool.or_eq_false_iff, decide_eq_false_iff_not, decide_eq_false_iff_not]
  exact ⟨ne_of_isKeyChar h rfl, ne_of_isKeyChar h rfl⟩

/-- A name in front of something else is a key of one part. -/
theorem key?_name {name : String} (h : IsBare name) {c d : Char} {rest more : List Char}
    (hc : isKeyChar c = false) (hblank : dropBlanks (c :: rest) = d :: more) (hd : d ≠ '.') :
    key? (name.toList ++ c :: rest) = some (⟨[], name⟩, d :: more) := by
  obtain ⟨hne, hchars⟩ := h
  have hspan : (name.toList ++ c :: rest).span isKeyChar = (name.toList, c :: rest) := by
    rw [List.span_eq_takeWhile_dropWhile, List.takeWhile_append_of_pos hchars, List.dropWhile_append_of_pos hchars,
      List.takeWhile_cons_of_neg (by simp [hc]), List.dropWhile_cons_of_neg (by simp [hc]), List.append_nil]
  obtain ⟨k, ks, hname⟩ := List.exists_cons_of_ne_nil hne
  have hk : isKeyChar k = true := hchars k (hname ▸ List.mem_cons_self)
  have hsimple : simpleKey? (name.toList ++ c :: rest) = some (name, c :: rest) := by
    rw [simpleKey?, hspan, hname]
    · simp only
      rw [← hname, String.ofList_toList]
    · intro _ he
      rw [hname] at he
      exact ne_of_isKeyChar hk rfl (List.cons.inj he).1
    · intro _ he
      rw [hname] at he
      exact ne_of_isKeyChar hk rfl (List.cons.inj he).1
  have hstart : dropBlanks (name.toList ++ c :: rest) = name.toList ++ c :: rest := by
    rw [hname, List.cons_append]
    exact dropBlanks_cons (isBlank_of_isKeyChar hk) _
  have hparts : keyParts? ((name.toList ++ c :: rest).length + 1) (name.toList ++ c :: rest) =
      some ([name], d :: more) := by
    rw [keyParts?, hstart, hsimple]
    simp only [Option.bind_eq_bind, Option.bind_some, hblank]
    split
    · next h => exact absurd (List.cons.inj h).1 hd
    · rfl
  unfold key?
  rw [hparts]
  rfl

/-! Lines. -/

/-- What a header of one name says. -/
def headed (name : String) : Statement := .header ⟨[], name⟩

/-- What a pair of one name says. -/
def paired (p : String × Toml) : Statement := .pair ⟨[], p.1⟩ p.2

theorem statement?_header {name : String} (h : IsBare name) (rest : List Char) :
    statement? ('[' :: (name.toList ++ ']' :: '\n' :: rest)) = some (headed name, rest) := by
  have hkey : key? (name.toList ++ ']' :: '\n' :: rest) = some (⟨[], name⟩, ']' :: '\n' :: rest) :=
    key?_name h rfl (dropBlanks_cons rfl _) (by decide)
  obtain ⟨k, ks, hname⟩ := List.exists_cons_of_ne_nil h.1
  have hk : isKeyChar k = true := h.2 k (hname ▸ List.mem_cons_self)
  rw [statement?]
  · rw [hkey]
    rfl
  · intro _ he
    rw [hname] at he
    exact ne_of_isKeyChar hk rfl (List.cons.inj he).1

theorem statement?_pair {name text : String} {v : Toml} (h : IsBare name) (hv : Spells text v) (rest : List Char) :
    statement? (name.toList ++ ' ' :: '=' :: ' ' :: (text.toList ++ '\n' :: rest)) = some (paired (name, v), rest) := by
  have hkey : key? (name.toList ++ ' ' :: '=' :: ' ' :: (text.toList ++ '\n' :: rest)) =
      some (⟨[], name⟩, '=' :: ' ' :: (text.toList ++ '\n' :: rest)) := key?_name h rfl rfl (by decide)
  obtain ⟨k, ks, hname⟩ := List.exists_cons_of_ne_nil h.1
  have hk : isKeyChar k = true := h.2 k (hname ▸ List.mem_cons_self)
  have hblank : dropBlanks (' ' :: (text.toList ++ '\n' :: rest)) = text.toList ++ '\n' :: rest := by
    obtain ⟨c, body, hbody, hc⟩ := hv.head
    rw [hbody]
    exact dropBlanks_cons hc _
  have hend : endLine? ('\n' :: rest) = some rest := rfl
  rw [statement?]
  · rw [hkey]
    simp only [Option.bind_eq_bind, Option.bind_some, expect?, if_true, hblank, hv.value, hend]
    rfl
  · intro _ he
    rw [hname] at he
    exact ne_of_isKeyChar hk rfl (List.cons.inj he).1
  · intro _ he
    rw [hname] at he
    exact ne_of_isKeyChar hk rfl (List.cons.inj he).1

/-- Whether a text is read as statements, whatever is behind it. A line takes one turn of the reader and at least
    one character. -/
structure Writes (text : String) (statements : List Statement) : Prop where
  read : ∀ fuel rest, text.toList.length < fuel → ∃ left, fuel - text.toList.length ≤ left ∧
    statements? fuel (text.toList ++ rest) = (statements? left rest).map (statements ++ ·)
  start : text.toList.head? ≠ some '\uFEFF'

namespace Writes

theorem nothing : Writes "" [] where
  read fuel rest _ := ⟨fuel, Nat.sub_le _ _, by simp [show "".toList = [] from rfl]⟩
  start := by decide

theorem append {text₁ text₂ : String} {ss₁ ss₂ : List Statement} (h₁ : Writes text₁ ss₁) (h₂ : Writes text₂ ss₂) :
    Writes (text₁ ++ text₂) (ss₁ ++ ss₂) where
  read fuel rest hfuel := by
    rw [String.toList_append, List.length_append] at hfuel ⊢
    obtain ⟨left₁, hleft₁, hread₁⟩ := h₁.read fuel (text₂.toList ++ rest) (by omega)
    obtain ⟨left₂, hleft₂, hread₂⟩ := h₂.read left₁ rest (by omega)
    refine ⟨left₂, by omega, ?_⟩
    rw [List.append_assoc, hread₁, hread₂, Option.map_map]
    simp [Function.comp_def]
  start := by
    rw [String.toList_append]
    cases htext : text₁.toList with
    | nil => exact h₂.start
    | cons c cs =>
      have hstart := h₁.start
      rw [htext] at hstart
      exact hstart

/-- Lines one behind the other. -/
theorem join {α : Type} {text : α → String} {statements : α → List Statement} {lines : List α}
    (h : ∀ l ∈ lines, Writes (text l) (statements l)) :
    Writes (String.join (lines.map text)) (lines.flatMap statements) := by
  induction lines with
  | nil => exact nothing
  | cons l lines ih =>
    rw [List.map_cons, String.join_cons, List.flatMap_cons]
    exact (h l List.mem_cons_self).append (ih fun l' hl' => h l' (List.mem_cons_of_mem _ hl'))

theorem blank : Writes "\n" [] where
  read fuel rest hfuel := by
    obtain ⟨fuel, rfl⟩ : ∃ n, fuel = n + 1 := ⟨fuel - 1, by omega⟩
    refine ⟨fuel, Nat.le_refl _, ?_⟩
    show statements? fuel rest = _
    simp
  start := by decide

/-- A line of one statement. -/
theorem line {text : String} {c : Char} {body : List Char} {s : Statement} (htext : text.toList = c :: body)
    (hc : isBlank c = false ∧ c ≠ '#' ∧ c ≠ '\n' ∧ c ≠ '\r' ∧ c ≠ '\uFEFF')
    (hread : ∀ rest, statement? (text.toList ++ rest) = some (s, rest)) : Writes text [s] where
  read fuel rest hfuel := by
    obtain ⟨hblank, hcomment, hfeed, hreturn, -⟩ := hc
    obtain ⟨fuel, rfl⟩ : ∃ n, fuel = n + 1 := ⟨fuel - 1, by omega⟩
    refine ⟨fuel, by rw [htext, List.length_cons]; omega, ?_⟩
    have hstatement := hread rest
    rw [htext, List.cons_append] at hstatement ⊢
    rw [statements?, dropBlanks_cons hblank]
    simp only [hcomment, hfeed, hreturn, decide_false, Bool.or_self, Bool.false_eq_true, if_false,
      hstatement, Option.bind_eq_bind, Option.bind_some]
    cases statements? fuel rest <;> rfl
  start := by
    rw [htext]
    simpa using hc.2.2.2.2

theorem header {name : String} (h : IsBare name) : Writes ("[" ++ name ++ "]\n") [headed name] := by
  have htext : ("[" ++ name ++ "]\n").toList = '[' :: (name.toList ++ [']', '\n']) := by
    simp only [String.toList_append]
    rfl
  refine line htext (by decide) fun rest => ?_
  rw [htext, List.cons_append, List.append_assoc]
  exact statement?_header h rest

theorem pair {name text : String} {v : Toml} (h : IsBare name) (hv : Spells text v) :
    Writes (name ++ " = " ++ text ++ "\n") [paired (name, v)] := by
  obtain ⟨k, ks, hname⟩ := List.exists_cons_of_ne_nil h.1
  have hk : isKeyChar k = true := h.2 k (hname ▸ List.mem_cons_self)
  have htext : (name ++ " = " ++ text ++ "\n").toList =
      name.toList ++ ' ' :: '=' :: ' ' :: (text.toList ++ ['\n']) := by
    simp only [String.toList_append, List.append_assoc]
    rfl
  refine line (htext.trans (by rw [hname]; rfl)) ?_ fun rest => ?_
  · exact ⟨isBlank_of_isKeyChar hk, ne_of_isKeyChar hk rfl, ne_of_isKeyChar hk rfl, ne_of_isKeyChar hk rfl,
      ne_of_isKeyChar hk rfl⟩
  · have hread := statement?_pair h hv rest
    rw [htext]
    simp only [List.append_assoc, List.cons_append, List.nil_append]
    exact hread

/-- A text of statements is the document that they make. -/
theorem read? {text : String} {statements : List Statement} (h : Writes text statements) :
    Toml.read? text = build statements := by
  obtain ⟨left, hleft, hread⟩ := h.read (text.toList.length + 1) [] (by omega)
  obtain ⟨left, rfl⟩ : ∃ n, left = n + 1 := ⟨left - 1, by omega⟩
  rw [List.append_nil, show statements? (left + 1) [] = some [] from rfl, Option.map_some, List.append_nil] at hread
  unfold Toml.read?
  dsimp only
  split
  · next rest he => exact absurd (by rw [he]; rfl) h.start
  · rw [hread]
    rfl

end Writes

/-! What the lines make. -/

section

variable {key : String} {v : Toml} {es : Entries}

theorem lookup?_eq_none (h : key ∉ es.map Prod.fst) : lookup? key es = none := by
  induction es with
  | nil => rfl
  | cons e es ih =>
    rw [List.map_cons, List.mem_cons, not_or] at h
    rw [lookup?, if_neg (Ne.symm h.1), ih h.2]

theorem place_new (h : key ∉ es.map Prod.fst) : place key v es = es ++ [(key, v)] := by
  induction es with
  | nil => rfl
  | cons e es ih =>
    rw [List.map_cons, List.mem_cons, not_or] at h
    rw [place, if_neg (Ne.symm h.1), ih h.2]
    rfl

theorem lookup?_last (h : key ∉ es.map Prod.fst) : lookup? key (es ++ [(key, v)]) = some v := by
  induction es with
  | nil => exact if_pos rfl
  | cons e es ih =>
    rw [List.map_cons, List.mem_cons, not_or] at h
    rw [List.cons_append, lookup?, if_neg (Ne.symm h.1), ih h.2]

theorem place_last (h : key ∉ es.map Prod.fst) (v' : Toml) :
    place key v' (es ++ [(key, v)]) = es ++ [(key, v')] := by
  induction es with
  | nil => exact if_pos rfl
  | cons e es ih =>
    rw [List.map_cons, List.mem_cons, not_or] at h
    rw [List.cons_append, place, if_neg (Ne.symm h.1), ih h.2]
    rfl

/-- A pair goes to the end of the table that was opened last. -/
theorem carryOut_pair {table : String} {inner : Entries} (htable : table ∉ es.map Prod.fst)
    (hkey : key ∉ inner.map Prod.fst) (rest : List Statement) :
    carryOut [table] (es ++ [(table, .table .header inner)]) (paired (key, v) :: rest) =
      carryOut [table] (es ++ [(table, .table .header (inner ++ [(key, v)]))]) rest := by
  have hadd : addPair key v [] inner = some (inner ++ [(key, v)]) := by
    rw [addPair, lookup?_eq_none hkey, place_new hkey]
  have hchange : changeAt (addPair key v []) [table] (es ++ [(table, .table .header inner)]) =
      some (es ++ [(table, .table .header (inner ++ [(key, v)]))]) := by
    rw [changeAt, lookup?_last htable]
    simp only [changeAt, hadd, place_last htable]
    rfl
  rw [paired, carryOut, hchange]
  rfl

theorem carryOut_pairs {table : String} (htable : table ∉ es.map Prod.fst) {pairs inner : Entries}
    (h : ((inner ++ pairs).map Prod.fst).Nodup) (rest : List Statement) :
    carryOut [table] (es ++ [(table, .table .header inner)]) (pairs.map paired ++ rest) =
      carryOut [table] (es ++ [(table, .table .header (inner ++ pairs))]) rest := by
  induction pairs generalizing inner with
  | nil => rw [List.map_nil, List.nil_append, List.append_nil]
  | cons p pairs ih =>
    have hp : p.1 ∉ inner.map Prod.fst := by
      rw [List.map_append, List.nodup_append] at h
      exact fun hmem => h.2.2 _ hmem p.1 (by simp) rfl
    have hnext := @ih (inner ++ [p]) (by simpa using h)
    rw [List.append_assoc, List.singleton_append] at hnext
    rw [List.map_cons, List.cons_append, ← hnext]
    exact carryOut_pair htable hp _

/-- What a document of tables says. -/
def tabled (tables : List (String × Entries)) : List Statement :=
  tables.flatMap fun t => headed t.1 :: t.2.map paired

/-- Headers and pairs of different names make just those tables. -/
theorem carryOut_tables (here : List String) {tables : List (String × Entries)}
    (hnames : (es.map Prod.fst ++ tables.map Prod.fst).Nodup) (hpairs : ∀ t ∈ tables, (t.2.map Prod.fst).Nodup) :
    carryOut here es (tabled tables) = some (es ++ tables.map fun t => (t.1, .table .header t.2)) := by
  induction tables generalizing here es with
  | nil => rw [List.map_nil, List.append_nil]; rfl
  | cons t tables ih =>
    obtain ⟨name, pairs⟩ := t
    have hname : name ∉ es.map Prod.fst := by
      rw [List.nodup_append] at hnames
      exact fun hmem => hnames.2.2 _ hmem name (by simp) rfl
    have hopen : changeAt (openTable name) [] es = some (es ++ [(name, .table .header [])]) := by
      rw [changeAt, openTable, lookup?_eq_none hname, place_new hname]
    have hinner := @carryOut_pairs es name hname pairs [] (hpairs _ List.mem_cons_self) (tabled tables)
    have hrest := @ih (es ++ [(name, .table .header pairs)]) [name] (by simpa using hnames)
      fun t ht => hpairs t (List.mem_cons_of_mem _ ht)
    have hfirst : carryOut here es (tabled ((name, pairs) :: tables)) =
        carryOut [name] (es ++ [(name, .table .header [])]) (pairs.map paired ++ tabled tables) := by
      show (changeAt (openTable name) [] es).bind _ = _
      rw [hopen]
      rfl
    rw [hfirst, hinner, List.nil_append, hrest]
    simp

theorem build_tabled {tables : List (String × Entries)} (hnames : (tables.map Prod.fst).Nodup)
    (hpairs : ∀ t ∈ tables, (t.2.map Prod.fst).Nodup) :
    build (tabled tables) = some (.table .header (tables.map fun t => (t.1, .table .header t.2))) := by
  rw [build, @carryOut_tables [] [] tables hnames hpairs]
  rfl

/-- What is there under the name of an item, if each item that has a value stands under a name of its own. -/
theorem lookup?_filterMap {α : Type} [DecidableEq α] {name : α → String} (hname : ∀ a b, name a = name b → a = b)
    (value : α → Option Toml) (items : List α) (a : α) :
    lookup? (name a) (items.filterMap fun b => (value b).map (name b, ·)) = if a ∈ items then value a else none := by
  induction items with
  | nil => rfl
  | cons b items ih =>
    by_cases hb : b = a
    · subst hb
      cases hv : value b with
      | none => simp [ih, hv]
      | some v => simp [hv, lookup?]
    · have hne : ¬ name b = name a := fun he => hb (hname b a he)
      cases hv : value b with
      | none => simp [ih, hv, Ne.symm hb]
      | some v => simp [ih, hv, lookup?, hne, Ne.symm hb]

theorem names_filterMap_sublist {α β : Type} (name : α → String) (value : α → Option β) (items : List α) :
    ((items.filterMap fun a => (value a).map (name a, ·)).map Prod.fst).Sublist (items.map name) := by
  induction items with
  | nil => exact .slnil
  | cons a items ih =>
    cases hv : value a with
    | none => simpa [hv] using ih.cons (name a)
    | some v => simpa [hv] using ih

end

end KeyChain.Toml
