import KeyChain.Json
import Mathlib.Data.List.Forall2
/-! Which values are records, and maps from texts to texts. The readers of these take a value apart field by field; here
   is what a value must be for a reader to accept it.

   1. `record?_eq_some_iff`: the values of a record stand in an object, each under its name, or in an array;
   2. `textEntries?_eq_some_iff`: a map from texts to texts is an object of texts. -/
namespace KeyChain.Json

variable {names : List String} {v : Json} {values : List Json} {named : List (String × Json)}

/-- Whether values are those of the fields of a record: they stand in an array, and nothing else does, or in an object
    in which each name stands once. -/
inductive IsRecord (names : List String) : Json → List Json → Prop where
  | array {values : List Json} (h : values.length = names.length) : IsRecord names (.array values) values
  | object {named : List (String × Json)} {values : List Json}
      (h : List.Forall₂ (fun name v => named.filter (fun f => f.1 == name) = [(name, v)]) names values) :
      IsRecord names (.object (named.map fun f => (some f.1, f.2))) values

theorem named?_eq_some_iff : ∀ {fields : List (Option String × Json)} {named : List (String × Json)},
    named? fields = some named ↔ fields = named.map fun f => (some f.1, f.2)
  | [], named => by
    rw [named?, Option.some.injEq, eq_comm (a := []), eq_comm (a := []), List.map_eq_nil_iff]
  | (none, v) :: rest, named => by
    cases named <;> simp [named?]
  | (some name, v) :: rest, named => by
    simp only [named?, Option.bind_eq_bind, Option.bind_eq_some_iff, named?_eq_some_iff, Option.pure_def,
      Option.some.injEq]
    constructor
    · rintro ⟨named, rfl, rfl⟩
      rfl
    · intro h
      cases named with
      | nil => cases h
      | cons f named =>
        cases h
        exact ⟨named, rfl, rfl⟩

theorem once?_eq_some_iff {name : String} :
    once? named name = some v ↔ named.filter (fun f => f.1 == name) = [(name, v)] := by
  unfold once?
  split
  · next name' v' hfilter =>
    have hname : name' = name := by
      have hmem : (name', v') ∈ named.filter fun f => f.1 == name := hfilter ▸ List.mem_cons_self
      exact eq_of_beq (List.mem_filter.1 hmem).2
    rw [hfilter, hname]
    simp
  · next hmany =>
    refine iff_of_false (fun h => by cases h) fun h => hmany _ _ h

theorem mapM_eq_some_iff {α β : Type} {f : α → Option β} : ∀ {l : List α} {l' : List β},
    l.mapM f = some l' ↔ List.Forall₂ (fun a b => f a = some b) l l'
  | [], l' => by simp [eq_comm]
  | a :: l, l' => by
    simp only [List.mapM_cons, Option.bind_eq_bind, Option.bind_eq_some_iff, mapM_eq_some_iff, Option.pure_def,
      Option.some.injEq]
    constructor
    · rintro ⟨b, hb, bs, hbs, rfl⟩
      exact .cons hb hbs
    · intro h
      cases h with
      | cons hb hbs => exact ⟨_, hb, _, hbs, rfl⟩

theorem record?_eq_some_iff : v.record? names = some values ↔ IsRecord names v values := by
  constructor
  · intro h
    unfold record? at h
    split at h
    · next items =>
      split at h
      · next hlength =>
        cases h
        exact .array hlength
      · cases h
    · next fields =>
      obtain ⟨named, hnamed, hvalues⟩ := Option.bind_eq_some_iff.1 h
      rw [named?_eq_some_iff.1 hnamed]
      exact .object ((mapM_eq_some_iff.1 hvalues).imp fun _ _ => once?_eq_some_iff.1)
    · cases h
  · intro h
    cases h with
    | array hlength => rw [record?, if_pos hlength]
    | object hvalues =>
      rw [record?, named?_eq_some_iff.2 rfl]
      exact mapM_eq_some_iff.2 (hvalues.imp fun _ _ => once?_eq_some_iff.2)

theorem textEntry_eq_some_iff {f : String × Json} {entry : String × String} :
    f.2.text?.map (f.1, ·) = some entry ↔ f = (entry.1, .string (some entry.2)) := by
  obtain ⟨name, v⟩ := f
  cases v with
  | string text => cases text <;> simp [text?, Prod.ext_iff]
  | _ => simp [text?]

/-- A map from texts to texts is an object of them. -/
theorem textEntries?_eq_some_iff {entries : List (String × String)} :
    v.textEntries? = some entries ↔ v = .object (entries.map fun entry => (some entry.1, .string (some entry.2))) := by
  have hnamed : ∀ {named : List (String × Json)},
      (named.mapM fun f => f.2.text?.map (f.1, ·)) = some entries ↔
        named = entries.map fun entry => (entry.1, .string (some entry.2)) := by
    intro named
    simp only [mapM_eq_some_iff, textEntry_eq_some_iff]
    rw [← List.forall₂_map_right_iff (R := (· = ·)), List.forall₂_eq_eq_eq]
  have hfields : (entries.map fun entry => (some entry.1, string (some entry.2))) =
      (entries.map fun entry => (entry.1, string (some entry.2))).map fun f : String × Json => (some f.1, f.2) := by
    rw [List.map_map]
    rfl
  constructor
  · intro h
    unfold textEntries? at h
    split at h
    · next fields =>
      obtain ⟨named, hfield, hentries⟩ := Option.bind_eq_some_iff.1 h
      rw [named?_eq_some_iff.1 hfield, hnamed.1 hentries, hfields]
    · cases h
  · rintro rfl
    rw [textEntries?, hfields, named?_eq_some_iff.2 rfl]
    exact hnamed.2 rfl

theorem natural?_eq_some_iff {limit n : Nat} : v.natural? limit = some n ↔ v = .number (some n) ∧ n < limit := by
  unfold natural?
  split
  · next m =>
    split
    · next hlt => simpa using fun h => h ▸ hlt
    · next hge => simpa using fun h => h ▸ Nat.not_lt.1 hge
  · next hother => simpa using fun h => absurd h (hother n)

end KeyChain.Json
