import KeyChain.Toml.Quoted
import KeyChain.Toml.Text
/-! TOML strings that are written are read back, in each of the four forms. A text is spelled between its
   quotes character by character, by itself or by an escape (`Spelled`), and the forms differ in which
   characters may stand for themselves. On one line these are not the quote itself; over several lines
   three quotes in a row would end the string, and any fewer do not.

   1. `basicOnto_spelled`, `manyLinesOnto_spelled`: what is spelled is read to the closing quotes;
   2. `spelled_basic`, `spelled_basicLines`: the escapes spell any text;
   3. `replicate_longestRun`: the longest run of quotes is as long as any, so a text that is written without
      escapes holds no closing quotes;
   4. `string?_quote`: hence a text is read back from the form it was given. -/
namespace KeyChain.Toml

/-! Characters. -/

theorem newline?_of_ne {c : Char} (hfeed : c ≠ '\n') (hreturn : c ≠ '\r') (rest : List Char) :
    newline? (c :: rest) = none := by
  unfold newline?
  split
  · next h => exact absurd (List.cons.inj h).1 hfeed
  · next h => exact absurd (List.cons.inj h).1 hreturn
  · rfl

theorem ne_of_isPlain {c d : Char} (h : isPlain c = true) (hd : isPlain d = false) : c ≠ d := by
  rintro rfl
  rw [h] at hd
  cases hd

/-- A character that needs no escape is plain or ends a line. -/
theorem isPlain_or_feed {c : Char} (h : needsCode c = false) : isPlain c = true ∨ c = '\n' := by
  by_cases hfeed : c = '\n'
  · exact .inr hfeed
  · refine .inl ?_
    by_cases htab : c = '\t'
    · rw [htab]; rfl
    · simp only [needsCode, htab, hfeed, Bool.or_eq_false_iff, Bool.and_eq_false_iff, decide_eq_false_iff_not,
        decide_not, Bool.not_eq_false', decide_eq_true_eq, or_false] at h
      simp only [isPlain, htab, decide_false, Bool.false_or, Bool.and_eq_true, decide_eq_true_eq]
      exact ⟨by omega, h.2⟩

/-! Spelling. -/

/-- What may stand behind a backslash for a character: an escape, which is not taken for the end of a line. -/
structure IsEscape (c : Char) (code : List Char) : Prop where
  read : ∀ rest, escape? (code ++ rest) = some (c, rest)
  stays : ∀ rest, continueLine? (code ++ rest) = none

/-- How a text is spelled: a character stands for itself where `bare` lets it, given what follows it, or is
    written as an escape. -/
inductive Spelled (escapes : Bool) (bare : Char → List Char → Prop) : List Char → List Char → Prop where
  | nil : Spelled escapes bare [] []
  | itself {c : Char} {cs body : List Char} : bare c body → Spelled escapes bare cs body →
      Spelled escapes bare (c :: cs) (c :: body)
  | escape {c : Char} {code cs body : List Char} : escapes = true → IsEscape c code → Spelled escapes bare cs body →
      Spelled escapes bare (c :: cs) ('\\' :: code ++ body)

/-- Without a backslash there is no escape. -/
theorem Spelled.eq_of_notMem {escapes : Bool} {bare : Char → List Char → Prop} {cs body : List Char}
    (h : Spelled escapes bare cs body) (hslash : '\\' ∉ body) : cs = body := by
  induction h with
  | nil => rfl
  | itself _ _ ih => rw [ih fun hmem => hslash (List.mem_cons_of_mem _ hmem)]
  | escape => exact absurd List.mem_cons_self hslash

/-- What stands for itself between double quotes on one line. -/
def BareBasic (c : Char) (_ : List Char) : Prop := isPlain c = true ∧ c ≠ '"' ∧ c ≠ '\\'

/-- What stands for itself over several lines: it does not begin the closing quotes. -/
def BareLines (quote : Char) (escapes : Bool) (c : Char) (body : List Char) : Prop :=
  (isPlain c = true ∨ c = '\n') ∧ (escapes = true → c ≠ '\\') ∧ ¬ [quote, quote, quote] <+: c :: body

/-- A reader that takes as many turns as there are characters comes to the end of what it reads. -/
theorem length_lt_append (body rest : List Char) : body.length < (body ++ rest).length + 1 := by
  rw [List.length_append]
  omega

theorem basicOnto_spelled {cs body : List Char} (h : Spelled true BareBasic cs body) {fuel : Nat}
    (hfuel : body.length < fuel) (read rest : List Char) :
    basicOnto fuel read (body ++ '"' :: rest) = some (String.ofList (read.reverse ++ cs), rest) := by
  induction h generalizing fuel read with
  | nil =>
    obtain ⟨fuel, rfl⟩ : ∃ n, fuel = n + 1 := ⟨fuel - 1, by simp at hfuel; omega⟩
    rw [List.nil_append, List.append_nil, basicOnto]
  | @itself c cs body hbare _ ih =>
    obtain ⟨fuel, rfl⟩ : ∃ n, fuel = n + 1 := ⟨fuel - 1, by simp at hfuel; omega⟩
    obtain ⟨hplain, hquote, hslash⟩ := hbare
    rw [List.cons_append, basicOnto, if_pos hplain, ih (by simpa using hfuel)]
    · simp
    · exact hquote
    · exact hslash
  | @escape c code cs body _ hcode _ ih =>
    obtain ⟨fuel, rfl⟩ : ∃ n, fuel = n + 1 := ⟨fuel - 1, by simp at hfuel; omega⟩
    have hlength : body.length < fuel := by simp at hfuel; omega
    rw [List.cons_append, List.cons_append, List.append_assoc, basicOnto, hcode.read]
    exact (ih hlength (c :: read)).trans (by simp)

/-- Up to three quotes, the first of those that follow one another belong to the string, if it ends there. -/
theorem closing?_cases {quote : Char} {body : List Char} (hfeed : quote ≠ '\n')
    (h : ¬ [quote, quote, quote] <+: body) (rest : List Char) :
    (∃ k, body = List.replicate k quote ∧
      closing? quote (body ++ quote :: quote :: quote :: '\n' :: rest) = some (k, '\n' :: rest)) ∨
    closing? quote (body ++ quote :: quote :: quote :: '\n' :: rest) = none := by
  match body with
  | [] => exact .inl ⟨0, rfl, by simp [closing?, hfeed.symm]⟩
  | [a] =>
    by_cases ha : a = quote
    · subst ha
      exact .inl ⟨1, rfl, by simp [closing?, hfeed.symm]⟩
    · exact .inr (by simp [closing?, ha])
  | [a, b] =>
    by_cases ha : a = quote
    · subst ha
      by_cases hb : b = a
      · subst hb
        exact .inl ⟨2, rfl, by simp [closing?]⟩
      · exact .inr (by simp [closing?, hb])
    · exact .inr (by simp [closing?, ha])
  | a :: b :: c :: _ =>
    by_cases ha : a = quote
    · subst ha
      by_cases hb : b = a
      · subst hb
        have hc : c ≠ b := by
          rintro rfl
          exact h ⟨_, rfl⟩
        exact .inr (by simp [closing?, hc])
      · exact .inr (by simp [closing?, hb])
    · exact .inr (by simp [closing?, ha])

section

variable {quote : Char} {escapes : Bool} {cs body : List Char}

theorem manyLinesOnto_spelled (hquote : isPlain quote = true) (hslash : quote ≠ '\\')
    (h : Spelled escapes (BareLines quote escapes) cs body) {fuel : Nat} (hfuel : body.length < fuel)
    (read rest : List Char) :
    manyLinesOnto quote escapes fuel read (body ++ quote :: quote :: quote :: '\n' :: rest) =
      some (String.ofList (read.reverse ++ cs), '\n' :: rest) := by
  have hfeed : quote ≠ '\n' := ne_of_isPlain hquote rfl
  induction h generalizing fuel read with
  | nil =>
    obtain ⟨fuel, rfl⟩ : ∃ n, fuel = n + 1 := ⟨fuel - 1, by simp at hfuel; omega⟩
    simp [manyLinesOnto, closing?, hfeed.symm]
  | @itself c cs body hbare hrest ih =>
    obtain ⟨fuel, rfl⟩ : ∃ n, fuel = n + 1 := ⟨fuel - 1, by simp at hfuel; omega⟩
    obtain ⟨hplain, hescape, hopen⟩ := hbare
    rcases closing?_cases hfeed hopen rest with ⟨k, hbody, hclosing⟩ | hnone
    · -- Nothing but quotes is left, and they are read together with those that close the string.
      have hcs : cs = body := by
        refine hrest.eq_of_notMem fun hmem => hslash ?_
        have hrun : '\\' ∈ c :: body := List.mem_cons_of_mem _ hmem
        rw [hbody] at hrun
        exact (List.eq_of_mem_replicate hrun).symm
      unfold manyLinesOnto
      rw [hclosing, hcs, hbody]
    · have hnext := ih (by simpa using hfuel : body.length < fuel) (c :: read)
      rw [List.reverse_cons, List.append_assoc, List.singleton_append] at hnext
      unfold manyLinesOnto
      rw [hnone]
      rcases hplain with hplain | rfl
      · have hline := newline?_of_ne (ne_of_isPlain hplain rfl) (ne_of_isPlain hplain rfl)
          (body ++ quote :: quote :: quote :: '\n' :: rest)
        have hcode : (escapes && decide (c = '\\')) = false := by
          cases escapes with
          | false => rfl
          | true => simpa using hescape rfl
        rw [List.cons_append, hline]
        simp only [hcode, Bool.false_eq_true, if_false, hplain, if_true]
        exact hnext
      · exact hnext
  | @escape c code cs body hescapes hcode _ ih =>
    obtain ⟨fuel, rfl⟩ : ∃ n, fuel = n + 1 := ⟨fuel - 1, by simp at hfuel; omega⟩
    have hlength : body.length < fuel := by simp at hfuel; omega
    have hnext := ih hlength (c :: read)
    rw [List.reverse_cons, List.append_assoc, List.singleton_append] at hnext
    have hnone : closing? quote ('\\' :: (code ++ (body ++ quote :: quote :: quote :: '\n' :: rest))) = none := by
      simp [closing?, hslash.symm]
    have hline : newline? ('\\' :: (code ++ (body ++ quote :: quote :: quote :: '\n' :: rest))) = none :=
      newline?_of_ne (by decide) (by decide) _
    rw [List.cons_append, List.cons_append, List.append_assoc, manyLinesOnto, hnone, hline, hescapes]
    simp only [decide_true, Bool.and_self, if_true, hcode.stays, hcode.read]
    rw [← hescapes]
    exact hnext

/-- A string of several lines begins on a line of its own if it has any, and with a character of its text if it
    has none. -/
theorem manyLines?_spelled (hquote : isPlain quote = true) (hslash : quote ≠ '\\')
    (h : Spelled escapes (BareLines quote escapes) cs body) (rest : List Char) :
    manyLines? quote escapes
        ((if cs.contains '\n' then ['\n'] else []) ++ (body ++ quote :: quote :: quote :: '\n' :: rest)) =
      some (String.ofList cs, '\n' :: rest) := by
  have hread := manyLinesOnto_spelled hquote hslash h
    (length_lt_append body (quote :: quote :: quote :: '\n' :: rest)) [] rest
  unfold manyLines?
  split
  · exact hread
  · next hfeed =>
    have hfirst : newline? (body ++ quote :: quote :: quote :: '\n' :: rest) = none := by
      cases h with
      | nil => exact newline?_of_ne (ne_of_isPlain hquote rfl) (ne_of_isPlain hquote rfl) _
      | itself hbare _ =>
        rcases hbare.1 with hplain | rfl
        · exact newline?_of_ne (ne_of_isPlain hplain rfl) (ne_of_isPlain hplain rfl) _
        · exact absurd (by simp) hfeed
      | escape => exact newline?_of_ne (by decide) (by decide) _
    rw [List.nil_append, hfirst]
    exact hread

end

/-! Escapes. -/

theorem codeDigits_read : ∀ n < 0x80,
    ((codeDigits n).mapM Bytes.hexValue?).map (·.foldl (fun n v => 16 * n + v) 0) = some n := by decide

theorem codePoint?_codeDigits {n : Nat} (hn : n < 0x80) (rest : List Char) :
    codePoint? 4 (codeDigits n ++ rest) = some (Char.ofNat n, rest) := by
  have htake : (codeDigits n ++ rest).take 4 = codeDigits n := rfl
  have hdrop : (codeDigits n ++ rest).drop 4 = rest := rfl
  obtain ⟨values, hvalues, hsum⟩ := Option.map_eq_some_iff.1 (codeDigits_read n hn)
  have hvalid : n.isValidChar := .inl (by omega)
  unfold codePoint?
  simp only [htake, hdrop, hvalues, Option.bind_eq_bind, Option.bind_some, hsum, if_pos hvalid]
  rfl

theorem isEscape_code {c : Char} (h : c.toNat < 0x80) : IsEscape c ('u' :: codeDigits c.toNat) where
  read rest := by
    show codePoint? 4 (codeDigits c.toNat ++ rest) = _
    rw [codePoint?_codeDigits h, Char.ofNat_toNat]
  stays _ := rfl

/-- A character between double quotes, other than these themselves. -/
def escapedChar (lines : Bool) (c : Char) : List Char :=
  if c = '\x08' then ['\\', 'b']
  else if c = '\t' then ['\\', 't']
  else if c = '\n' then if lines then [c] else ['\\', 'n']
  else if c = '\x0c' then ['\\', 'f']
  else if c = '\r' then ['\\', 'r']
  else if c = '\\' then ['\\', '\\']
  else if needsCode c then '\\' :: 'u' :: codeDigits c.toNat
  else [c]

theorem escapeChars_quote (lines : Bool) (room run : Nat) (cs : List Char) :
    escapeChars lines room run ('"' :: cs) =
      if run < room then '"' :: escapeChars lines room (run + 1) cs
      else '\\' :: ['"'] ++ escapeChars lines room 0 cs := rfl

theorem escapeChars_other {c : Char} (h : c ≠ '"') (lines : Bool) (room run : Nat) (cs : List Char) :
    escapeChars lines room run (c :: cs) = escapedChar lines c ++ escapeChars lines room 0 cs := by
  rw [escapeChars, if_neg h]
  rfl

/-- A character stands for itself or is written as an escape. -/
theorem escapedChar_cases (lines : Bool) (c : Char) :
    (escapedChar lines c = [c] ∧ c ≠ '\\' ∧ (isPlain c = true ∨ lines = true ∧ c = '\n')) ∨
      ∃ code, escapedChar lines c = '\\' :: code ∧ IsEscape c code := by
  unfold escapedChar
  split
  · next h => subst h; exact .inr ⟨_, rfl, fun _ => rfl, fun _ => rfl⟩
  split
  · next h => subst h; exact .inr ⟨_, rfl, fun _ => rfl, fun _ => rfl⟩
  split
  · next h =>
    cases lines with
    | true => exact .inl ⟨rfl, by rw [h]; decide, .inr ⟨rfl, h⟩⟩
    | false => subst h; exact .inr ⟨_, rfl, fun _ => rfl, fun _ => rfl⟩
  split
  · next h => subst h; exact .inr ⟨_, rfl, fun _ => rfl, fun _ => rfl⟩
  split
  · next h => subst h; exact .inr ⟨_, rfl, fun _ => rfl, fun _ => rfl⟩
  split
  · next h => subst h; exact .inr ⟨_, rfl, fun _ => rfl, fun _ => rfl⟩
  split
  · next h =>
    have hlow : c.toNat < 0x80 := by
      simp only [needsCode, Bool.or_eq_true, Bool.and_eq_true, decide_eq_true_eq] at h
      omega
    exact .inr ⟨_, rfl, isEscape_code hlow⟩
  · next hfeed _ _ hslash hcode =>
    refine .inl ⟨rfl, hslash, .inl ?_⟩
    exact (isPlain_or_feed (Bool.eq_false_iff.2 hcode)).resolve_right hfeed

theorem isEscape_quote : IsEscape '"' ['"'] := ⟨fun _ => rfl, fun _ => rfl⟩

/-- On one line every quote is an escape. -/
theorem spelled_basic (cs : List Char) : Spelled true BareBasic cs (escapeChars false 0 0 cs) := by
  induction cs with
  | nil => exact .nil
  | cons c cs ih =>
    by_cases hquote : c = '"'
    · rw [hquote, escapeChars_quote, if_neg (Nat.lt_irrefl 0)]
      exact .escape rfl isEscape_quote ih
    · rw [escapeChars_other hquote]
      rcases escapedChar_cases false c with ⟨hself, hslash, hplain⟩ | ⟨code, hcode, hescape⟩
      · rw [hself]
        exact .itself ⟨by simpa using hplain, hquote, hslash⟩ ih
      · rw [hcode]
        exact .escape rfl hescape ih

/-- Over several lines a quote that would be the third in a row is an escape, so behind `run` quotes there are
    never so many that they add up to three. -/
theorem spelled_basicLines (cs : List Char) {run : Nat} (hrun : run ≤ 2) :
    Spelled true (BareLines '"' true) cs (escapeChars true 2 run cs) ∧
      ¬ List.replicate (3 - run) '"' <+: escapeChars true 2 run cs := by
  induction cs generalizing run with
  | nil =>
    refine ⟨.nil, fun h => ?_⟩
    have hlength := h.length_le
    simp [escapeChars] at hlength
    omega
  | cons c cs ih =>
    have hsucc : List.replicate (3 - run) '"' = '"' :: List.replicate (2 - run) '"' := by
      rw [show 3 - run = (2 - run) + 1 by omega, List.replicate_succ]
    by_cases hquote : c = '"'
    · rw [hquote, escapeChars_quote]
      split
      · next hroom =>
        obtain ⟨hspelled, hfew⟩ := @ih (run + 1) (by omega)
        rw [show 3 - (run + 1) = 2 - run by omega] at hfew
        have hopen : ¬ List.replicate (3 - run) '"' <+: '"' :: escapeChars true 2 (run + 1) cs := by
          rw [hsucc, List.cons_prefix_cons]
          exact fun h => hfew h.2
        refine ⟨.itself ⟨.inl rfl, fun _ => by decide, fun h => hopen ?_⟩ hspelled, hopen⟩
        have hthree : List.replicate (3 - run) '"' <+: ['"', '"', '"'] :=
          ⟨List.replicate run '"', by rw [List.replicate_append_replicate, show 3 - run + run = 3 by omega]; rfl⟩
        exact hthree.trans h
      · refine ⟨.escape rfl isEscape_quote (ih (by omega)).1, ?_⟩
        rw [hsucc, List.cons_append, List.cons_prefix_cons]
        exact fun h => absurd h.1 (by decide)
    · have hspelled := (@ih 0 (by omega)).1
      rw [escapeChars_other hquote]
      rcases escapedChar_cases true c with ⟨hself, hslash, hplain⟩ | ⟨code, hcode, hescape⟩
      · have hother : ¬ '"' = c := fun h => hquote h.symm
        rw [hself, List.singleton_append]
        refine ⟨.itself ⟨by simpa using hplain, fun _ => hslash, fun h => ?_⟩ hspelled, ?_⟩
        · exact hother (List.cons_prefix_cons.1 h).1
        · rw [hsucc, List.cons_prefix_cons]
          exact fun h => hother h.1
      · rw [hcode]
        refine ⟨.escape rfl hescape hspelled, ?_⟩
        rw [hsucc, List.cons_append, List.cons_prefix_cons]
        exact fun h => absurd h.1 (by decide)

/-! Runs of a character. -/

/-- The length of the run that a character ends, and the longest so far. -/
def runStep (c : Char) (s : Nat × Nat) (d : Char) : Nat × Nat :=
  let run := if d = c then s.1 + 1 else 0
  (run, Nat.max run s.2)

theorem runStep_bounded {c : Char} {s : Nat × Nat} (h : s.1 ≤ s.2) (cs : List Char) :
    s.2 ≤ (cs.foldl (runStep c) s).2 ∧ (cs.foldl (runStep c) s).1 ≤ (cs.foldl (runStep c) s).2 := by
  induction cs generalizing s with
  | nil => exact ⟨Nat.le_refl _, h⟩
  | cons d cs ih =>
    obtain ⟨hlongest, hrun⟩ := ih (s := runStep c s d) (Nat.le_max_left _ _)
    exact ⟨Nat.le_trans (Nat.le_max_right _ _) hlongest, hrun⟩

theorem runStep_replicate {c : Char} {s : Nat × Nat} (h : s.1 ≤ s.2) (k : Nat) :
    s.1 + k ≤ ((List.replicate k c).foldl (runStep c) s).2 := by
  induction k generalizing s with
  | zero => exact h
  | succ k ih =>
    have hstep := ih (s := runStep c s c) (Nat.le_max_left _ _)
    have hrun : (runStep c s c).1 = s.1 + 1 := if_pos rfl
    rw [hrun] at hstep
    rw [List.replicate_succ, List.foldl_cons]
    omega

/-- No run is longer than the longest. -/
theorem replicate_longestRun {c : Char} {cs : List Char} {k : Nat} (h : List.replicate k c <:+: cs) :
    k ≤ longestRun c cs := by
  obtain ⟨before, after, rfl⟩ := h
  show k ≤ ((before ++ List.replicate k c ++ after).foldl (runStep c) (0, 0)).2
  rw [List.foldl_append, List.foldl_append]
  obtain ⟨-, hbefore⟩ := runStep_bounded (c := c) (s := (0, 0)) (Nat.le_refl 0) before
  have hrun := runStep_replicate (c := c) hbefore k
  obtain ⟨hafter, -⟩ := runStep_bounded (c := c) (runStep_bounded (c := c) hbefore (List.replicate k c)).2 after
  omega

theorem spelled_literalLines {cs : List Char} (hplain : ∀ c ∈ cs, isPlain c = true ∨ c = '\n')
    (hclosed : ¬ ['\'', '\'', '\''] <:+: cs) : Spelled false (BareLines '\'' false) cs cs := by
  induction cs with
  | nil => exact .nil
  | cons c cs ih =>
    refine .itself ⟨hplain c List.mem_cons_self, nofun, fun h => hclosed h.isInfix⟩ ?_
    exact ih (fun d hd => hplain d (List.mem_cons_of_mem _ hd)) fun h => hclosed (List.infix_cons h)

/-! The four forms. -/

theorem literal?_plain {cs : List Char} (h : ∀ c ∈ cs, c ≠ '\'' ∧ isPlain c = true) (rest : List Char) :
    literal? (cs ++ '\'' :: rest) = some (String.ofList cs, rest) := by
  have htake : (cs ++ '\'' :: rest).takeWhile (fun c => c ≠ '\'' && isPlain c) = cs := by
    rw [List.takeWhile_append_of_pos fun c hc => by simpa using h c hc]
    simp
  unfold literal?
  simp only [htake, List.drop_left]
  rfl

theorem literal_of_formOf {cs : List Char} (h : formOf cs = .literal) :
    ∀ c ∈ cs, c ≠ '\'' ∧ isPlain c = true := by
  obtain ⟨hcodes, hsingle, hfeed⟩ :
      cs.any needsCode = false ∧ longestRun '\'' cs = 0 ∧ cs.contains '\n' = false := by grind [formOf]
  rw [List.any_eq_false] at hcodes
  intro c hc
  refine ⟨fun hquote => ?_, ?_⟩
  · obtain ⟨before, after, rfl⟩ := List.append_of_mem hc
    have hrun := @replicate_longestRun '\'' (before ++ c :: after) 1 ⟨before, after, by simp [hquote]⟩
    omega
  · refine (isPlain_or_feed (Bool.eq_false_iff.2 (hcodes c hc))).resolve_right fun hc' => ?_
    rw [hc'] at hc
    simp [hc] at hfeed

theorem literalLines_of_formOf {cs : List Char} (h : formOf cs = .literalLines) :
    (∀ c ∈ cs, isPlain c = true ∨ c = '\n') ∧ ¬ ['\'', '\'', '\''] <:+: cs := by
  obtain ⟨hcodes, hsingle⟩ : cs.any needsCode = false ∧ longestRun '\'' cs ≤ 2 := by
    grind [formOf]
  rw [List.any_eq_false] at hcodes
  refine ⟨fun c hc => isPlain_or_feed (Bool.eq_false_iff.2 (hcodes c hc)), fun hrun => ?_⟩
  have hthree := @replicate_longestRun '\'' cs 3 hrun
  omega

/-- A text is read back from the string that it is written as, at the end of a line. -/
theorem string?_quote (text : String) (rest : List Char) :
    string? ((quote text).toList ++ '\n' :: rest) = some (text, '\n' :: rest) := by
  unfold quote
  generalize hcs : text.toList = cs
  have htext : text = String.ofList cs := by rw [← hcs, String.ofList_toList]
  subst htext
  dsimp only
  rw [String.toList_ofList]
  cases hform : formOf cs with
  | basic =>
    have hspelled := spelled_basic cs
    have hread := basicOnto_spelled hspelled (length_lt_append _ ('"' :: '\n' :: rest)) [] ('\n' :: rest)
    simp only [List.cons_append, List.append_assoc, List.nil_append]
    -- The string does not begin with three quotes: an empty one is followed by the end of the line.
    generalize escapeChars false 0 0 cs = body at hspelled hread ⊢
    cases hspelled with
    | nil => exact hread
    | @itself c cs body hbare _ =>
      rw [string?]
      · exact hread
      · intro more he
        simp only [List.cons_append, List.cons.injEq] at he
        exact hbare.2.1 he.1
    | escape => exact hread
  | literal =>
    have hplain := literal_of_formOf hform
    have hread := literal?_plain hplain ('\n' :: rest)
    simp only [List.cons_append, List.append_assoc, List.nil_append]
    cases cs with
    | nil => exact hread
    | cons c cs =>
      rw [string?]
      · exact hread
      · intro more he
        simp only [List.cons_append, List.cons.injEq] at he
        exact (hplain c List.mem_cons_self).1 he.1
  | basicLines =>
    have hread := manyLines?_spelled (by decide) (by decide) (spelled_basicLines cs (Nat.zero_le 2)).1 rest
    simp only [List.cons_append, List.append_assoc, List.nil_append]
    exact hread
  | literalLines =>
    obtain ⟨hplain, hclosed⟩ := literalLines_of_formOf hform
    have hread := manyLines?_spelled (by decide) (by decide) (spelled_literalLines hplain hclosed) rest
    simp only [List.cons_append, List.append_assoc, List.nil_append]
    exact hread

end KeyChain.Toml
