import KeyChain.Proofs.QuotedText
/-! Numbers and values of TOML documents, each at the end of a line.

   1. `decimalNumber?_toString`: an integer that 64 bits hold is read from the digits that it is written with;
   2. `date?_eq_none`: no such number begins a date or a time;
   3. `Spells`: so a text is read as a value, for integers, truth values and quoted strings. -/
namespace KeyChain.Toml

/-! Numbers. -/

section

variable {ds : List Char} (rest : List Char)

theorem digits_more (h : ∀ d ∈ ds, d.isDigit = true) (read : List Char) :
    digits?.more Char.isDigit read (ds ++ '\n' :: rest) = (read.reverse ++ ds, '\n' :: rest) := by
  induction ds generalizing read with
  | nil =>
    cases rest with
    | nil => simp [digits?.more]
    | cons c rest => simp [digits?.more]
  | cons d ds ih =>
    have hd : d.isDigit = true := h d List.mem_cons_self
    have hnext := ih (fun d' hd' => h d' (List.mem_cons_of_mem _ hd')) (d :: read)
    obtain ⟨c, more, hmore⟩ : ∃ c more, ds ++ '\n' :: rest = c :: more := by
      cases ds with
      | nil => exact ⟨_, _, rfl⟩
      | cons c ds => exact ⟨_, _, rfl⟩
    rw [hmore] at hnext
    rw [List.cons_append, hmore, digits?.more, if_pos hd, hnext]
    simp

theorem digits?_isDigit (hne : ds ≠ []) (h : ∀ d ∈ ds, d.isDigit = true) :
    digits? Char.isDigit (ds ++ '\n' :: rest) = some (ds, '\n' :: rest) := by
  cases ds with
  | nil => exact absurd rfl hne
  | cons d ds =>
    have hd : d.isDigit = true := h d List.mem_cons_self
    rw [List.cons_append, digits?, if_pos hd, digits_more rest fun d' hd' => h d' (List.mem_cons_of_mem _ hd')]
    rfl

/-- Behind some of the digits there is a digit or the end of the line. -/
theorem head_of_fixed? (h : ∀ d ∈ ds, d.isDigit = true) {count n : Nat} {r : List Char}
    (hfixed : fixed? count (ds ++ '\n' :: rest) = some (n, r)) :
    r.head? ≠ some '-' ∧ r.head? ≠ some ':' := by
  unfold fixed? at hfixed
  dsimp only at hfixed
  split at hfixed
  · next hdigits =>
    simp only [Bool.and_eq_true, decide_eq_true_eq, List.all_eq_true] at hdigits
    obtain ⟨-, rfl⟩ := Prod.mk.inj (Option.some.inj hfixed)
    -- The end of the line is no digit, so there are at least as many digits in front of it.
    have hcount : count ≤ ds.length := by
      refine Nat.le_of_not_lt fun hlt => ?_
      have hfeed : '\n' ∈ (ds ++ '\n' :: rest).take count := by
        rw [List.take_append, List.mem_append]
        refine .inr ?_
        rw [show count - ds.length = (count - ds.length - 1) + 1 by omega, List.take_succ_cons]
        exact List.mem_cons_self
      exact absurd (hdigits.2 _ hfeed) (by decide)
    rw [List.drop_append_of_le_length hcount]
    cases hdrop : ds.drop count with
    | nil => exact ⟨by simp, by simp⟩
    | cons d more =>
      have hd : d.isDigit = true := h d (List.mem_of_mem_drop (hdrop ▸ List.mem_cons_self))
      refine ⟨fun he => ?_, fun he => ?_⟩
      · obtain rfl : d = '-' := by simpa using he
        exact absurd hd (by decide)
      · obtain rfl : d = ':' := by simpa using he
        exact absurd hd (by decide)
  · cases hfixed

end

/-- No date or time begins where neither a dash nor a colon follows the digits. -/
theorem date?_eq_none {cs : List Char}
    (h : ∀ count n r, fixed? (count + 1) cs = some (n, r) → r.head? ≠ some '-' ∧ r.head? ≠ some ':') :
    date? cs = none := by
  have htime : time? cs = none := by
    unfold time? hourMinute?
    cases hfixed : fixed? 2 cs with
    | none => rfl
    | some read =>
      obtain ⟨n, r⟩ := read
      have hcolon := (h 1 n r hfixed).2
      have hexpect : expect? ':' r = none := by
        cases r with
        | nil => rfl
        | cons c r => exact if_neg fun he => hcolon (by rw [he]; rfl)
      simp [hexpect]
  unfold date?
  split
  · next n r hfixed => exact absurd rfl (h 3 n _ hfixed).1
  · exact htime

theorem hexValue?_of_isDigit {c : Char} (h : c.isDigit = true) : (Bytes.hexValue? c).getD 0 = c.toNat - '0'.toNat := by
  have hrange : '0' ≤ c ∧ c ≤ '9' := by
    unfold Char.isDigit at h
    rw [Bool.and_eq_true, decide_eq_true_eq, decide_eq_true_eq] at h
    exact h
  rw [Bytes.hexValue?, if_pos hrange]
  rfl

theorem numeral_eq {ds : List Char} (h : ∀ d ∈ ds, d.isDigit = true) :
    numeral 10 ds = Nat.ofDigitChars 10 ds 0 := by
  suffices hfold : ∀ n, ds.foldl (fun n c => 10 * n + (Bytes.hexValue? c).getD 0) n = Nat.ofDigitChars 10 ds n from
    hfold 0
  intro n
  rw [Nat.ofDigitChars_eq_foldl]
  induction ds generalizing n with
  | nil => rfl
  | cons d ds ih =>
    rw [List.foldl_cons, List.foldl_cons, hexValue?_of_isDigit (h d List.mem_cons_self),
      ih fun d' hd' => h d' (List.mem_cons_of_mem _ hd')]

theorem isDigit_toDigits {n : Nat} : ∀ d ∈ Nat.toDigits 10 n, d.isDigit = true := fun _ hd =>
  Nat.isDigit_of_mem_toDigits (by decide) (by decide) hd

theorem numeral_toDigits (n : Nat) : numeral 10 (Nat.toDigits 10 n) = n := by
  rw [numeral_eq isDigit_toDigits, Nat.ofDigitChars_ten_toDigits]

/-- Only the digits of zero begin with a zero. -/
theorem eq_zero_of_head? {n : Nat} (h : (Nat.toDigits 10 n).head? = some '0') : n = 0 := by
  induction n using Nat.strongRecOn with
  | ind n ih =>
    by_cases hn : n < 10
    · rw [Nat.toDigits_of_lt_base hn] at h
      have hzero : ∀ m < 10, m.digitChar = '0' → m = 0 := by decide
      exact hzero n hn (by simpa using h)
    · obtain ⟨d, ds, hds⟩ := List.exists_cons_of_ne_nil (Nat.toDigits_ne_nil : Nat.toDigits 10 (n / 10) ≠ [])
      rw [Nat.toDigits_of_base_le (by decide) (by omega), hds] at h
      have hdiv := ih (n / 10) (by omega) (by rw [hds]; exact h)
      omega

theorem decimal?_toDigits (n : Nat) (rest : List Char) :
    decimal? (Nat.toDigits 10 n ++ '\n' :: rest) = some (Nat.toDigits 10 n, '\n' :: rest) := by
  have hdigits := digits?_isDigit rest (Nat.toDigits_ne_nil : Nat.toDigits 10 n ≠ []) isDigit_toDigits
  have hplain : ¬ ((Nat.toDigits 10 n).head? = some '0' ∧ (Nat.toDigits 10 n).length ≠ 1) := by
    intro h
    rw [eq_zero_of_head? h.1] at h
    exact h.2 rfl
  unfold decimal?
  simp [hdigits, hplain]

/-- Whether 64 bits hold an integer. -/
def InRange (n : Int) : Prop := Int64.minValue.toInt ≤ n ∧ n ≤ Int64.maxValue.toInt

instance (n : Int) : Decidable (InRange n) := inferInstanceAs (Decidable (_ ∧ _))

section

variable {n : Int} {rest : List Char}

theorem toList_toString (n : Int) :
    (toString n).toList = if 0 ≤ n then Nat.toDigits 10 n.toNat else '-' :: Nat.toDigits 10 (-n).toNat := by
  show n.repr.toList = _
  rw [Int.repr_eq_if]
  split
  · rw [Nat.repr_eq_ofList_toDigits, String.toList_ofList]
  · rw [String.toList_append, Nat.repr_eq_ofList_toDigits, String.toList_ofList, String.toList_ofList]
    rfl

/-- The digits of an integer with the sign in front of them. -/
theorem sign_toString (n : Int) (rest : List Char) :
    sign ((toString n).toList ++ '\n' :: rest) = (decide (n < 0), Nat.toDigits 10 n.natAbs ++ '\n' :: rest) := by
  rw [toList_toString]
  split
  · next hn =>
    obtain ⟨d, ds, hds⟩ := List.exists_cons_of_ne_nil (Nat.toDigits_ne_nil : Nat.toDigits 10 n.toNat ≠ [])
    have hd : d.isDigit = true := isDigit_toDigits d (hds ▸ List.mem_cons_self)
    rw [show n.natAbs = n.toNat by omega, hds, List.cons_append, sign]
    · rw [decide_eq_false (by omega)]
    · intro _ he
      rw [(List.cons.inj he).1] at hd
      exact absurd hd (by decide)
    · intro _ he
      rw [(List.cons.inj he).1] at hd
      exact absurd hd (by decide)
  · next hn =>
    rw [show n.natAbs = (-n).toNat by omega, decide_eq_true (by omega : n < 0)]
    rfl

theorem decimalNumber?_toString (h : InRange n) :
    decimalNumber? ((toString n).toList ++ '\n' :: rest) = some (.integer n, '\n' :: rest) := by
  have hvalue : (if decide (n < 0) then -(n.natAbs : Int) else n.natAbs) = n := by
    split
    · next hn => have := of_decide_eq_true hn; omega
    · next hn => have := of_decide_eq_false (Bool.eq_false_iff.2 hn); omega
  have hsigned : signed? (decide (n < 0)) n.natAbs = some (.integer n) := by
    unfold signed?
    simp only [hvalue]
    exact if_pos h
  unfold decimalNumber?
  rw [sign_toString]
  simp [decimal?_toDigits, fraction?, exponent?, numeral_toDigits, hsigned]

/-- What an integer begins with. -/
theorem head_toString (n : Int) :
    ∃ c body, (toString n).toList = c :: body ∧ (c.isDigit = true ∨ c = '-') ∧ ∀ d ∈ body, d.isDigit = true := by
  rw [toList_toString]
  split
  · obtain ⟨d, ds, hds⟩ := List.exists_cons_of_ne_nil (Nat.toDigits_ne_nil : Nat.toDigits 10 n.toNat ≠ [])
    have hdigits := @isDigit_toDigits n.toNat
    rw [hds] at hdigits ⊢
    exact ⟨d, ds, rfl, .inl (hdigits d List.mem_cons_self), fun d' hd' => hdigits d' (List.mem_cons_of_mem _ hd')⟩
  · exact ⟨_, _, rfl, .inr rfl, isDigit_toDigits⟩

end

/-! Values. -/

/-- Whether a text is read as a value, at the end of a line. -/
structure Spells (text : String) (v : Toml) : Prop where
  value : ∀ fuel depth rest, value? (fuel + 1) depth (text.toList ++ '\n' :: rest) = some (v, '\n' :: rest)
  head : ∃ c body, text.toList = c :: body ∧ isBlank c = false

namespace Spells

/-- A number that begins like none of the other values. -/
theorem value?_number {c : Char} {cs : List Char} (hc : c.isDigit = true ∨ c = '-')
    (hdate : date? (c :: cs) = none) (fuel depth : Nat) : value? (fuel + 1) depth (c :: cs) = number? (c :: cs) := by
  have hne : ∀ d, d.isDigit = false → d ≠ '-' → c ≠ d := by
    rintro d hd hdash rfl
    rcases hc with hc | hc
    · rw [hc] at hd
      cases hd
    · exact hdash hc
  have hquote : ¬ (c = '"' || c = '\'') = true := by
    rw [Bool.or_eq_true, decide_eq_true_eq, decide_eq_true_eq]
    rintro (h | h)
    · exact hne _ rfl (by decide) h
    · exact hne _ rfl (by decide) h
  unfold value?
  split
  · next h => cases h
  · next h => exact absurd (List.cons.inj h).1 (hne _ rfl (by decide))
  · next h => exact absurd (List.cons.inj h).1 (hne _ rfl (by decide))
  · next h => exact absurd (List.cons.inj h).1 (hne _ rfl (by decide))
  · next h => exact absurd (List.cons.inj h).1 (hne _ rfl (by decide))
  · next h =>
    obtain ⟨rfl, rfl⟩ := List.cons.inj h
    rw [if_neg hquote, hdate]

theorem number?_toString {n : Int} (h : InRange n) (rest : List Char) :
    number? ((toString n).toList ++ '\n' :: rest) = some (.integer n, '\n' :: rest) := by
  obtain ⟨c, body, hbody, -, hdigits⟩ := head_toString n
  have hdecimal := @decimalNumber?_toString n rest h
  have hsign := sign_toString n rest
  -- The second character is a digit or the end of the line, and no letter that names a base.
  have hsecond : ∀ d more, d.isDigit = false → d ≠ '\n' → (toString n).toList ++ '\n' :: rest ≠ '0' :: d :: more := by
    intro d more hd hfeed he
    rw [hbody] at he
    cases body with
    | nil => exact hfeed (by simpa using (List.cons.inj (List.cons.inj he).2).1.symm)
    | cons d' body =>
      have hd' : d'.isDigit = true := hdigits d' List.mem_cons_self
      rw [(List.cons.inj (List.cons.inj he).2).1, hd] at hd'
      cases hd'
  obtain ⟨d, ds, hds⟩ := List.exists_cons_of_ne_nil (Nat.toDigits_ne_nil : Nat.toDigits 10 n.natAbs ≠ [])
  have hd : d.isDigit = true := isDigit_toDigits d (hds ▸ List.mem_cons_self)
  have hword : ∀ e text, e.isDigit = false →
      dropText? (e :: text) (Nat.toDigits 10 n.natAbs ++ '\n' :: rest) = none := by
    intro e text he
    have hne : (e == d) = false := by
      rw [beq_eq_false_iff_ne]
      rintro rfl
      rw [hd] at he
      cases he
    rw [hds, dropText?, List.cons_append, List.isPrefixOf_cons_cons, hne]
    rfl
  rw [number?]
  · simp only [hsign]
    rw [show "inf".toList = ['i', 'n', 'f'] from rfl, show "nan".toList = ['n', 'a', 'n'] from rfl,
      hword 'i' _ rfl, hword 'n' _ rfl]
    exact hdecimal
  · exact fun more he => hsecond 'x' more rfl (by decide) he
  · exact fun more he => hsecond 'o' more rfl (by decide) he
  · exact fun more he => hsecond 'b' more rfl (by decide) he

theorem date?_toString (n : Int) (rest : List Char) : date? ((toString n).toList ++ '\n' :: rest) = none := by
  refine date?_eq_none fun count m r hfixed => ?_
  rw [toList_toString] at hfixed
  split at hfixed
  · exact head_of_fixed? rest isDigit_toDigits hfixed
  · -- A dash is no digit.
    simp [fixed?] at hfixed

theorem integer {n : Int} (h : InRange n) : Spells (toString n) (.integer n) where
  value fuel depth rest := by
    obtain ⟨c, body, hbody, hc, -⟩ := head_toString n
    have hnumber := number?_toString h rest
    have hdate := date?_toString n rest
    rw [hbody] at hnumber hdate ⊢
    rw [List.cons_append] at hnumber hdate ⊢
    rw [value?_number hc hdate, hnumber]
  head := by
    obtain ⟨c, body, hbody, hc, -⟩ := head_toString n
    refine ⟨c, body, hbody, ?_⟩
    rcases hc with hc | rfl
    · rw [isBlank, Bool.or_eq_false_iff, decide_eq_false_iff_not, decide_eq_false_iff_not]
      constructor
      · rintro rfl
        exact absurd hc (by decide)
      · rintro rfl
        exact absurd hc (by decide)
    · rfl

theorem boolean (b : Bool) : Spells (toString b) (.boolean b) where
  value fuel depth rest := by cases b <;> rfl
  head := by cases b <;> exact ⟨_, _, rfl, rfl⟩

/-- A string begins with a quote of one kind or the other. -/
theorem head_quote (text : String) : ∃ c body, (quote text).toList = c :: body ∧ (c = '"' ∨ c = '\'') := by
  unfold quote
  dsimp only
  rw [String.toList_ofList]
  cases formOf text.toList with
  | basic => exact ⟨_, _, rfl, .inl rfl⟩
  | literal => exact ⟨_, _, rfl, .inr rfl⟩
  | basicLines => exact ⟨_, _, rfl, .inl rfl⟩
  | literalLines => exact ⟨_, _, rfl, .inr rfl⟩

theorem string (text : String) : Spells (quote text) (.string text) where
  value fuel depth rest := by
    obtain ⟨c, body, hbody, hc⟩ := head_quote text
    have hread := string?_quote text rest
    rw [hbody, List.cons_append] at hread ⊢
    rcases hc with rfl | rfl
    · show (string? _).map _ = _
      rw [hread]
      rfl
    · show (string? _).map _ = _
      rw [hread]
      rfl
  head := by
    obtain ⟨c, body, hbody, hc⟩ := head_quote text
    refine ⟨c, body, hbody, ?_⟩
    rcases hc with rfl | rfl <;> rfl

end Spells

end KeyChain.Toml
