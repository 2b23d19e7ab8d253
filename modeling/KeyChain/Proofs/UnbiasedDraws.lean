import KeyChain.Decoy
import Mathlib.Data.Set.Card
import Mathlib.Order.Interval.Finset.Nat
/-! Draws without bias. A word selects the high half of its product with the range, unless the low half shows that it
   is to be drawn again. The products that select one number lie in a window whose length is the range shifted up as
   far as 32 bits hold it, so the words that select it are as many as the shift multiplies by, wherever the window
   begins; that is where the numbers below the range become equally likely.

   1. `toNat_zone`, `select?_eq`: what a draw does, in numbers that do not overflow;
   2. `select?_eq_some_iff`, `between_iff`: the words that select a number stand next to each other, from
      `firstWord` on;
   3. `ncard_select?`: how many they are;
   4. `wordBelow?_of_endsAt`, `exists_endsAt`: a draw takes words up to the first one that selects;
   5. `DecoyRange.counts_unbiased`: which bounds are accepted, and the number of decoys that is picked between them. -/
namespace KeyChain

namespace RandomSource

variable {range word : UInt32}

/-! One word. -/

/-- The number of zero bits before the first one. -/
def leadingZeros (range : UInt32) : Nat := range.toBitVec.clz.toNat

/-- How many words select each number below a range. -/
def share (range : UInt32) : Nat := 2 ^ leadingZeros range

theorem share_pos (range : UInt32) : 0 < share range := Nat.two_pow_pos _

theorem leadingZeros_eq (h : 0 < range) : leadingZeros range = 31 - range.toNat.log2 := by
  have hpos : range.toNat ≠ 0 := Nat.ne_of_gt (UInt32.lt_iff_toNat_lt.1 h)
  have hne : range.toBitVec ≠ 0#32 := fun he => hpos (congrArg BitVec.toNat he)
  have hlow : 2 ^ (32 - 1 - leadingZeros range) ≤ range.toNat :=
    BitVec.two_pow_sub_clz_le_toNat_of_ne_zero (by decide) hne
  have hhigh : range.toNat < 2 ^ (32 - leadingZeros range) := BitVec.toNat_lt_two_pow_sub_clz
  have hle : leadingZeros range < 32 := BitVec.lt_def.1 (BitVec.clz_lt_iff_ne_zero.2 hne)
  have hlog : range.toNat.log2 = 32 - 1 - leadingZeros range := by
    refine (Nat.log2_eq_iff hpos).2 ⟨hlow, ?_⟩
    rwa [show 32 - 1 - leadingZeros range + 1 = 32 - leadingZeros range by omega]
  omega

/-- The range shifted up stays below 2 ^ 32. -/
theorem mul_share_lt (range : UInt32) : range.toNat * share range < 2 ^ 32 := by
  have hhigh : range.toNat < 2 ^ (32 - leadingZeros range) := BitVec.toNat_lt_two_pow_sub_clz
  have hle : leadingZeros range ≤ 32 := BitVec.le_def.1 BitVec.clz_le
  calc range.toNat * share range
      < 2 ^ (32 - leadingZeros range) * 2 ^ leadingZeros range :=
        Nat.mul_lt_mul_of_pos_right hhigh (share_pos range)
    _ = 2 ^ 32 := by rw [← Nat.pow_add, Nat.sub_add_cancel hle]

theorem toNat_zone (h : 0 < range) : (zone range).toNat + 1 = range.toNat * share range := by
  have hpos : 0 < range.toNat := UInt32.lt_iff_toNat_lt.1 h
  have hshift : (UInt32.ofNat (31 - range.toNat.log2)).toNat = leadingZeros range := by
    rw [leadingZeros_eq h, UInt32.toNat_ofNat_of_lt' (show 31 - range.toNat.log2 < 2 ^ 32 by omega)]
  have hlt : leadingZeros range < 32 := by rw [leadingZeros_eq h]; omega
  have hshifted : (range <<< UInt32.ofNat (31 - range.toNat.log2)).toNat = range.toNat * share range := by
    rw [UInt32.toNat_shiftLeft, hshift, Nat.mod_eq_of_lt hlt, Nat.shiftLeft_eq]
    exact Nat.mod_eq_of_lt (mul_share_lt range)
  have hone : 1 ≤ range.toNat * share range := Nat.mul_pos hpos (share_pos range)
  rw [zone, UInt32.toNat_sub_of_le _ _ (UInt32.le_iff_toNat_le.2 (by rw [hshifted]; exact hone)), hshifted]
  exact Nat.sub_add_cancel hone

/-- The product of a word and a range is their product as numbers. -/
theorem toNat_product (word range : UInt32) :
    (word.toUInt64 * range.toUInt64).toNat = word.toNat * range.toNat := by
  have hlt : word.toNat * range.toNat < 2 ^ 64 :=
    calc word.toNat * range.toNat ≤ word.toNat * 2 ^ 32 := Nat.mul_le_mul_left _ (Nat.le_of_lt range.toNat_lt)
      _ < 2 ^ 32 * 2 ^ 32 := Nat.mul_lt_mul_of_pos_right word.toNat_lt (by decide)
      _ = 2 ^ 64 := by decide
  rw [UInt64.toNat_mul, UInt32.toNat_toUInt64, UInt32.toNat_toUInt64, Nat.mod_eq_of_lt hlt]

theorem select?_eq (range word : UInt32) : select? range word =
    if word.toNat * range.toNat % 2 ^ 32 ≤ (zone range).toNat
    then some (UInt32.ofNat (word.toNat * range.toNat / 2 ^ 32)) else none := by
  have hproduct := toNat_product word range
  have hlow : (word.toUInt64 * range.toUInt64).toUInt32.toNat = word.toNat * range.toNat % 2 ^ 32 := by
    rw [UInt64.toNat_toUInt32, hproduct]
  have hhigh : ((word.toUInt64 * range.toUInt64) >>> 32).toUInt32 =
      UInt32.ofNat (word.toNat * range.toNat / 2 ^ 32) := by
    apply UInt32.toNat_inj.1
    rw [UInt64.toNat_toUInt32, UInt64.toNat_shiftRight, hproduct, UInt32.toNat_ofNat', Nat.shiftRight_eq_div_pow]
    rfl
  unfold select?
  dsimp only
  rw [hhigh]
  simp only [UInt32.le_iff_toNat_le, hlow]

/-- The high half of a product is below the range. -/
theorem high_lt (h : 0 < range) (word : UInt32) : word.toNat * range.toNat / 2 ^ 32 < range.toNat := by
  have hpos : 0 < range.toNat := UInt32.lt_iff_toNat_lt.1 h
  apply Nat.div_lt_of_lt_mul
  exact Nat.mul_lt_mul_of_pos_right word.toNat_lt hpos

/-! The words that select a number. -/

/-- The products that select a number follow each other. -/
theorem select?_eq_some_iff (h : 0 < range) {c : UInt32} : select? range word = some c ↔
    c.toNat * 2 ^ 32 ≤ word.toNat * range.toNat ∧
      word.toNat * range.toNat < c.toNat * 2 ^ 32 + range.toNat * share range := by
  have hzone := toNat_zone h
  have hshare := mul_share_lt range
  have hhigh := high_lt h word
  have hrange := range.toNat_lt
  have hc := c.toNat_lt
  rw [select?_eq]
  generalize word.toNat * range.toNat = product at hhigh ⊢
  generalize range.toNat * share range = window at hzone hshare ⊢
  have hsame : UInt32.ofNat (product / 2 ^ 32) = c ↔ product / 2 ^ 32 = c.toNat := by
    rw [← UInt32.toNat_inj, UInt32.toNat_ofNat_of_lt' (show product / 2 ^ 32 < 2 ^ 32 by omega)]
  split
  · rw [Option.some.injEq, hsame]
    omega
  · simp only [reduceCtorEq, false_iff]
    omega

/-- The first word whose product with a range reaches a number. -/
def firstWord (range x : Nat) : Nat := (x + range - 1) / range

theorem firstWord_le_iff {range x v : Nat} (h : 0 < range) : firstWord range x ≤ v ↔ x ≤ v * range := by
  rw [firstWord, Nat.div_le_iff_le_mul_add_pred h, Nat.mul_comm]
  omega

/-- A window whose length is a multiple of the range holds as many products as the multiple, wherever it begins. -/
theorem between_iff {range x n v : Nat} (h : 0 < range) :
    (x ≤ v * range ∧ v * range < x + range * n) ↔ firstWord range x ≤ v ∧ v < firstWord range x + n := by
  rw [firstWord_le_iff h]
  refine and_congr_right fun _ => ?_
  rcases Nat.lt_or_ge v n with hlt | hge
  · have hproduct : v * range < range * n := by
      rw [Nat.mul_comm range n]
      exact Nat.mul_lt_mul_of_pos_right hlt h
    omega
  · obtain ⟨w, rfl⟩ := Nat.exists_eq_add_of_le hge
    have hsplit : (n + w) * range = range * n + w * range := by rw [Nat.add_mul, Nat.mul_comm n range]
    have hfirst := @firstWord_le_iff range x w h
    omega

theorem ncard_between {a n : Nat} (h : a + n ≤ 2 ^ 32) :
    {word : UInt32 | a ≤ word.toNat ∧ word.toNat < a + n}.ncard = n := by
  have himage : UInt32.toNat '' {word : UInt32 | a ≤ word.toNat ∧ word.toNat < a + n} =
      (Finset.Ico a (a + n) : Set Nat) := by
    ext v
    simp only [Set.mem_image, Set.mem_ofPred_eq, Finset.coe_Ico, Set.mem_Ico]
    constructor
    · rintro ⟨word, hword, rfl⟩
      exact hword
    · intro hv
      have hword : (UInt32.ofNat v).toNat = v := UInt32.toNat_ofNat_of_lt' (show v < 2 ^ 32 by omega)
      exact ⟨UInt32.ofNat v, by rwa [hword], hword⟩
  have hinjective : Function.Injective UInt32.toNat := fun _ _ => UInt32.toNat_inj.1
  rw [← Set.ncard_image_of_injective _ hinjective, himage, Set.ncard_coe_finset, Nat.card_Ico, Nat.add_sub_cancel_left]

/-- Each number below a range is selected by the same number of words. -/
theorem ncard_select? {c : UInt32} (h : c < range) : {word | select? range word = some c}.ncard = share range := by
  have hc : c.toNat < range.toNat := UInt32.lt_iff_toNat_lt.1 h
  have hpos : 0 < range.toNat := Nat.zero_lt_of_lt hc
  have hshare := mul_share_lt range
  have hiff : ∀ v : Nat, (c.toNat * 2 ^ 32 ≤ v * range.toNat ∧
      v * range.toNat < c.toNat * 2 ^ 32 + range.toNat * share range) ↔ _ := fun v => between_iff hpos
  -- The last word of the window is a word: its product is below that of 2 ^ 32.
  have hlast : firstWord range.toNat (c.toNat * 2 ^ 32) + share range ≤ 2 ^ 32 := by
    have hn := share_pos range
    obtain ⟨-, hlt⟩ := (hiff (firstWord range.toNat (c.toNat * 2 ^ 32) + share range - 1)).2 ⟨by omega, by omega⟩
    have hbound : c.toNat * 2 ^ 32 + range.toNat * share range < 2 ^ 32 * range.toNat := by omega
    have := Nat.lt_of_mul_lt_mul_right (Nat.lt_trans hlt hbound)
    omega
  rw [← ncard_between hlast]
  congr 1
  ext word
  exact (select?_eq_some_iff (UInt32.lt_iff_toNat_lt.2 hpos)).trans (hiff word.toNat)

/-! Words until one selects. -/

variable {s : RandomSource} {n : Nat}

/-- The source behind some words. -/
def skipWords (s : RandomSource) (n : Nat) : RandomSource := { s with position := s.position + 4 * n }

/-- The word that comes behind some others. -/
def wordAt (s : RandomSource) (n : Nat) : UInt32 :=
  UInt32.ofNat (Bytes.toNatLE ((s.skipWords n).draw 4).1.bytes)

/-- Whether a draw ends at a word: it selects a number, and the words before it are to be drawn again. -/
structure EndsAt (range : UInt32) (s : RandomSource) (n : Nat) : Prop where
  selects : (select? range (s.wordAt n)).isSome
  redrawn : ∀ i < n, select? range (s.wordAt i) = none

theorem wordAt_skipWords (s : RandomSource) (k n : Nat) : (s.skipWords k).wordAt n = s.wordAt (k + n) := by
  have hskip : (s.skipWords k).skipWords n = s.skipWords (k + n) := by
    unfold skipWords
    rw [Nat.mul_add, Nat.add_assoc]
  rw [wordAt, wordAt, hskip]

/-- A draw takes one word, and if that selects nothing it begins again behind it. -/
theorem wordBelow?_step (range : UInt32) (s : RandomSource) : wordBelow? range s =
    match select? range (s.wordAt 0) with
    | some word => some (word, s.skipWords 1)
    | none => wordBelow? range (s.skipWords 1) := by
  rw [wordBelow?]
  rfl

theorem EndsAt.skip (h : EndsAt range s (n + 1)) : EndsAt range (s.skipWords 1) n := by
  refine ⟨?_, fun i hi => ?_⟩
  · rw [wordAt_skipWords, Nat.add_comm]
    exact h.selects
  · rw [wordAt_skipWords, Nat.add_comm]
    exact h.redrawn (i + 1) (Nat.succ_lt_succ hi)

theorem EndsAt.before (hfirst : select? range (s.wordAt 0) = none) (h : EndsAt range (s.skipWords 1) n) :
    EndsAt range s (n + 1) := by
  refine ⟨?_, fun i hi => ?_⟩
  · have := h.selects
    rwa [wordAt_skipWords, Nat.add_comm] at this
  · cases i with
    | zero => exact hfirst
    | succ i =>
      have := h.redrawn i (Nat.lt_of_succ_lt_succ hi)
      rwa [wordAt_skipWords, Nat.add_comm] at this

/-- What a draw gives is what the first word selects that selects anything, and no byte behind it is touched. -/
theorem wordBelow?_of_endsAt (h : EndsAt range s n) :
    wordBelow? range s = (select? range (s.wordAt n)).map fun word => (word, s.skipWords (n + 1)) := by
  induction n generalizing s with
  | zero =>
    obtain ⟨word, hword⟩ := Option.isSome_iff_exists.1 h.selects
    rw [wordBelow?_step, hword]
    rfl
  | succ n ih =>
    have hskip : (s.skipWords 1).skipWords (n + 1) = s.skipWords (n + 1 + 1) := by
      unfold skipWords
      rw [Nat.add_assoc, ← Nat.mul_add, Nat.add_comm 1]
    rw [wordBelow?_step, h.redrawn 0 n.succ_pos]
    dsimp only
    rw [ih h.skip, wordAt_skipWords, hskip, Nat.add_comm 1]

/-- A draw that gives a number ended at a word. -/
theorem exists_endsAt {drawn : UInt32 × RandomSource} (h : wordBelow? range s = some drawn) : ∃ n, EndsAt range s n := by
  refine wordBelow?.partial_correctness range (fun s _ => ∃ n, EndsAt range s n) ?_ s drawn h
  intro again hagain s drawn hstep
  cases hfirst : select? range (s.wordAt 0) with
  | some word => exact ⟨0, by rw [hfirst]; rfl, fun i hi => absurd hi (Nat.not_lt_zero i)⟩
  | none =>
    have hrest : again (s.skipWords 1) = some drawn := by
      have hstep : (match select? range (s.wordAt 0) with
        | some word => some (word, s.skipWords 1)
        | none => again (s.skipWords 1)) = some drawn := hstep
      rwa [hfirst] at hstep
    obtain ⟨n, hn⟩ := hagain _ _ hrest
    exact ⟨n + 1, hn.before hfirst⟩

/-- Without a word that selects a draw gives nothing. -/
theorem wordBelow?_eq_none_iff : wordBelow? range s = none ↔ ∀ n, select? range (s.wordAt n) = none := by
  constructor
  · intro hnone n
    induction n using Nat.strong_induction_on with
    | _ n ih =>
      by_contra hsome
      have hends : EndsAt range s n := ⟨Option.isSome_iff_ne_none.2 hsome, ih⟩
      rw [wordBelow?_of_endsAt hends, Option.map_eq_none_iff] at hnone
      exact hsome hnone
  · intro hall
    cases hdrawn : wordBelow? range s with
    | none => rfl
    | some drawn =>
      obtain ⟨n, hn⟩ := exists_endsAt hdrawn
      have := hn.selects
      rw [hall n] at this
      cases this

end RandomSource

namespace DecoyRange

open RandomSource

variable {min max : Int} {r : DecoyRange}

/-! Bounds. -/

theorem bound_eq (which : Bound) (value : Int) :
    (∃ w : UInt32, bound which value = .ok w ∧ (w.toNat : Int) = value) ∧ 0 < value ∧ value ≤ 4294967295 ∨
      bound which value = .error (.usage (.bound which value)) ∧ ¬ (0 < value ∧ value ≤ 4294967295) := by
  unfold bound
  by_cases h : 0 < value ∧ value < UInt32.size
  · have hsize : value < 4294967296 := h.2
    refine .inl ⟨⟨_, if_pos h, ?_⟩, h.1, by omega⟩
    rw [UInt32.toNat_ofNat_of_lt' (show value.toNat < 2 ^ 32 by omega)]
    omega
  · refine .inr ⟨if_neg h, fun h' => h ⟨h'.1, ?_⟩⟩
    exact Int.lt_of_le_of_lt h'.2 (by decide)

theorem bounds (r : DecoyRange) :
    1 ≤ (r.min.toNat : Int) ∧ (r.min.toNat : Int) < r.max.toNat ∧ (r.max.toNat : Int) ≤ 4294967295 := by
  have hpositive : 0 < r.min.toNat := UInt32.lt_iff_toNat_lt.1 r.positive
  have hordered := UInt32.lt_iff_toNat_lt.1 r.ordered
  have hsize := r.max.toNat_lt
  omega

theorem ofBounds_cases (min max : Int) :
    (∃ r, ofBounds min max = .ok r ∧ (r.min.toNat : Int) = min ∧ (r.max.toNat : Int) = max) ∧
        (1 ≤ min ∧ min < max ∧ max ≤ 4294967295) ∨
      (∃ fault, ofBounds min max = .error (.usage fault)) ∧ ¬ (1 ≤ min ∧ min < max ∧ max ≤ 4294967295) := by
  unfold ofBounds
  rcases bound_eq .lower min with ⟨⟨w, hw, rfl⟩, hlow⟩ | ⟨hw, hlow⟩
  · rw [hw]
    rcases bound_eq .upper max with ⟨⟨w', hw', rfl⟩, hhigh⟩ | ⟨hw', hhigh⟩
    · rw [hw']
      by_cases hordered : 0 < w ∧ w < w'
      · exact .inl ⟨⟨⟨w, w', hordered.1, hordered.2⟩, dif_pos hordered, rfl, rfl⟩, bounds ⟨w, w', hordered.1, hordered.2⟩⟩
      · refine .inr ⟨⟨_, dif_neg hordered⟩, fun h => hordered ⟨?_, ?_⟩⟩
        · exact UInt32.lt_iff_toNat_lt.2 (by have := h.1; simp; omega)
        · exact UInt32.lt_iff_toNat_lt.2 (by have := h.2.1; omega)
    · rw [hw']
      exact .inr ⟨⟨_, rfl⟩, fun h => hhigh ⟨by omega, h.2.2⟩⟩
  · rw [hw]
    exact .inr ⟨⟨_, rfl⟩, fun h => hlow ⟨by omega, by omega⟩⟩

theorem exists_ofBounds_iff :
    ((∃ r, ofBounds min max = .ok r) ↔ 1 ≤ min ∧ min < max ∧ max ≤ 4294967295) ∧
      ((∃ fault, ofBounds min max = .error (.usage fault)) ↔ ¬ (1 ≤ min ∧ min < max ∧ max ≤ 4294967295)) := by
  rcases ofBounds_cases min max with ⟨⟨r, hok, -⟩, hbounds⟩ | ⟨⟨fault, herror⟩, hbounds⟩
  · rw [hok]
    exact ⟨iff_of_true ⟨r, rfl⟩ hbounds, iff_of_false (fun ⟨_, h⟩ => by cases h) (not_not_intro hbounds)⟩
  · rw [herror]
    exact ⟨iff_of_false (fun ⟨_, h⟩ => by cases h) hbounds, iff_of_true ⟨fault, rfl⟩ hbounds⟩

/-- Bounds are accepted if they are in order, the lower one is positive and 32 bits hold the upper one. -/
theorem ofBounds_ok_iff : ofBounds min max = .ok r ↔ (r.min.toNat : Int) = min ∧ (r.max.toNat : Int) = max := by
  rcases ofBounds_cases min max with ⟨⟨r', hok, hmin, hmax⟩, -⟩ | ⟨⟨fault, herror⟩, hbounds⟩
  · rw [hok, Except.ok.injEq]
    constructor
    · rintro rfl
      exact ⟨hmin, hmax⟩
    · rintro ⟨hmin', hmax'⟩
      have hlow : r'.min = r.min := UInt32.toNat_inj.1 (by omega)
      have hhigh : r'.max = r.max := UInt32.toNat_inj.1 (by omega)
      cases r'
      cases r
      cases hlow
      cases hhigh
      rfl
  · rw [herror]
    simp only [reduceCtorEq, false_iff]
    rintro ⟨rfl, rfl⟩
    exact hbounds r.bounds

/-! Numbers of keys. -/

/-- How many numbers there are between the bounds. -/
def width (r : DecoyRange) : UInt32 := r.max - r.min

theorem toNat_width (r : DecoyRange) : r.width.toNat = r.max.toNat - r.min.toNat :=
  UInt32.toNat_sub_of_le _ _ (UInt32.le_of_lt r.ordered)

theorem width_pos (r : DecoyRange) : 0 < r.width := by
  have hordered := UInt32.lt_iff_toNat_lt.1 r.ordered
  apply UInt32.lt_iff_toNat_lt.2
  rw [toNat_width]
  exact Nat.sub_pos_of_lt hordered

/-- The number of keys that a word gives, if it is not to be drawn again. -/
def keysOf? (r : DecoyRange) (word : UInt32) : Option UInt32 := (select? r.width word).map (r.min + ·)

/-- The number of keys is the lower bound and what the word selects, which do not overflow. -/
theorem keysOf?_eq (r : DecoyRange) (word : UInt32) : r.keysOf? word =
    if word.toNat * r.width.toNat % 2 ^ 32 ≤ (zone r.width).toNat
    then some (UInt32.ofNat (r.min.toNat + word.toNat * r.width.toNat / 2 ^ 32)) else none := by
  rw [keysOf?, select?_eq]
  split
  · rw [Option.map_some, Option.some.injEq, UInt32.ofNat_add, UInt32.ofNat_toNat]
  · rfl

theorem keys_lt (r : DecoyRange) (word : UInt32) :
    r.min.toNat + word.toNat * r.width.toNat / 2 ^ 32 < r.max.toNat := by
  have hhigh := high_lt r.width_pos word
  have hordered := UInt32.lt_iff_toNat_lt.1 r.ordered
  rw [toNat_width] at hhigh ⊢
  omega

/-- A number between the bounds is given by the words that select what it is above the lower bound. -/
theorem keysOf?_eq_some_iff {word k : UInt32} (h : r.min ≤ k) :
    r.keysOf? word = some k ↔ select? r.width word = some (k - r.min) := by
  rw [keysOf?, Option.map_eq_some_iff]
  constructor
  · rintro ⟨c, hc, rfl⟩
    rw [hc, UInt32.add_comm, UInt32.add_sub_cancel]
  · intro hselect
    exact ⟨k - r.min, hselect, by rw [UInt32.add_comm, UInt32.sub_add_cancel]⟩

theorem ncard_keysOf? {k : UInt32} (hmin : r.min ≤ k) (hmax : k < r.max) :
    {word | r.keysOf? word = some k}.ncard = share r.width := by
  have hlow := UInt32.le_iff_toNat_le.1 hmin
  have hhigh := UInt32.lt_iff_toNat_lt.1 hmax
  have hlt : k - r.min < r.width := by
    apply UInt32.lt_iff_toNat_lt.2
    rw [toNat_width, UInt32.toNat_sub_of_le _ _ hmin]
    omega
  rw [← ncard_select? hlt]
  congr 1
  ext word
  exact keysOf?_eq_some_iff hmin

theorem keysOf?_bounds {word k : UInt32} (h : r.keysOf? word = some k) : r.min ≤ k ∧ k < r.max := by
  have hlt := r.keys_lt word
  have hsize := r.max.toNat_lt
  rw [keysOf?_eq] at h
  split at h
  · obtain rfl := Option.some.inj h
    rw [UInt32.le_iff_toNat_le, UInt32.lt_iff_toNat_lt, UInt32.toNat_ofNat_of_lt' (Nat.lt_trans hlt hsize)]
    exact ⟨Nat.le_add_right _ _, hlt⟩
  · cases h

/-! Numbers of decoys. -/

variable {source : RandomSource} {n : Nat}

/-- What is picked is half of the number that the first word gives that gives any, and at least one. -/
theorem pick_of_endsAt (h : EndsAt r.width source n) :
    ∃ k, r.keysOf? (source.wordAt n) = some k ∧
      r.pick source = (.ok (Nat.max (k.toNat / 2) 1), source.skipWords (n + 1)) := by
  obtain ⟨word, hword⟩ := Option.isSome_iff_exists.1 h.selects
  have hdrawn := wordBelow?_of_endsAt h
  rw [hword, Option.map_some] at hdrawn
  refine ⟨r.min + word, by rw [keysOf?, hword]; rfl, ?_⟩
  rw [pick, show r.max - r.min = r.width from rfl, hdrawn]

/-- A number is picked if and only if some word gives a number of keys. -/
theorem exists_pick_iff :
    (∃ count, (r.pick source).1 = .ok count) ↔ ∃ n, (r.keysOf? (source.wordAt n)).isSome := by
  have hsome : ∀ n, (r.keysOf? (source.wordAt n)).isSome ↔ select? r.width (source.wordAt n) ≠ none := fun n => by
    rw [keysOf?, Option.isSome_map, Option.isSome_iff_ne_none]
  rw [exists_congr hsome, ← not_forall, ← wordBelow?_eq_none_iff, pick, show r.max - r.min = r.width from rfl]
  cases wordBelow? r.width source with
  | none => exact iff_of_false (fun ⟨_, h⟩ => by cases h) (not_not_intro rfl)
  | some drawn => exact iff_of_true ⟨_, rfl⟩ (by simp)

/-- Two numbers are bounds if and only if the first is positive, the second larger, and 32 bits hold it; all others
    are refused as wrong use. For any bounds the width and what is computed with it do not overflow. A word whose
    product with the width has a low half above the zone gives nothing, and any other gives the lower bound and the
    high half of the product, a number between the bounds. Each number between the bounds is given by as many words as
    a power of two says, with the number of leading zeros of the width as its exponent. What is picked from a stream
    of random bytes is half of what the first word gives that gives anything, and at least one, and the stream goes on
    behind that word; there is such a word if and only if a number is picked. -/
theorem counts_unbiased :
    (∀ min max : Int,
      ((∃ r, ofBounds min max = .ok r) ↔ 1 ≤ min ∧ min < max ∧ max ≤ 4294967295) ∧
      ((∃ fault, ofBounds min max = .error (.usage fault)) ↔ ¬ (1 ≤ min ∧ min < max ∧ max ≤ 4294967295)) ∧
      ∀ r, ofBounds min max = .ok r ↔ (r.min.toNat : Int) = min ∧ (r.max.toNat : Int) = max) ∧
    ∀ r : DecoyRange,
      (r.width.toNat = r.max.toNat - r.min.toNat ∧
        r.width.toNat * 2 ^ leadingZeros r.width < 2 ^ 32 ∧
        (zone r.width).toNat + 1 = r.width.toNat * 2 ^ leadingZeros r.width) ∧
      (∀ word : UInt32,
        r.keysOf? word =
          (if word.toNat * r.width.toNat % 2 ^ 32 ≤ (zone r.width).toNat
            then some (UInt32.ofNat (r.min.toNat + word.toNat * r.width.toNat / 2 ^ 32)) else none) ∧
        r.min.toNat + word.toNat * r.width.toNat / 2 ^ 32 < r.max.toNat) ∧
      (∀ k, r.min ≤ k → k < r.max → {word | r.keysOf? word = some k}.ncard = 2 ^ leadingZeros r.width) ∧
      ∀ source : RandomSource,
        (∀ n, EndsAt r.width source n →
          ∃ k, r.keysOf? (source.wordAt n) = some k ∧ r.min ≤ k ∧ k < r.max ∧
            r.pick source = (.ok (Nat.max (k.toNat / 2) 1), source.skipWords (n + 1))) ∧
        ((∃ count, (r.pick source).1 = .ok count) ↔ ∃ n, (r.keysOf? (source.wordAt n)).isSome) := by
  refine ⟨fun min max => ?_, fun r => ⟨?_, ?_, ?_, fun source => ⟨fun n h => ?_, exists_pick_iff⟩⟩⟩
  · exact ⟨exists_ofBounds_iff.1, exists_ofBounds_iff.2, fun r => ofBounds_ok_iff⟩
  · exact ⟨r.toNat_width, mul_share_lt r.width, toNat_zone r.width_pos⟩
  · exact fun word => ⟨r.keysOf?_eq word, r.keys_lt word⟩
  · exact fun k hmin hmax => ncard_keysOf? hmin hmax
  · obtain ⟨k, hk, hpick⟩ := pick_of_endsAt h
    obtain ⟨hmin, hmax⟩ := keysOf?_bounds hk
    exact ⟨k, hk, hmin, hmax, hpick⟩

/-- Of three numbers each is given by a quarter of all words. The first word of the stream is in the quarter that is
    left and is drawn again; the second gives six keys, which make three decoys. -/
theorem counts_unbiased_redrawn :
    ∃ (r : DecoyRange) (source : RandomSource), ofBounds 5 8 = .ok r ∧ EndsAt r.width source 1 ∧
      r.pick source = (.ok 3, source.skipWords 2) ∧ {word | r.keysOf? word = some 7}.ncard = 2 ^ 30 := by
  obtain ⟨hbounds, hranges⟩ := counts_unbiased
  let r : DecoyRange := ⟨5, 8, by decide, by decide⟩
  obtain ⟨-, -, hcount, hdraw⟩ := hranges r
  let source : RandomSource := ⟨fun i => if i < 4 then 0xFF else if i = 7 then 0x80 else 0, 0⟩
  have hends : EndsAt r.width source 1 := by
    refine ⟨by decide, fun i hi => ?_⟩
    obtain rfl : i = 0 := Nat.lt_one_iff.1 hi
    decide
  obtain ⟨k, hk, -, -, hpick⟩ := (hdraw source).1 1 hends
  obtain rfl : k = 6 := Option.some.inj (hk.symm.trans (by decide))
  have hzeros : leadingZeros r.width = 30 := by decide
  refine ⟨r, source, ((hbounds 5 8).2.2 r).2 ⟨rfl, rfl⟩, hends, hpick, ?_⟩
  rw [hcount 7 (by decide) (by decide), hzeros]

end DecoyRange

end KeyChain
