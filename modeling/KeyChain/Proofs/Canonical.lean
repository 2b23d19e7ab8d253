import KeyChain.Proofs.Spelling
/-! One spelling for one value. What is read strictly is written as it was, and texts of identifiers are
   ordered as the identifiers are.

   1. `Base64.encode_of_decode`: a base64 text that is accepted is the one that its bytes are written as.
      The reader's faults are what makes this so: a symbol behind padding, padding of another length
      and unused bits that are set would all be second spellings;
   2. `KeyId.toHex_lt`: the digits of a smaller identifier come first in the order of texts. -/
namespace KeyChain

theorem Bytes.utf8_injective {s t : String} (h : utf8 s = utf8 t) : s = t := by
  have hs := text?_utf8 s
  rw [h, text?_utf8] at hs
  exact (Option.some.inj hs).symm

namespace Base64

/-- A symbol is the one of its value. -/
theorem symbol_of_value? {s : UInt8} {n : Nat} (h : value? s = some n) : n < 64 ∧ symbol n = s := by
  have hbyte := s.toNat_lt
  have hsymbol : ∀ m, m < 256 → m = s.toNat → UInt8.ofNat m = s := by
    intro m hm he
    apply UInt8.toNat_inj.1
    rw [Bytes.toNat_ofNat_lt hm, he]
  unfold value? at h
  unfold symbol
  dsimp only at h
  split at h
  · cases h
    exact ⟨by omega, hsymbol _ (by split <;> omega) (by split <;> omega)⟩
  split at h
  · cases h
    refine ⟨by omega, ?_⟩
    rw [if_neg (by omega), if_pos (by omega)]
    exact hsymbol _ (by omega) (by omega)
  split at h
  · cases h
    refine ⟨by omega, ?_⟩
    rw [if_neg (by omega), if_neg (by omega), if_pos (by omega)]
    exact hsymbol _ (by omega) (by omega)
  split at h
  · next hplus =>
    cases h
    exact ⟨by omega, hsymbol 43 (by omega) hplus.symm⟩
  split at h
  · next hslash =>
    cases h
    exact ⟨by omega, hsymbol 47 (by omega) hslash.symm⟩
  · cases h

theorem symbol_of_valueAt {s : UInt8} {offset n : Nat} (h : valueAt s offset = .ok n) :
    n < 64 ∧ symbol n = s := by
  unfold valueAt at h
  split at h
  · next v hv =>
    cases h
    exact symbol_of_value? hv
  · cases h

/-! Groups of four. -/

section

variable {w x y z : Nat}

/-- The number that four values make, from its three bytes. -/
theorem quad_number (hw : w < 64) (hx : x < 64) (hy : y < 64) (hz : z < 64) :
    ∃ a b c, quad w x y z = [a, b, c] ∧
      65536 * a.toNat + 256 * b.toNat + c.toNat = 262144 * w + 4096 * x + 64 * y + z := by
  refine ⟨_, _, _, rfl, ?_⟩
  generalize hn : 262144 * w + 4096 * x + 64 * y + z = n
  rw [UInt8.toNat_ofNat', UInt8.toNat_ofNat', UInt8.toNat_ofNat']
  omega

theorem encodeBytes_quad (hw : w < 64) (hx : x < 64) (hy : y < 64) (hz : z < 64) (rest : Bytes) :
    encodeBytes (quad w x y z ++ rest) =
      symbol w :: symbol x :: symbol y :: symbol z :: encodeBytes rest := by
  obtain ⟨a, b, c, hquad, hn⟩ := quad_number hw hx hy hz
  rw [hquad]
  simp only [List.cons_append, List.nil_append, encodeBytes, hn]
  rw [show (262144 * w + 4096 * x + 64 * y + z) / 262144 = w by omega,
    show (262144 * w + 4096 * x + 64 * y + z) / 4096 % 64 = x by omega,
    show (262144 * w + 4096 * x + 64 * y + z) / 64 % 64 = y by omega,
    show (262144 * w + 4096 * x + 64 * y + z) % 64 = z by omega]

/-- Two symbols spell one byte, if the four bits that are left over are not set. -/
theorem encodeBytes_quad_one (hw : w < 64) (hx : x < 64) (hbits : x % 16 = 0) :
    encodeBytes ((quad w x 0 0).take 1) = [symbol w, symbol x, pad, pad] := by
  obtain ⟨a, b, c, hquad, hn⟩ := quad_number hw hx (Nat.zero_lt_succ 63) (Nat.zero_lt_succ 63)
  have hb := b.toNat_lt
  have hc := c.toNat_lt
  rw [hquad]
  simp only [List.take_succ_cons, List.take_zero, encodeBytes]
  rw [show a.toNat / 4 = w by omega, show a.toNat % 4 * 16 = x by omega]

/-- Three symbols spell two bytes, if the two bits that are left over are not set. -/
theorem encodeBytes_quad_two (hw : w < 64) (hx : x < 64) (hy : y < 64) (hbits : y % 4 = 0) :
    encodeBytes ((quad w x y 0).take 2) = [symbol w, symbol x, symbol y, pad] := by
  obtain ⟨a, b, c, hquad, hn⟩ := quad_number hw hx hy (Nat.zero_lt_succ 63)
  have hc := c.toNat_lt
  rw [hquad]
  simp only [List.take_succ_cons, List.take_zero, encodeBytes]
  rw [show (256 * a.toNat + b.toNat) / 1024 = w by omega,
    show (256 * a.toNat + b.toNat) / 16 % 64 = x by omega,
    show (256 * a.toNat + b.toNat) % 16 * 4 = y by omega]

end

/-- A group is read as symbols with padding signs behind them. Once there is padding no symbol follows. -/
theorem readGroup_ok {start : Nat} {group : Bytes} :
    ∀ {i : Nat} {g g' : Group}, readGroup start i g group = .ok g' →
      ∃ values count, group = values.map symbol ++ List.replicate count pad ∧
        g'.values = g.values ++ values ∧ g'.padding = g.padding + count ∧
        (∀ v ∈ values, v < 64) ∧ (g.padding ≠ 0 → values = []) := by
  induction group with
  | nil =>
    intro i g g' h
    cases h
    exact ⟨[], 0, rfl, by simp, rfl, fun v hv => (by cases hv), fun _ => rfl⟩
  | cons s rest ih =>
    intro i g g' h
    rw [readGroup] at h
    split at h
    · next hpad =>
      split at h
      · cases h
      · obtain ⟨values, count, rfl, hvalues, hpadding, -, hnone⟩ := ih h
        obtain rfl := hnone (Nat.succ_ne_zero _)
        refine ⟨[], count + 1, ?_, hvalues, ?_, fun v hv => (by cases hv), fun _ => rfl⟩
        · rw [hpad, List.replicate_succ]
          rfl
        · rw [hpadding]
          dsimp only
          omega
    · split at h
      · cases h
      · next hpadding =>
        cases hv : valueAt s (start + i) with
        | error e => rw [hv] at h; cases h
        | ok v =>
          rw [hv] at h
          obtain ⟨hlt, hsymbol⟩ := symbol_of_valueAt hv
          obtain ⟨values, count, rfl, hvalues, hcount, hall, -⟩ := ih h
          refine ⟨v :: values, count, ?_, ?_, hcount, ?_, fun hne => absurd hne hpadding⟩
          · rw [List.map_cons, List.cons_append, hsymbol]
          · rw [hvalues, List.append_assoc, List.singleton_append]
          · intro v' hv'
            rcases List.mem_cons.1 hv' with rfl | hv'
            · exact hlt
            · exact hall v' hv'

theorem encodeBytes_of_decodeGroup {start : Nat} {group b : Bytes} (hlength : group.length ≤ 4)
    (h : decodeGroup start group = .ok b) : encodeBytes b = group := by
  unfold decodeGroup at h
  cases hread : readGroup start 0 ⟨[], 0, 0⟩ group with
  | error e => rw [hread] at h; cases h
  | ok g =>
    rw [hread] at h
    obtain ⟨values, count, rfl, hvalues, hcount, hall, -⟩ := readGroup_ok hread
    obtain ⟨gvalues, padding, firstPad⟩ := g
    rw [List.nil_append] at hvalues
    rw [Nat.zero_add] at hcount
    dsimp only at hvalues hcount
    subst hvalues hcount
    simp only [List.length_append, List.length_map, List.length_replicate] at hlength
    simp only [Bind.bind, Except.bind] at h
    match gvalues, h with
    | [], h =>
      dsimp only at h
      split at h
      · next hempty =>
        cases h
        exact (List.isEmpty_iff.1 hempty).symm
      · cases h
    | [_], h => cases h
    | [w, x], h =>
      dsimp only at h
      split at h
      · cases h
      · next hpad =>
        split at h
        · cases h
        · next hbits =>
          cases h
          rw [encodeBytes_quad_one (hall w (by simp)) (hall x (by simp)) (by omega),
            show padding = 2 by omega]
          rfl
    | [w, x, y], h =>
      dsimp only at h
      split at h
      · cases h
      · next hpad =>
        split at h
        · cases h
        · next hbits =>
          cases h
          rw [encodeBytes_quad_two (hall w (by simp)) (hall x (by simp)) (hall y (by simp)) (by omega),
            show padding = 1 by omega]
          rfl
    | w :: x :: y :: z :: more, h =>
      cases h
      simp only [List.length_cons] at hlength
      obtain rfl : more = [] := List.length_eq_zero_iff.1 (by omega)
      have hquad := encodeBytes_quad (hall w (by simp)) (hall x (by simp)) (hall y (by simp))
        (hall z (by simp)) []
      rw [List.append_nil] at hquad
      rw [hquad, show padding = 0 by omega]
      rfl

theorem encodeBytes_of_decodeGroups {start : Nat} {text b : Bytes}
    (h : decodeGroups start text = .ok b) : encodeBytes b = text := by
  induction start, text using decodeGroups.induct generalizing b with
  | case1 start s₀ s₁ s₂ s₃ s₄ rest ih =>
    rw [decodeGroups] at h
    cases hw : valueAt s₀ start with
    | error e => rw [hw] at h; cases h
    | ok w =>
    cases hx : valueAt s₁ (start + 1) with
    | error e => rw [hw, hx] at h; cases h
    | ok x =>
    cases hy : valueAt s₂ (start + 2) with
    | error e => rw [hw, hx, hy] at h; cases h
    | ok y =>
    cases hz : valueAt s₃ (start + 3) with
    | error e => rw [hw, hx, hy, hz] at h; cases h
    | ok z =>
    cases htail : decodeGroups (start + 4) (s₄ :: rest) with
    | error e => rw [hw, hx, hy, hz, htail] at h; cases h
    | ok tail =>
      rw [hw, hx, hy, hz, htail] at h
      cases h
      obtain ⟨hw64, rfl⟩ := symbol_of_valueAt hw
      obtain ⟨hx64, rfl⟩ := symbol_of_valueAt hx
      obtain ⟨hy64, rfl⟩ := symbol_of_valueAt hy
      obtain ⟨hz64, rfl⟩ := symbol_of_valueAt hz
      rw [encodeBytes_quad hw64 hx64 hy64 hz64, ih htail]
  | case2 start text hshort =>
    have hlength : text.length ≤ 4 := by
      rcases text with _ | ⟨s₀, _ | ⟨s₁, _ | ⟨s₂, _ | ⟨s₃, _ | ⟨s₄, rest⟩⟩⟩⟩⟩
      · simp
      · simp
      · simp
      · simp
      · simp
      · exact absurd rfl (hshort s₀ s₁ s₂ s₃ s₄ rest)
    refine @encodeBytes_of_decodeGroup start text b hlength ?_
    rw [← h, decodeGroups]
    exact hshort

/-- A text that is read is the one that its bytes are written as. -/
theorem encode_of_decode {text : String} {b : Bytes} (h : decode text = .ok b) : encode b = text := by
  unfold decode at h
  dsimp only at h
  split at h
  · cases h
  · apply Bytes.utf8_injective
    rw [utf8_encode, encodeBytes_of_decodeGroups h]

end Base64

/-! The order of texts. -/

namespace Bytes

theorem hexDigit_lt : ∀ n < 16, ∀ m < n, hexDigit m < hexDigit n := by decide

/-- The digits of byte strings are ordered as the bytes are. -/
theorem hexChars_lt {b b' : Bytes} (h : b < b') : hexChars b < hexChars b' := by
  induction b generalizing b' with
  | nil =>
    cases b' with
    | nil => exact absurd h (List.lt_irrefl _)
    | cons x' rest' => exact List.nil_lt_cons _ _
  | cons x rest ih =>
    cases b' with
    | nil => exact absurd h (List.not_lt_nil _)
    | cons x' rest' =>
      have hx := x.toNat_lt
      have hx' := x'.toNat_lt
      rw [hexChars, hexChars, List.cons_lt_cons_iff, List.cons_lt_cons_iff]
      rcases List.cons_lt_cons_iff.1 h with hlt | ⟨rfl, hlt⟩
      · have hlt : x.toNat < x'.toNat := UInt8.lt_iff_toNat_lt.1 hlt
        by_cases hhigh : x.toNat / 16 = x'.toNat / 16
        · exact .inr ⟨by rw [hhigh], .inl (hexDigit_lt _ (by omega) _ (by omega))⟩
        · exact .inl (hexDigit_lt _ (by omega) _ (by omega))
      · exact .inr ⟨rfl, .inr ⟨rfl, ih hlt⟩⟩

theorem toNatLE_append (b b' : Bytes) :
    toNatLE (b ++ b') = toNatLE b + Nat.pow 256 b.length * toNatLE b' := by
  induction b with
  | nil => simp [toNatLE]
  | cons x rest ih =>
    have hpow : Nat.pow 256 (rest.length + 1) = 256 * Nat.pow 256 rest.length := Nat.pow_succ'
    rw [List.cons_append, toNatLE, toNatLE, ih, List.length_cons, hpow, Nat.mul_add, Nat.mul_assoc,
      Nat.add_assoc]

theorem toNatBE_cons (x : UInt8) (rest : Bytes) :
    toNatBE (x :: rest) = Nat.pow 256 rest.length * x.toNat + toNatBE rest := by
  unfold toNatBE
  rw [List.reverse_cons, toNatLE_append, List.length_reverse, Nat.add_comm]
  simp [toNatLE]

theorem toNatBE_lt (b : Bytes) : toNatBE b < Nat.pow 256 b.length := by
  induction b with
  | nil => decide
  | cons x rest ih =>
    have hx := x.toNat_lt
    rw [toNatBE_cons, List.length_cons]
    calc Nat.pow 256 rest.length * x.toNat + toNatBE rest
        < Nat.pow 256 rest.length * x.toNat + Nat.pow 256 rest.length := Nat.add_lt_add_left ih _
      _ = Nat.pow 256 rest.length * (x.toNat + 1) := (Nat.mul_succ _ _).symm
      _ ≤ Nat.pow 256 rest.length * 256 := Nat.mul_le_mul_left _ hx

/-- Most significant first, byte strings of one length are ordered as their numbers are. -/
theorem lt_of_toNatBE_lt {b b' : Bytes} (hlength : b.length = b'.length) (h : toNatBE b < toNatBE b') :
    b < b' := by
  induction b generalizing b' with
  | nil =>
    obtain rfl := List.length_eq_zero_iff.1 hlength.symm
    exact absurd h (Nat.lt_irrefl _)
  | cons x rest ih =>
    cases b' with
    | nil => cases hlength
    | cons x' rest' =>
      have hrest : rest.length = rest'.length := by simpa using hlength
      have hlow' := toNatBE_lt rest'
      rw [toNatBE_cons, toNatBE_cons, hrest] at h
      rw [List.cons_lt_cons_iff]
      rcases Nat.lt_trichotomy x.toNat x'.toNat with hlt | heq | hgt
      · exact .inl (UInt8.lt_iff_toNat_lt.2 hlt)
      · rw [heq] at h
        exact .inr ⟨UInt8.toNat_inj.1 heq, ih hrest (Nat.lt_of_add_lt_add_left h)⟩
      · -- A larger first byte outweighs whatever follows.
        have hstep := Nat.mul_le_mul_left (Nat.pow 256 rest'.length) (show x'.toNat + 1 ≤ x.toNat from hgt)
        rw [Nat.mul_succ] at hstep
        omega

end Bytes

namespace KeyId

theorem compare_text_lt {s t : String} (h : s < t) : compare s t = .lt := by
  show compareOfLessAndEq s t = .lt
  rw [compareOfLessAndEq, if_pos h]

theorem toNatBE_bytes (id : KeyId) : Bytes.toNatBE id.bytes = id.value.toNat := by
  rw [bytes, Bytes.toNatBE_ofNatBE, Nat.mod_eq_of_lt id.value.toNat_lt]

/-- Identifiers are ordered as their texts are. -/
theorem toHex_lt {a b : KeyId} (h : compare a b = .lt) : compare a.toHex b.toHex = .lt := by
  have hvalue : a.value < b.value := Std.compare_eq_lt.1 h
  have hbytes : a.bytes < b.bytes := by
    refine Bytes.lt_of_toNatBE_lt (by rw [length_bytes, length_bytes]) ?_
    rw [toNatBE_bytes, toNatBE_bytes]
    exact UInt64.lt_iff_toNat_lt.1 hvalue
  have htext : a.toHex < b.toHex := by
    rw [String.lt_iff]
    unfold toHex Bytes.toHex
    rw [String.toList_ofList, String.toList_ofList]
    exact Bytes.hexChars_lt hbytes
  exact compare_text_lt htext

end KeyId

end KeyChain
