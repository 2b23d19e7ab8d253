import KeyChain.Proofs.KeyringRuns
import KeyChain.Proofs.Walk
import Mathlib.Data.List.Nodup
/-! Chains installed in a keyring, key by key. A key can be added unless its identifier is installed with another
   secret (`Clashes`), and is passed over if its identifier is there already. So what becomes of a chain of distinct
   identifiers is known from the keyring before, and that is so for every chain that is resolved.

   1. `add_of_clear`, `add_of_clash`: what becomes of one key;
   2. `run_installKeys_append`: keys that do not clash are installed, whatever is behind them;
   3. `run_install`: a chain is installed up to the first key that clashes;
   4. `install_exact`: which keys are there then, and that a second installation changes nothing;
   5. `Installed`: what any installation without a failure has done, also of keys that share an identifier;
   6. `installed_iff`: the secrets of a chain are there then, and its algorithms if no other were there before. -/
namespace KeyChain

namespace Keyring

/-- Adds a key. -/
def adding (key : Key) : StateM Keyring (Except KeychainError Unit) := (KeyringCall.add key).act

/-- Installs a chain. -/
def install (c : Chain) : StateM Keyring (Except KeychainError Nat) := c.install adding

/-- Whether the identifier of a key is installed with another secret. -/
def Clashes (r : Keyring) (key : Key) : Prop := ∃ held ∈ r.keys, held.id = key.id ∧ held.secret ≠ key.secret

/-- The keys whose identifiers are not installed. -/
def missing (r : Keyring) (keys : List Key) : List Key := keys.filter fun k => (r.find? k.id).isNone

/-- The keyring with the keys that are missing behind its own. -/
def extended (r : Keyring) (keys : List Key) : Keyring := { r with keys := r.keys ++ r.missing keys }

variable {r r' : Keyring} {key held : Key} {keys before after : List Key} {id : KeyId}

theorem find?_of_mem (h : (r.keys.map Key.id).Nodup) (hheld : held ∈ r.keys) : r.find? held.id = some held := by
  obtain ⟨found, hfind⟩ := exists_find? hheld rfl
  obtain ⟨hfound, hsame⟩ := mem_of_find? hfind
  rw [hfind, List.inj_on_of_nodup_map h hfound hheld hsame]

/-! One key. -/

/-- A key is added, or passed over, unless the key of its identifier has another secret. -/
theorem add_ok_iff : r.add key = .ok r' ↔
    (∀ held, r.find? key.id = some held → held.secret = key.secret) ∧ r' = r.extended [key] := by
  unfold add
  cases hfind : r.find? key.id with
  | none => simp [extended, missing, hfind, eq_comm]
  | some held =>
    have hid : held.id = key.id := (mem_of_find? hfind).2
    by_cases hsecret : held.secret = key.secret
    · simp [extended, missing, hfind, Key.isSame, hid, Key.sameSecret, hsecret]
      exact eq_comm
    · simp [Key.isSame, hid, Key.sameSecret, hsecret]

theorem add_of_clear (h : ¬ r.Clashes key) : r.add key = .ok (r.extended [key]) := by
  refine add_ok_iff.2 ⟨fun held hfind => ?_, rfl⟩
  obtain ⟨hheld, hid⟩ := mem_of_find? hfind
  by_contra hsecret
  exact h ⟨held, hheld, hid, hsecret⟩

theorem add_of_clash (hr : (r.keys.map Key.id).Nodup) (h : r.Clashes key) :
    r.add key = .error (.corrupted (.collision key.id)) := by
  obtain ⟨held, hheld, hid, hsecret⟩ := h
  have hfind := find?_of_mem hr hheld
  rw [hid] at hfind
  simp [add, hfind, Key.isSame, hid, Key.sameSecret, hsecret]

/-! Keys of distinct identifiers. -/

theorem mem_extended : held ∈ (r.extended keys).keys ↔ held ∈ r.keys ∨ held ∈ keys ∧ r.find? held.id = none := by
  rw [extended, List.mem_append, missing, List.mem_filter, Option.isNone_iff_eq_none]

/-- None of them is missing any more. -/
theorem missing_extended (r : Keyring) (keys : List Key) : (r.extended keys).missing keys = [] := by
  refine List.filter_eq_nil_iff.2 fun k hk => ?_
  have hthere : ∃ held, (r.extended keys).find? k.id = some held := by
    cases hfind : r.find? k.id with
    | none => exact exists_find? (mem_extended.2 (.inr ⟨hk, hfind⟩)) rfl
    | some held =>
      obtain ⟨hheld, hid⟩ := mem_of_find? hfind
      exact exists_find? (mem_extended.2 (.inl hheld)) hid
  obtain ⟨held, hheld⟩ := hthere
  rw [hheld]
  exact Bool.false_ne_true

theorem find?_extended (h : id ∉ keys.map Key.id) : (r.extended keys).find? id = r.find? id := by
  have hmissing : (r.missing keys).find? (fun k => k.id == id) = none := by
    rw [List.find?_eq_none]
    intro k hk he
    exact h (List.mem_map.2 ⟨k, List.mem_of_mem_filter hk, by simpa using he⟩)
  rw [find?, extended, List.find?_append, hmissing, Option.or_none, find?]

theorem clashes_extended (h : key.id ∉ keys.map Key.id) : (r.extended keys).Clashes key ↔ r.Clashes key := by
  constructor
  · intro hclash
    obtain ⟨held, hheld, hid, hsecret⟩ := hclash
    rcases mem_extended.1 hheld with hheld | ⟨hheld, -⟩
    · exact ⟨held, hheld, hid, hsecret⟩
    · exact absurd (List.mem_map.2 ⟨held, hheld, hid⟩) h
  · intro hclash
    obtain ⟨held, hheld, hid, hsecret⟩ := hclash
    exact ⟨held, mem_extended.2 (.inl hheld), hid, hsecret⟩

theorem extended_append (h : ((before ++ after).map Key.id).Nodup) :
    (r.extended before).extended after = r.extended (before ++ after) := by
  have hmissing : (r.extended before).missing after = r.missing after := by
    refine List.filter_congr fun k hk => ?_
    rw [find?_extended (Key.id_notMem_of_distinct h hk)]
  have hkeys : (r.extended before).keys ++ r.missing after = r.keys ++ r.missing (before ++ after) := by
    rw [extended, missing, missing, missing, List.filter_append, List.append_assoc]
  rw [extended, hmissing, hkeys]
  rfl

theorem distinct_extended (hr : (r.keys.map Key.id).Nodup) (h : (keys.map Key.id).Nodup) :
    ((r.extended keys).keys.map Key.id).Nodup := by
  rw [extended, List.map_append, List.nodup_append]
  refine ⟨hr, h.sublist (List.filter_sublist.map Key.id), fun a ha b hb he => ?_⟩
  obtain ⟨k, hk, rfl⟩ := List.mem_map.1 hb
  have hnone : r.find? k.id = none := by simpa using (List.mem_filter.1 hk).2
  exact find?_eq_none.1 hnone (he ▸ ha)

/-- A list of keys begins with keys that do not clash, if it is not made of those alone. -/
theorem clear_or_clash (r : Keyring) (keys : List Key) :
    (∀ k ∈ keys, ¬ r.Clashes k) ∨ ∃ before key after, keys = before ++ key :: after ∧
      (∀ k ∈ before, ¬ r.Clashes k) ∧ r.Clashes key := by
  induction keys with
  | nil => exact .inl nofun
  | cons key keys ih =>
    by_cases hclash : r.Clashes key
    · exact .inr ⟨[], key, keys, rfl, nofun, hclash⟩
    · rcases ih with hclear | ⟨before, key', after, rfl, hclear, hclash'⟩
      · exact .inl (List.forall_mem_cons.2 ⟨hclash, hclear⟩)
      · exact .inr ⟨key :: before, key', after, rfl, List.forall_mem_cons.2 ⟨hclash, hclear⟩, hclash'⟩

theorem run_installKeys_cons_ok (h : r.add key = .ok r') (keys : List Key) :
    (installKeys adding (key :: keys)).run r = (installKeys adding keys).run r' := by
  have hadd : (adding key).run r = (.ok (), r') := run_act_of_ok h
  show (adding key >>= _).run r = _
  rw [StateT.run_bind, hadd]
  rfl

theorem run_installKeys_cons_error {e : KeychainError} (h : r.add key = .error e) (keys : List Key) :
    (installKeys adding (key :: keys)).run r = (.error e, r) := by
  have hadd : (adding key).run r = (.error e, r) := run_act_of_error h
  show (adding key >>= _).run r = _
  rw [StateT.run_bind, hadd]
  rfl

/-- Keys that do not clash are installed, whatever is behind them. -/
theorem run_installKeys_append (hclear : ∀ k ∈ before, ¬ r.Clashes k)
    (h : ((before ++ after).map Key.id).Nodup) :
    (installKeys adding (before ++ after)).run r = (installKeys adding after).run (r.extended before) := by
  induction before generalizing r with
  | nil => rw [show r.extended [] = r by simp [extended, missing], List.nil_append]
  | cons key before ih =>
    obtain ⟨hkey, hrest⟩ := List.forall_mem_cons.1 hclear
    have hfirst : (([key] ++ before).map Key.id).Nodup := by
      rw [List.map_append] at h
      exact (List.nodup_append.1 h).1
    -- The key that is added first has another identifier than those behind it, so none of them clashes with it.
    have hclear' : ∀ k ∈ before, ¬ (r.extended [key]).Clashes k := by
      intro k hk
      rw [clashes_extended (Key.id_notMem_of_distinct hfirst hk)]
      exact hrest k hk
    rw [List.cons_append, List.map_cons, List.nodup_cons] at h
    rw [List.cons_append, run_installKeys_cons_ok (add_of_clear hkey), ih hclear' h.2, extended_append hfirst]
    rfl

theorem run_install_of_keys {c : Chain} {result : Except KeychainError Unit}
    (h : (installKeys adding c.keys).run r = (result, r')) :
    (install c).run r = (result.map fun _ => c.length, r') := by
  show (installKeys adding c.keys >>= _).run r = _
  rw [StateT.run_bind, h]
  cases result <;> rfl

theorem run_installKeys_of_clear (hclear : ∀ k ∈ keys, ¬ r.Clashes k) (h : (keys.map Key.id).Nodup) :
    (installKeys adding keys).run r = (.ok (), r.extended keys) := by
  have hrun := @run_installKeys_append r keys [] hclear (by rwa [List.append_nil])
  rw [List.append_nil] at hrun
  exact hrun

/-- A chain is installed, at least up to the first key that clashes. -/
theorem run_install {c : Chain} (hr : (r.keys.map Key.id).Nodup) (hc : (c.keys.map Key.id).Nodup) :
    (∀ k ∈ c.keys, ¬ r.Clashes k) ∧ (install c).run r = (.ok c.length, r.extended c.keys) ∨
      ∃ before key after, c.keys = before ++ key :: after ∧ r.Clashes key ∧
        (installKeys adding before).run r = (.ok (), r.extended before) ∧
        (adding key).run (r.extended before) = (.error (.corrupted (.collision key.id)), r.extended before) ∧
        (install c).run r = (.error (.corrupted (.collision key.id)), r.extended before) := by
  rcases clear_or_clash r c.keys with hclear | ⟨before, key, after, hkeys, hclear, hclash⟩
  · exact .inl ⟨hclear, run_install_of_keys (run_installKeys_of_clear hclear hc)⟩
  · have hsplit : ((before ++ key :: after).map Key.id).Nodup := hkeys ▸ hc
    have hnew : key.id ∉ before.map Key.id := Key.id_notMem_of_distinct hsplit List.mem_cons_self
    have hbefore : (before.map Key.id).Nodup := by
      rw [List.map_append] at hsplit
      exact (List.nodup_append.1 hsplit).1
    have hadd := add_of_clash (distinct_extended hr hbefore) ((clashes_extended hnew).2 hclash)
    have hrun : (installKeys adding c.keys).run r =
        (.error (.corrupted (.collision key.id)), r.extended before) := by
      rw [hkeys, run_installKeys_append hclear hsplit, run_installKeys_cons_error hadd]
    exact .inr ⟨before, key, after, hkeys, hclash, run_installKeys_of_clear hclear hbefore, run_act_of_error hadd,
      run_install_of_keys hrun⟩

/-- Keys that are there are installed again, and nothing changes. -/
theorem run_install_again {c : Chain} (hc : (c.keys.map Key.id).Nodup) (hclear : ∀ k ∈ c.keys, ¬ r.Clashes k) :
    (install c).run (r.extended c.keys) = (.ok c.length, r.extended c.keys) := by
  -- A key of the chain that was added has its own secret, and the others did not clash before.
  have hclear' : ∀ k ∈ c.keys, ¬ (r.extended c.keys).Clashes k := by
    rintro k hk ⟨held, hheld, hid, hsecret⟩
    rcases mem_extended.1 hheld with hheld | ⟨hheld, -⟩
    · exact hclear k hk ⟨held, hheld, hid, hsecret⟩
    · exact hsecret (congrArg Key.secret (List.inj_on_of_nodup_map hc hheld hk hid))
  have hsame : (r.extended c.keys).extended c.keys = r.extended c.keys := by
    rw [extended, missing_extended, List.append_nil]
  have hrun := run_installKeys_of_clear hclear' hc
  rw [hsame] at hrun
  exact run_install_of_keys hrun

/-- What becomes of a chain. It is installed if and only if none of its keys clashes; then the keys whose identifiers
    were not installed are there, behind the others and in their order, and a second installation changes nothing.
    If it fails, then it fails at the key of a position, with the keys before it that were missing added, and no
    key from there on. Bindings are never touched. -/
theorem install_exact {c : Chain} (hr : r.Reachable) (hc : c.IsMade) :
    ((∃ n r', (install c).run r = (.ok n, r')) ↔
      ∀ k ∈ c.keys, ¬ ∃ held ∈ r.keys, held.id = k.id ∧ held.secret ≠ k.secret) ∧
    (∀ n r', (install c).run r = (.ok n, r') →
      n = c.length ∧ r'.keys = r.keys ++ c.keys.filter (fun k => (r.find? k.id).isNone) ∧
        r'.bindings = r.bindings ∧ (install c).run r' = (.ok n, r')) ∧
    ∀ e r', (install c).run r = (.error e, r') →
      ∃ i key, c.keys[i]? = some key ∧ (installKeys adding (c.keys.take i)).run r = (.ok (), r') ∧
        (adding key).run r' = (.error e, r') ∧ e = .corrupted (.collision key.id) ∧
        r'.keys = r.keys ++ (c.keys.take i).filter (fun k => (r.find? k.id).isNone) ∧
        r'.bindings = r.bindings ∧ ∀ k ∈ c.keys.drop i, r'.find? k.id = r.find? k.id := by
  have hdistinct := hc.distinct
  rcases run_install hr.consistent.distinct hdistinct with
    ⟨hclear, hrun⟩ | ⟨before, key, after, hkeys, hclash, hbefore, hadd, hrun⟩
  · refine ⟨⟨fun _ => hclear, fun _ => ⟨_, _, hrun⟩⟩, fun n r' h => ?_, fun e r' h => ?_⟩
    · rw [hrun] at h
      cases h
      exact ⟨rfl, rfl, rfl, run_install_again hdistinct hclear⟩
    · rw [hrun] at h
      cases h
  · refine ⟨⟨fun h => ?_, fun h => ?_⟩, fun n r' h => ?_, fun e r' h => ?_⟩
    · obtain ⟨n, r', h⟩ := h
      rw [hrun] at h
      cases h
    · exact absurd hclash (h key (by simp [hkeys]))
    · rw [hrun] at h
      cases h
    · rw [hrun] at h
      cases h
      -- The position is that of the first key that clashes.
      have htake : c.keys.take before.length = before := by rw [hkeys, List.take_left]
      refine ⟨before.length, key, by simp [hkeys], by rw [htake, hbefore], hadd, rfl, by rw [htake]; rfl, rfl, ?_⟩
      rw [hkeys, List.drop_left]
      rw [hkeys] at hdistinct
      exact fun k hk => find?_extended (Key.id_notMem_of_distinct hdistinct hk)

/-- Two keys of different secrets under one identifier. -/
def rivals : Key × Key :=
  (⟨⟨1⟩, .aes256Xts, .zero secretSize, none⟩, ⟨⟨1⟩, .aes256Xts, ⟨List.replicate secretSize 1, rfl⟩, none⟩)

/-- A key that is there is installed again, and its rival is not. -/
theorem install_exact_rivals :
    let r := ((KeyringCall.add rivals.1).act.run empty).2
    r.Reachable ∧ (Chain.single rivals.1).IsMade ∧ (Chain.single rivals.2).IsMade ∧
      (∃ n r', (install (.single rivals.1)).run r = (.ok n, r')) ∧
      ¬ ∃ n r', (install (.single rivals.2)).run r = (.ok n, r') := by
  intro r
  have hreachable : r.Reachable := .call _ .empty
  have hmade : ∀ key, (Chain.single key).IsMade := fun key => .inr ⟨key, rfl⟩
  obtain ⟨hfirst, -⟩ := install_exact hreachable (hmade rivals.1)
  obtain ⟨hsecond, -⟩ := install_exact hreachable (hmade rivals.2)
  refine ⟨hreachable, hmade _, hmade _, hfirst.2 ?_, fun hok => hsecond.1 hok rivals.2 List.mem_cons_self ?_⟩
  · decide
  · decide

/-! Any keys, also of identifiers that are not distinct. -/

/-- What an installation of keys has done if it did not fail: there are the old keys, and for each of the new keys
    one of its identifier and its secret, and no others. -/
structure Installed (r : Keyring) (keys : List Key) (r' : Keyring) : Prop where
  distinct : (r.keys.map Key.id).Nodup → (r'.keys.map Key.id).Nodup
  kept : ∀ held ∈ r.keys, held ∈ r'.keys
  there : ∀ k ∈ keys, ∃ held ∈ r'.keys, held.id = k.id ∧ held.secret = k.secret
  origin : ∀ held ∈ r'.keys, held ∈ r.keys ∨ held ∈ keys

namespace Installed

theorem nothing (r : Keyring) : Installed r [] r := ⟨id, fun _ => id, nofun, fun _ => .inl⟩

theorem add (h : r.add key = .ok r') : Installed r [key] r' := by
  obtain ⟨hsecret, hextended⟩ := add_ok_iff.1 h
  refine ⟨fun hr => distinct_add hr h, ?_, List.forall_mem_singleton.2 ?_, ?_⟩
  · exact fun held hheld => hextended ▸ mem_extended.2 (.inl hheld)
  · cases hfind : r.find? key.id with
    | none => exact ⟨key, hextended ▸ mem_extended.2 (.inr ⟨List.mem_singleton_self key, hfind⟩), rfl, rfl⟩
    | some held =>
      obtain ⟨hheld, hid⟩ := mem_of_find? hfind
      exact ⟨held, hextended ▸ mem_extended.2 (.inl hheld), hid, hsecret held hfind⟩
  · exact fun held hheld => (mem_extended.1 (hextended ▸ hheld)).imp_right And.left

theorem append {r₁ r₂ : Keyring} {ks₁ ks₂ : List Key} (h₁ : Installed r ks₁ r₁) (h₂ : Installed r₁ ks₂ r₂) :
    Installed r (ks₁ ++ ks₂) r₂ where
  distinct hr := h₂.distinct (h₁.distinct hr)
  kept held hheld := h₂.kept held (h₁.kept held hheld)
  there k hk := by
    rcases List.mem_append.1 hk with hk | hk
    · obtain ⟨held, hheld, hsame⟩ := h₁.there k hk
      exact ⟨held, h₂.kept held hheld, hsame⟩
    · exact h₂.there k hk
  origin held hheld := by
    rcases h₂.origin held hheld with hheld | hheld
    · exact (h₁.origin held hheld).imp_right (List.mem_append_left _)
    · exact .inr (List.mem_append_right _ hheld)

theorem run_installKeys (h : (installKeys adding keys).run r = (.ok (), r')) : Installed r keys r' := by
  induction keys generalizing r with
  | nil =>
    obtain rfl : r = r' := congrArg Prod.snd h
    exact nothing r
  | cons key keys ih =>
    cases hadd : r.add key with
    | error e =>
      rw [run_installKeys_cons_error hadd] at h
      cases h
    | ok r₁ =>
      rw [run_installKeys_cons_ok hadd] at h
      exact (add hadd).append (ih h)

theorem run_install {c : Chain} {n : Nat} (h : (install c).run r = (.ok n, r')) : Installed r c.keys r' := by
  rcases hrun : (installKeys adding c.keys).run r with ⟨result, r₁⟩
  rw [run_install_of_keys hrun] at h
  cases result with
  | error e => cases h
  | ok _ =>
    cases h
    exact run_installKeys hrun

/-- The algorithms of the keys are there as well if and only if no key of one of their identifiers, be it an old one
    or a new one, has another algorithm. -/
theorem algorithms_iff (h : Installed r keys r') (hr : (r.keys.map Key.id).Nodup) :
    (∀ k ∈ keys, ∃ held ∈ r'.keys, held.id = k.id ∧ held.secret = k.secret ∧ held.algorithm = k.algorithm) ↔
      ∀ k ∈ keys, ∀ other ∈ r.keys ++ keys, other.id = k.id → other.algorithm = k.algorithm := by
  -- A key of an identifier is the only one.
  have hone : ∀ {a b : Key}, a ∈ r'.keys → b ∈ r'.keys → a.id = b.id → a = b := fun ha hb hid =>
    List.inj_on_of_nodup_map (h.distinct hr) ha hb hid
  constructor
  · intro hall k hk other hother hid
    obtain ⟨held, hheld, hid', -, halgorithm⟩ := hall k hk
    rcases List.mem_append.1 hother with hother | hother
    · rw [hone (h.kept other hother) hheld (hid.trans hid'.symm), halgorithm]
    · obtain ⟨held', hheld', hid'', -, halgorithm'⟩ := hall other hother
      rw [← halgorithm', hone hheld' hheld (hid''.trans (hid.trans hid'.symm)), halgorithm]
  · intro hall k hk
    obtain ⟨held, hheld, hid, hsecret⟩ := h.there k hk
    exact ⟨held, hheld, hid, hsecret, hall k hk held (List.mem_append.2 (h.origin held hheld)) hid⟩

end Installed

/-- The first of two keys is held already, beside another key. The second is added. -/
theorem run_install_partly {other : Key} {a b : Key} (hdistinct : ([other, a, b].map Key.id).Nodup) :
    (⟨[other, a], OrderedMap.empty⟩ : Keyring).Reachable ∧
      (install ⟨a, [b]⟩).run ⟨[other, a], OrderedMap.empty⟩ = (.ok 2, ⟨[other, a, b], OrderedMap.empty⟩) := by
  have hids : other.id ≠ a.id ∧ other.id ≠ b.id ∧ a.id ≠ b.id := by simpa [and_assoc] using hdistinct
  have hother : empty.add other = .ok ⟨[other], OrderedMap.empty⟩ := rfl
  have hfirst : (⟨[other], OrderedMap.empty⟩ : Keyring).add a = .ok ⟨[other, a], OrderedMap.empty⟩ := by
    simp [Keyring.add, find?, hids]
  have hsame : (⟨[other, a], OrderedMap.empty⟩ : Keyring).add a = .ok ⟨[other, a], OrderedMap.empty⟩ := by
    simp [Keyring.add, find?, hids, Key.isSame, Key.sameSecret]
  have hadd : (⟨[other, a], OrderedMap.empty⟩ : Keyring).add b = .ok ⟨[other, a, b], OrderedMap.empty⟩ := by
    simp [Keyring.add, find?, hids]
  exact ⟨(Reachable.empty.add hother).add hfirst, run_install_of_keys (c := ⟨a, [b]⟩)
    ((run_installKeys_cons_ok hsame [b]).trans (run_installKeys_cons_ok hadd []))⟩

/-- A chain that is installed without a failure is there with its identifiers and secrets. It is there with its
    algorithms as well if and only if no key of one of its identifiers, be it an old one or one of the chain, has
    another algorithm: a key that is there already is not changed. -/
theorem installed_iff {c : Chain} {n : Nat} (hr : r.Reachable) (h : (install c).run r = (.ok n, r')) :
    (∀ k ∈ c.keys, ∃ held ∈ r'.keys, held.id = k.id ∧ held.secret = k.secret) ∧
    ((∀ k ∈ c.keys, ∃ held ∈ r'.keys, held.id = k.id ∧ held.secret = k.secret ∧ held.algorithm = k.algorithm) ↔
      ∀ k ∈ c.keys, ∀ other ∈ r.keys ++ c.keys, other.id = k.id → other.algorithm = k.algorithm) :=
  have hinstalled := Installed.run_install h
  ⟨hinstalled.there, hinstalled.algorithms_iff hr.consistent.distinct⟩

/-- A chain of two keys is installed in a keyring that holds the first of them and another key. -/
theorem installed_iff_partly :
    let other := Key.ofByte 0
    let a := Key.ofByte 1
    let b := Key.ofByte 2
    let r : Keyring := ⟨[other, a], OrderedMap.empty⟩
    let r' : Keyring := ⟨[other, a, b], OrderedMap.empty⟩
    r.Reachable ∧ (install ⟨a, [b]⟩).run r = (.ok 2, r') ∧
      ∀ k ∈ [a, b], ∃ held ∈ r'.keys, held.id = k.id ∧ held.secret = k.secret ∧ held.algorithm = k.algorithm := by
  intro other a b r r'
  obtain ⟨hreachable, hrun⟩ := run_install_partly Key.ids_ofByte_nodup
  have halgorithm : ∀ k ∈ [other, a, b], k.algorithm = .aes256Xts := by
    simp only [List.forall_mem_cons]
    exact ⟨Key.algorithm_ofByte 0, Key.algorithm_ofByte 1, Key.algorithm_ofByte 2, nofun⟩
  have hkeys : ∀ k ∈ r.keys ++ [a, b], k ∈ [other, a, b] := by simp [r]
  refine ⟨hreachable, hrun, (installed_iff hreachable hrun).2.2 fun k hk held hheld _ => ?_⟩
  rw [halgorithm k (hkeys k (List.mem_append_right _ hk)), halgorithm held (hkeys held hheld)]

/-- A key of the identifier and the secret of the only one that is there is passed over. -/
theorem add_of_same (hid : held.id = key.id) (hsecret : held.secret = key.secret)
    (bindings : OrderedMap (List Part) (Path × KeyId)) :
    (⟨[held], bindings⟩ : Keyring).add key = .ok ⟨[held], bindings⟩ := by
  simp [Keyring.add, find?, hid, Key.isSame, Key.sameSecret, hsecret]

/-- A key for one cipher, and the key of the same secret for another cipher. -/
def namesakes : Key × Key :=
  let secret : Secret := ⟨List.replicate secretSize 1, rfl⟩
  (.ofSecret .aes256Xts secret, .ofSecret .camellia256Xts secret)

/-- The chain of the other key is installed, and its algorithm is not there. -/
theorem install_drops_algorithm :
    let r := ((KeyringCall.add namesakes.1).act.run empty).2
    r.Reachable ∧ (install (.single namesakes.2)).run r = (.ok 1, r) ∧
      ¬ ∀ k ∈ (Chain.single namesakes.2).keys, ∃ held ∈ r.keys,
        held.id = k.id ∧ held.secret = k.secret ∧ held.algorithm = k.algorithm := by
  intro r
  have hkeys : r = ⟨[namesakes.1], OrderedMap.empty⟩ := rfl
  have hsecret : namesakes.1.secret = namesakes.2.secret := by decide
  have hid : namesakes.1.id = namesakes.2.id := by
    simp only [namesakes, Key.secret_ofSecret] at hsecret
    simp only [namesakes, Key.id_ofSecret, hsecret]
  have hadd : r.add namesakes.2 = .ok r := add_of_same hid hsecret _
  have hrun : (installKeys adding (Chain.single namesakes.2).keys).run r = (.ok (), r) :=
    run_installKeys_cons_ok hadd []
  refine ⟨.call _ .empty, run_install_of_keys hrun, fun hall => ?_⟩
  obtain ⟨held, hheld, -, -, halgorithm⟩ := hall namesakes.2 List.mem_cons_self
  rw [hkeys, List.mem_singleton] at hheld
  rw [hheld] at halgorithm
  cases halgorithm

end Keyring

end KeyChain
