import KeyChain.Key.Derive
import KeyChain.Machine
import KeyChain.Proofs.LinkedKeys
import KeyChain.Proofs.RootFiles
/-! What a derived key depends on. The checks come first and read nothing; after them the passphrase, the content
   of the keyfile and the stretching cost are all that counts, so the keyfile may stand anywhere.

   1. `KeyParams.validate_ok_iff`, `KeyParams.validate_moved`: what the checks ask for; of the keyfile only that
      there is one;
   2. `Key.run_load`: a derivation reads the keyfile and leaves the machine as it was;
   3. `Key.derive_eq`, `Key.derive_ok_iff`: the steps of a derivation, and when there is a key and which it is;
   4. `Key.exists_ofSecret_of_derive`: the key is built for the algorithm that was asked for;
   5. `Key.load_determined`: what rules the result, and the form of the key. -/
namespace KeyChain

theorem except_bind_ok_iff {ε α β : Type} {x : Except ε α} {f : α → Except ε β} {b : β} :
    (x >>= f) = .ok b ↔ ∃ a, x = .ok a ∧ f a = .ok b := by
  constructor
  · intro h
    cases x with
    | error e => cases h
    | ok a => exact ⟨a, rfl, h⟩
  · rintro ⟨a, rfl, h⟩
    exact h

namespace KeyParams

variable {p : KeyParams} {place : Option Path} {content : Option Bytes} {m : Machine}

theorem validate_ok_iff {checked : Checked} :
    p.validate = .ok checked ↔
      0 < p.iterations ∧ p.iterations < UInt32.size ∧ Algorithm.ofName? p.algorithm = some checked.algorithm ∧
        (p.noPassphrase = true → p.keyfile.isSome = true) ∧ checked.time = UInt32.ofNat p.iterations.toNat := by
  unfold validate
  simp only [bind, Except.bind, pure, Except.pure, throw, throwThe, MonadExceptOf.throw]
  by_cases hpositive : p.iterations ≤ 0
  · rw [if_pos hpositive]
    exact iff_of_false (fun h => by cases h) fun h => absurd hpositive (Int.not_le.2 h.1)
  by_cases hsize : (UInt32.size : Int) ≤ p.iterations
  · rw [if_neg hpositive, if_pos hsize]
    exact iff_of_false (fun h => by cases h) fun h => absurd hsize (Int.not_le.2 h.2.1)
  have hrange : 0 < p.iterations ∧ p.iterations < UInt32.size := ⟨Int.not_le.1 hpositive, Int.not_le.1 hsize⟩
  rw [if_neg hpositive, if_neg hsize, ← and_assoc, and_iff_right hrange]
  cases Algorithm.ofName? p.algorithm with
  | none => exact iff_of_false (fun h => by cases h) fun h => by cases h.1
  | some a =>
    obtain ⟨algorithm, time⟩ := checked
    cases p.noPassphrase <;> cases p.keyfile <;> simp [eq_comm]

/-- Where the keyfile stands does not count for the checks, only whether there is one. -/
theorem validate_moved (h : p.keyfile.isSome = place.isSome) :
    ({ p with keyfile := place } : KeyParams).validate = p.validate := by
  have hnone : place.isNone = p.keyfile.isNone := by rw [← Option.not_isSome, ← Option.not_isSome, h]
  unfold validate
  dsimp only
  rw [hnone]

/-- What is read where the keyfile stands, if there is one. -/
def keyfileOn (p : KeyParams) (m : Machine) : Option (Except SystemError Bytes) :=
  p.keyfile.map fun path => ((Program.read path).run m).1

/-- The content of the keyfile, if there is one. -/
def contentOf (p : KeyParams) (keyfile : Option (Except SystemError Bytes)) : Except KeychainError (Option Bytes) :=
  match p.keyfile, keyfile with
  | some _, some (.ok content) => .ok (some content)
  | some path, some (.error cause) => .error (.usage (.unreadableKeyfile path cause))
  | _, _ => .ok none

theorem contentOf_keyfileOn_iff : p.contentOf (p.keyfileOn m) = .ok content ↔ p.keyfileOn m = content.map .ok := by
  unfold contentOf keyfileOn
  cases p.keyfile with
  | none => cases content <;> simp
  | some path =>
    rw [Option.map_some]
    rcases ((Program.read path).run m).1 with cause | b <;> cases content <;> simp

theorem isSome_of_keyfileOn (h : p.keyfileOn m = content.map .ok) : p.keyfile.isSome = content.isSome := by
  have hsome := congrArg Option.isSome h
  rwa [keyfileOn, Option.isSome_map, Option.isSome_map] at hsome

/-- The last step: the material is stretched, if the cost can be paid. -/
def stretched (p : KeyParams) (checked : Checked) (material : Bytes) : Except KeychainError Key :=
  match p.cost? checked.time with
  | .error fault => .error (.usage (.cost fault))
  | .ok cost => .ok (Key.stretch checked.algorithm cost material)

theorem stretched_ok_iff {checked : Checked} {material : Bytes} {k : Key} :
    p.stretched checked material = .ok k ↔
      ∃ cost, p.cost? checked.time = .ok cost ∧ Key.stretch checked.algorithm cost material = k := by
  unfold stretched
  cases p.cost? checked.time with
  | error fault => simp
  | ok cost => simp

end KeyParams

/-- A file in the root directory of a disk. -/
theorem Disk.read_below_slash {n : String} (hplain : PlainName n)
    (hsize : (Path.join ⟨"/"⟩ n).text.utf8ByteSize ≤ maxPathSize) (serial : Nat) (content : Bytes) :
    (Disk.empty.put ⟨[n]⟩ (.file serial content)).read (Path.join ⟨"/"⟩ n) = .ok content := by
  have hnode : (Disk.empty.put ⟨[n]⟩ (.file serial content)).node? (Location.root.child n) =
      some (.file serial content) :=
    (node?_put _ _ _ _ (child_ne_root Location.root n)).trans (if_pos rfl)
  have hfree : (Disk.empty.put ⟨[n]⟩ (.file serial content)).IsFree (Location.root.child n) := .inr ⟨_, _, hnode⟩
  rw [read_free (locate_child (locate_slash _) hplain hsize hfree.not_link .target) hfree, content?, hnode]

namespace Key

variable {p : KeyParams} {passphrase : Option String} {keyfile : Option (Except SystemError Bytes)} {m : Machine}
  {k : Key}

/-- A derivation reads the keyfile and changes nothing. -/
theorem run_load (p : KeyParams) (passphrase : Option String) (m : Machine) :
    (load p passphrase).run m = (derive p passphrase (p.keyfileOn m), m) := by
  unfold load KeyParams.keyfileOn
  cases p.keyfile with
  | none => rfl
  | some path => rfl

/-- The steps of a derivation, each of which can find a fault. -/
theorem derive_eq (p : KeyParams) (passphrase : Option String) (keyfile : Option (Except SystemError Bytes)) :
    derive p passphrase keyfile =
      (p.validate >>= fun checked => p.passphraseBytes passphrase >>= fun bytes =>
        p.contentOf keyfile >>= fun content => p.stretched checked (keyingMaterial bytes content)) := by
  unfold derive KeyParams.contentOf
  cases p.validate with
  | error e => rfl
  | ok checked =>
    cases p.passphraseBytes passphrase with
    | error e => rfl
    | ok bytes =>
      cases p.keyfile with
      | none => rfl
      | some path => rcases keyfile with _ | cause | content <;> rfl

/-- There is a key exactly if the checks are passed, there is a passphrase if one counts, the keyfile can be read and
    the cost can be paid. -/
theorem derive_ok_iff :
    derive p passphrase keyfile = .ok k ↔
      ∃ checked bytes content cost, p.validate = .ok checked ∧ p.passphraseBytes passphrase = .ok bytes ∧
        p.contentOf keyfile = .ok content ∧ p.cost? checked.time = .ok cost ∧
          stretch checked.algorithm cost (keyingMaterial bytes content) = k := by
  simp only [derive_eq, except_bind_ok_iff, KeyParams.stretched_ok_iff]
  constructor
  · rintro ⟨checked, hchecked, bytes, hbytes, content, hcontent, cost, hcost, hk⟩
    exact ⟨checked, bytes, content, cost, hchecked, hbytes, hcontent, hcost, hk⟩
  · rintro ⟨checked, bytes, content, cost, hchecked, hbytes, hcontent, hcost, hk⟩
    exact ⟨checked, hchecked, bytes, hbytes, content, hcontent, cost, hcost, hk⟩

/-- A key that comes out of a derivation is built for the algorithm of the checks. -/
theorem exists_ofSecret_of_derive (h : derive p passphrase keyfile = .ok k) :
    ∃ a secret, a.isValid = true ∧ Algorithm.ofName? p.algorithm = some a ∧ k = ofSecret a secret := by
  obtain ⟨checked, bytes, content, cost, hchecked, -, -, -, hk⟩ := derive_ok_iff.1 h
  obtain ⟨-, -, hname, -⟩ := KeyParams.validate_ok_iff.1 hchecked
  exact ⟨checked.algorithm, _, Algorithm.isValid_of_ofName? hname, hname, hk.symm⟩

theorem isDerived_of_derive (h : derive p passphrase keyfile = .ok k) : k.IsDerived := by
  obtain ⟨a, secret, hvalid, -, rfl⟩ := exists_ofSecret_of_derive h
  exact ⟨a, secret, hvalid, rfl⟩

/-- A key that is built for a cipher has nothing in the bytes that the cipher does not use, and is built again from
    what it says. -/
theorem wellFormed_ofSecret {a : Algorithm} (ha : a.isValid = true) (secret : Secret) :
    (ofSecret a secret).Clean ∧ (ofSecret a secret).id = (ofSecret a secret).secret.keyId ∧
      ofSecret (ofSecret a secret).algorithm (ofSecret a secret).secret = ofSecret a secret := by
  have hcipher : (ofSecret a secret).isTerminal = false := by rw [isTerminal, algorithm_ofSecret, ha]; rfl
  exact ⟨(trim_secret_iff hcipher).1 (trim_trim a secret), rfl, ofSecret_secret a secret⟩

/-- What a derivation depends on, and what it gives. A fault of the checks is the result, whatever the passphrase and
    the keyfile are; a passphrase that is suppressed does not count, nor does the place of a keyfile; and a key has
    the algorithm that was asked for, no place in a keyring, and the secret and identifier it is built again from. -/
theorem load_determined (p : KeyParams) :
    (∀ e, p.validate = .error e → ∀ passphrase m, (load p passphrase).run m = (.error e, m)) ∧
    (p.noPassphrase = true → ∀ passphrase passphrase', load p passphrase = load p passphrase') ∧
    (∀ place passphrase m m' (content : Option Bytes), p.keyfileOn m = content.map .ok →
      ({ p with keyfile := place } : KeyParams).keyfileOn m' = content.map .ok →
        ((load p passphrase).run m).1 = ((load { p with keyfile := place } passphrase).run m').1) ∧
    ∀ passphrase m k, ((load p passphrase).run m).1 = .ok k →
      k.algorithm.isValid = true ∧ k.algorithm.name = p.algorithm ∧ k.index = none ∧ k.Clean ∧
        k.id = k.secret.keyId ∧ ofSecret k.algorithm k.secret = k := by
  refine ⟨fun e he passphrase m => ?_, fun hnone passphrase passphrase' => ?_,
    fun place passphrase m m' content hcontent hmoved => ?_, fun passphrase m k hk => ?_⟩
  · rw [run_load, derive_eq, he]
    rfl
  · have hbytes : p.passphraseBytes passphrase = p.passphraseBytes passphrase' :=
      (if_pos hnone).trans (if_pos hnone).symm
    have hderive : derive p passphrase = derive p passphrase' := by
      funext keyfile
      rw [derive_eq, derive_eq, hbytes]
    rw [load, load, hderive]
  · have hplace : p.keyfile.isSome = place.isSome :=
      (KeyParams.isSome_of_keyfileOn hcontent).trans (KeyParams.isSome_of_keyfileOn hmoved).symm
    rw [run_load, run_load, derive_eq, derive_eq, KeyParams.validate_moved hplace,
      KeyParams.contentOf_keyfileOn_iff.2 hcontent, KeyParams.contentOf_keyfileOn_iff.2 hmoved]
    rfl
  · rw [run_load] at hk
    obtain ⟨a, secret, hvalid, hname, rfl⟩ := exists_ofSecret_of_derive hk
    obtain ⟨hclean, hid, hagain⟩ := wellFormed_ofSecret hvalid secret
    have hfound := List.find?_some hname
    exact ⟨hvalid, beq_iff_eq.1 hfound, rfl, hclean, hid, hagain⟩

/-- A keyfile that stands at two places on two disks gives one key, for which the other half of the secret is zero;
    without passes of the stretching function there is none. -/
theorem load_determined_twoDisks :
    let p : KeyParams := ⟨"aes128-xts", 1, some ⟨"/a"⟩, true, 8, 1⟩
    let m := Machine.new (Disk.empty.put ⟨["a"]⟩ (.file 0 [1, 2, 3]))
    let m' := Machine.new (Disk.empty.put ⟨["b"]⟩ (.file 0 [1, 2, 3]))
    (load { p with iterations := 0 } none).run m = (.error (.usage (.iterationsNotPositive 0)), m) ∧
      load p none = load p (some "alpha") ∧
      ∃ k, ((load p none).run m).1 = .ok k ∧
        ((load { p with keyfile := some ⟨"/b"⟩ } none).run m').1 = .ok k ∧ k.algorithm = .aes128Xts ∧
        (∀ x ∈ k.secret.bytes.drop 32, x = 0) ∧ ofSecret .aes128Xts k.secret = k := by
  intro p m m'
  have hfile : p.keyfileOn m = (some [1, 2, 3]).map .ok :=
    congrArg some (Disk.read_below_slash (by unfold Disk.PlainName; decide) (by decide) 0 [1, 2, 3])
  have hfile' : ({ p with keyfile := some ⟨"/b"⟩ } : KeyParams).keyfileOn m' = (some [1, 2, 3]).map .ok :=
    congrArg some (Disk.read_below_slash (by unfold Disk.PlainName; decide) (by decide) 0 [1, 2, 3])
  have hvalid : p.validate = .ok ⟨.aes128Xts, 1⟩ := by decide
  have hinvalid : ({ p with iterations := 0 } : KeyParams).validate =
      .error (.usage (.iterationsNotPositive 0)) := by decide
  obtain ⟨k, hk⟩ : ∃ k, ((load p none).run m).1 = .ok k := by
    rw [run_load]
    exact ⟨_, derive_ok_iff.2 ⟨_, [], some [1, 2, 3], ⟨1, 8, 1⟩, hvalid, rfl,
      KeyParams.contentOf_keyfileOn_iff.2 hfile, by decide, rfl⟩⟩
  obtain ⟨-, hsuppressed, hmoved, hform⟩ := load_determined p
  obtain ⟨-, hname, -, hclean, -, hagain⟩ := hform none m k hk
  have halgorithm : k.algorithm = .aes128Xts := by
    revert hname
    cases k.algorithm <;> decide
  rw [Clean, halgorithm] at hclean
  exact ⟨(load_determined { p with iterations := 0 }).1 _ hinvalid none m, hsuppressed rfl none (some "alpha"), k, hk,
    (hmoved (some ⟨"/b"⟩) none m m' _ hfile hfile').symm.trans hk, halgorithm, hclean, halgorithm ▸ hagain⟩

end Key

end KeyChain
