import KeyChain.Proofs.LinkCodec
import KeyChain.Proofs.VaultRuns
/-! Keys that come out of links, and keys that are built. A link says a whole secret, and the identifier is
   checked against all of it; a key that is built has only the bytes that its cipher uses, and its identifier
   is derived from these. The two agree exactly if the other bytes are zero.

   1. `FixedBytes.clearFrom_eq_iff`: clearing changes nothing exactly if there are zeros already;
   2. `Link.rebuilt_iff`: so a key out of a link is built again as it is exactly if its secret is clean;
   3. `VaultKeyring.run_filed`: what a vault gives back is the key that is built;
   4. `Link.decrypted_kept_iff`: so a key out of a link is kept by a vault exactly if its secret is clean. -/
namespace KeyChain

theorem FixedBytes.clearFrom_eq_iff {n keep : Nat} {b : FixedBytes n} :
    b.clearFrom keep = b ↔ ∀ x ∈ b.bytes.drop keep, x = 0 := by
  have hzeros : (∀ x ∈ b.bytes.drop keep, x = 0) ↔ b.bytes.drop keep = List.replicate (n - keep) 0 := by
    rw [List.eq_replicate_iff, List.length_drop, b.length_eq]
    simp
  have hparts : b.bytes.take keep ++ b.bytes.drop keep = b.bytes := List.take_append_drop ..
  rw [hzeros]
  constructor
  · intro h
    have hbytes : b.bytes.take keep ++ List.replicate (n - keep) 0 = b.bytes := congrArg FixedBytes.bytes h
    exact List.append_cancel_left (hparts.trans hbytes.symm)
  · intro h
    rw [h] at hparts
    exact FixedBytes.ext hparts

namespace Key

/-- Whether the bytes of the secret that the cipher does not use are zero. -/
def Clean (k : Key) : Prop := ∀ x ∈ k.secret.bytes.drop k.algorithm.keyLength, x = 0

variable {k : Key}

theorem isValid_of_cipher (h : k.isTerminal = false) : k.algorithm.isValid = true := by
  simpa [isTerminal] using h

theorem trim_secret_iff (h : k.isTerminal = false) : k.algorithm.trim k.secret = k.secret ↔ k.Clean := by
  rw [Algorithm.trim, if_pos (isValid_of_cipher h), Clean]
  exact FixedBytes.clearFrom_eq_iff

/-- A cipher that uses the whole secret leaves nothing to be cleared. -/
theorem clean_of_whole (h : k.algorithm.keyLength = secretSize) : k.Clean := by
  have hlength : k.secret.bytes.length = k.algorithm.keyLength := k.secret.length_eq.trans h.symm
  intro x hx
  rw [List.drop_eq_nil_of_le (Nat.le_of_eq hlength)] at hx
  cases hx

end Key

namespace Link

variable {parent k : Key} {b : Bytes}

/-- The identifier of a key out of a link is that of its whole secret. -/
theorem id_of_decrypt (h : decrypt parent b = .ok k) (hcipher : k.isTerminal = false) :
    k.id = k.secret.keyId ∧ k.index = none := by
  obtain ⟨nonce, -, rfl⟩ := encryptWith_of_decrypt h
  rw [decrypt_encryptWith_eq] at h
  split at h
  · cases h
  · next hmatch =>
    rw [not_and, Classical.not_not] at hmatch
    refine ⟨(hmatch (Key.isValid_of_cipher hcipher)).symm, ?_⟩
    rw [← Except.ok.inj h]

/-- A key out of a link is built again as it is exactly if its secret is clean. -/
theorem rebuilt_iff (h : decrypt parent b = .ok k) (hcipher : k.isTerminal = false) :
    k = Key.ofSecret k.algorithm k.secret ↔ k.Clean := by
  obtain ⟨hid, hindex⟩ := id_of_decrypt h hcipher
  rw [← Key.trim_secret_iff hcipher]
  constructor
  · intro hk
    exact (congrArg Key.secret hk).symm
  · intro htrim
    rw [Key.ofSecret, htrim, ← hid, ← hindex]

end Link

theorem Keyring.pathKey?_single (key : Key) (path : Path) :
    (⟨[key], OrderedMap.empty.insert path.parts (path, key.id)⟩ : Keyring).pathKey? path =
      some (key.withIndex 0) := by
  have hslot : (OrderedMap.empty.insert path.parts (path, key.id)).get? path.parts = some (path, key.id) := by
    rw [OrderedMap.get?_insert, if_pos Std.ReflCmp.compare_self]
  have hindex : (⟨[key], OrderedMap.empty.insert path.parts (path, key.id)⟩ : Keyring).indexOf? key.id = some 0 := by
    simp [indexOf?]
  rw [pathKey?, hslot, Option.bind_some]
  dsimp only
  rw [hindex]
  rfl

namespace KeyringEntry

variable {k rebuilt : Key}

/-- The keyring of an entry with a key and a binding to the identifier that the key had when it was written.
    A binding to another identifier than that of the key is passed over. -/
theorem restore_single (hread : readKey (stored k) = .ok rebuilt) (path : Path) :
    restore ⟨[stored k], [bound (path, k.id)]⟩ =
      .ok ⟨[rebuilt],
        if rebuilt.id = k.id then OrderedMap.empty.insert path.parts (path, k.id) else OrderedMap.empty⟩ := by
  have hkeys : restoreKeys Keyring.empty [stored k] = .ok ⟨[rebuilt], OrderedMap.empty⟩ := by
    rw [restoreKeys, hread]
    rfl
  rw [restore, hkeys]
  dsimp only
  rw [bound, restorePaths, KeyId.ofHex?_toHex]
  by_cases hid : rebuilt.id = k.id
  · have hfind : (⟨[rebuilt], OrderedMap.empty⟩ : Keyring).find? k.id = some rebuilt := by simp [Keyring.find?, hid]
    have hbind : (⟨[rebuilt], OrderedMap.empty⟩ : Keyring).bindPath path rebuilt =
        .ok ⟨[rebuilt], OrderedMap.empty.insert path.parts (path, k.id)⟩ := by
      rw [Keyring.bindPath, hid, hfind]
      rfl
    simp only [hfind, hbind, restorePaths, if_pos hid]
  · have hfind : (⟨[rebuilt], OrderedMap.empty⟩ : Keyring).find? k.id = none := by simp [Keyring.find?, hid]
    simp only [hfind, restorePaths, if_neg hid]

end KeyringEntry

namespace VaultKeyring

variable {m : Machine} {k rebuilt : Key}

/-- A key is added to a keyring without keys, and a path is bound to it. A new connection gives the key that its
    item in the entry is read as; the binding is lost if that has another identifier. -/
theorem run_filed (hread : KeyringEntry.readKey (KeyringEntry.stored k) = .ok rebuilt)
    (hfaultless : m.vaultFaults = {}) (root : String) (path : Path) :
    ∃ m', ((⟨root, Keyring.empty⟩ : VaultKeyring).calls [.add k, .bindPath path k]).run m =
        (([.ok (), .ok ()], ⟨root, [k], OrderedMap.empty.insert path.parts (path, k.id)⟩), m') ∧
      (connect root).run m' = (.ok ⟨root, [rebuilt],
        if rebuilt.id = k.id then OrderedMap.empty.insert path.parts (path, k.id) else OrderedMap.empty⟩, m') := by
  let added : Keyring := ⟨[k], OrderedMap.empty⟩
  let bound : Keyring := ⟨[k], OrderedMap.empty.insert path.parts (path, k.id)⟩
  have hbound : added.bindPath path k = .ok bound := by
    have hfind : added.find? k.id = some k := by simp [added, Keyring.find?]
    rw [Keyring.bindPath, hfind]
    rfl
  obtain ⟨m₁, hadd, hfaultless₁, -⟩ := run_commit hfaultless ⟨root, Keyring.empty⟩ added
  obtain ⟨m₂, hbind, hfaultless₂, hentry⟩ := run_commit hfaultless₁ ⟨root, added⟩ bound
  have hcall₁ : ((⟨root, Keyring.empty⟩ : VaultKeyring).call (.add k)).run m = ((.ok (), ⟨root, added⟩), m₁) := hadd
  have hcall₂ : ((⟨root, added⟩ : VaultKeyring).call (.bindPath path k)).run m₁ = ((.ok (), ⟨root, bound⟩), m₂) := by
    rw [call_eq, KeyringCall.change, hbound]
    exact hbind
  refine ⟨m₂, run_calls_cons hcall₁ (run_calls_cons hcall₂ rfl), ?_⟩
  rw [run_connect hfaultless₂, hentry, if_neg (List.cons_ne_nil _ _), kept, KeyringEntry.ofText?_text]
  show (Except.map _ (KeyringEntry.restore ⟨[KeyringEntry.stored k], [KeyringEntry.bound (path, k.id)]⟩), m₂) = _
  rw [KeyringEntry.restore_single hread path]
  rfl

end VaultKeyring

namespace Link

open VaultKeyring

variable {parent k : Key} {b : Bytes}

/-- What becomes of a key of a cipher that a link gives. Its identifier is that of its whole secret. It is a key
    as they are built exactly if its secret is clean, which it always is for a cipher that uses all of it.
    Filed in a vault, it is built again from its algorithm and its secret when the vault is opened again. So
    it keeps its identifier, its secret and the paths that are bound to it if its secret is clean, and comes
    back as another key if not. -/
theorem decrypted_kept_iff (h : decrypt parent b = .ok k) (hcipher : k.isTerminal = false) :
    let rebuilt := Key.ofSecret k.algorithm k.secret
    k.id = k.secret.keyId ∧ k.index = none ∧ (k = rebuilt ↔ k.Clean) ∧
      (k.algorithm.keyLength = secretSize → k.Clean) ∧
      KeyringEntry.readKey (KeyringEntry.stored k) = .ok rebuilt ∧
      ∀ (m : Machine) (root : String) (path : Path), m.vaultFaults = {} →
        ∃ live fresh m', ((⟨root, Keyring.empty⟩ : VaultKeyring).calls [.add k, .bindPath path k]).run m =
            (([.ok (), .ok ()], live), m') ∧
          live.keyring.keys = [k] ∧ live.keyring.pathKey? path = some (k.withIndex 0) ∧
          (connect root).run m' = (.ok fresh, m') ∧ fresh.keyring.keys = [rebuilt] ∧
          fresh.keyring.pathKey? path = (if rebuilt.id = k.id then some (rebuilt.withIndex 0) else none) ∧
          (fresh = live ↔ k.Clean) := by
  intro rebuilt
  obtain ⟨hid, hindex⟩ := id_of_decrypt h hcipher
  have hclean : k = rebuilt ↔ k.Clean := rebuilt_iff h hcipher
  have hread : KeyringEntry.readKey (KeyringEntry.stored k) = .ok rebuilt :=
    KeyringEntry.readKey_rebuilt (Key.isValid_of_cipher hcipher)
  -- Nothing below looks at how the key was built.
  clear_value rebuilt
  refine ⟨hid, hindex, hclean, Key.clean_of_whole, hread, fun m root path hfaultless => ?_⟩
  obtain ⟨m', hcalls, hconnect⟩ := run_filed hread hfaultless root path
  refine ⟨_, _, m', hcalls, rfl, Keyring.pathKey?_single k path, hconnect, rfl, ?_, ?_⟩
  · by_cases hsame : rebuilt.id = k.id
    · rw [if_pos hsame, if_pos hsame, ← hsame]
      exact Keyring.pathKey?_single rebuilt path
    · rw [if_neg hsame, if_neg hsame]
      rfl
  · rw [← hclean]
    constructor
    · intro hfresh
      have hkeys : [rebuilt] = [k] := congrArg (fun v : VaultKeyring => v.keyring.keys) hfresh
      exact (List.cons.inj hkeys).1.symm
    · intro hk
      rw [← hk, if_pos rfl]

/-- A key of a cipher that uses half of the secret, with zeros in the other half. -/
theorem decrypted_kept_iff_half :
    let parent := Key.ofSecret .aes256Xts (.zero secretSize)
    let k := Key.ofSecret .aes128Xts (.zero secretSize)
    let m := Machine.new Disk.empty
    decrypt parent (encryptWith (.zero 24) parent k).bytes = .ok k ∧ k.isTerminal = false ∧ k.Clean ∧
      m.vaultFaults = {} ∧
      ∃ live m', ((⟨"/", Keyring.empty⟩ : VaultKeyring).calls [.add k, .bindPath ⟨"/a"⟩ k]).run m =
          (([.ok (), .ok ()], live), m') ∧
        live.keyring.keys = [k] ∧ (connect "/").run m' = (.ok live, m') := by
  intro parent k m
  have hsound : k.Sound := Key.sound_ofSecret _ _
  have hcipher : k.isTerminal = false := rfl
  have hbuilt : k = Key.ofSecret k.algorithm k.secret := (Key.ofSecret_secret _ _).symm
  have hdecrypt : decrypt parent (encryptWith (.zero 24) parent k).bytes = .ok k :=
    decrypt_encryptWith (.zero 24) parent hsound
  obtain ⟨-, -, hclean, -, -, hfiled⟩ := decrypted_kept_iff hdecrypt hcipher
  have hk : k.Clean := hclean.1 hbuilt
  obtain ⟨live, fresh, m', hcalls, hkeys, -, hconnect, -, -, hsame⟩ := hfiled m "/" ⟨"/a"⟩ rfl
  rw [hsame.2 hk] at hconnect
  exact ⟨hdecrypt, hcipher, hk, rfl, live, m', hcalls, hkeys, hconnect⟩

/-- A key of such a cipher with other bytes in that half. A link gives it, and a vault that it is filed in gives
    another secret when it is opened again. -/
theorem decrypt_unclean :
    let parent := Key.ofSecret .aes256Xts ⟨List.replicate 64 1, rfl⟩
    let secret : Secret := ⟨List.replicate 64 2, rfl⟩
    let k : Key := ⟨secret.keyId, .aes128Xts, secret, none⟩
    let rebuilt := Key.ofSecret .aes128Xts secret
    decrypt parent (encryptWith (.zero 24) parent k).bytes = .ok k ∧ k.isTerminal = false ∧ k ≠ rebuilt ∧
      ∃ live fresh m', ((⟨"/", Keyring.empty⟩ : VaultKeyring).calls [.add k, .bindPath ⟨"/a"⟩ k]).run
          (Machine.new Disk.empty) = (([.ok (), .ok ()], live), m') ∧
        live.keyring.keys = [k] ∧ (connect "/").run m' = (.ok fresh, m') ∧ fresh.keyring.keys = [rebuilt] := by
  intro parent secret k rebuilt
  have hsecret : secret ≠ Algorithm.aes128Xts.trim secret := by decide
  have hne : k ≠ rebuilt := fun he => hsecret (congrArg Key.secret he)
  have hread : KeyringEntry.readKey (KeyringEntry.stored k) = .ok rebuilt := KeyringEntry.readKey_rebuilt rfl
  have hdecrypt : decrypt parent (encryptWith (.zero 24) parent k).bytes = .ok k :=
    decrypt_encryptWith (.zero 24) parent (.inr rfl)
  obtain ⟨m', hcalls, hconnect⟩ := @run_filed (Machine.new Disk.empty) _ _ hread rfl "/" ⟨"/a"⟩
  exact ⟨hdecrypt, rfl, hne, _, _, m', hcalls, rfl, hconnect, rfl⟩

end Link

end KeyChain
