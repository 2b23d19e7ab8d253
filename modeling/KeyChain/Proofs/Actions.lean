import KeyChain.Command.Run
import KeyChain.Proofs.Footprints
/-! Actions: what they can do, whatever the responses are, and how they go on a machine. An action that fails
   skips the rest.

   1. `runOn_bind`: how one action goes on from another; `runOn_bind_ok` takes a run apart that has ended well;
   2. `Uses`, `FailsOnly`, `Gives`: what an action can ask for, fail with and give, and that of two actions in a row;
   3. `readKey_inquires` and others: what commands begin with leaves everything as it is;
   4. `readKey_fails` and others: with what it can fail;
   5. `run_runArguments`: how a line of arguments goes. -/
namespace KeyChain

/-- Requests that ask for something and leave everything as it is. -/
def Request.IsInquiry : Request → Prop
  | realPath _ | isPresent _ | isDirectory _ | read _ | prompt _ => True
  | _ => False

/-- Inquiries leave a machine as it is, but for what is typed. -/
theorem Program.Uses.run_inquiry {α : Type} {p : Program α} (hp : p.Uses Request.IsInquiry) (m : Machine) :
    ∃ answers prompts, (p.run m).2 = { m with answers := answers, prompts := prompts } := by
  have hstep : ∀ r m', Request.IsInquiry r →
      (∃ answers prompts, m' = { m with answers := answers, prompts := prompts }) →
        ∃ answers prompts, (m'.answer r).2 = { m with answers := answers, prompts := prompts } := by
    intro r m' hr hm
    obtain ⟨answers, prompts, rfl⟩ := hm
    cases r with
    | realPath | isPresent | isDirectory | read => exact ⟨answers, prompts, rfl⟩
    | prompt text => exact ⟨answers.tail, prompts ++ [text], rfl⟩
    | _ => exact hr.elim
  exact hp.run hstep ⟨m.answers, m.prompts, rfl⟩

namespace Action

variable {α β : Type} {m m₁ m' : Machine}

/-- Runs an action on a machine. -/
def runOn (p : Action α) (m : Machine) : Except Failure α × Machine := Program.run (ExceptT.run p) m

theorem runOn_bind (p : Action α) (f : α → Action β) (m : Machine) :
    (p >>= f).runOn m =
      match p.runOn m with
      | (.ok a, m₁) => (f a).runOn m₁
      | (.error e, m₁) => (.error e, m₁) := by
  have hrun : (p >>= f).runOn m = Program.run (ExceptT.bindCont f (p.runOn m).1) (p.runOn m).2 :=
    Program.run_bind ..
  rw [hrun]
  obtain ⟨outcome, m₁⟩ := p.runOn m
  cases outcome <;> rfl

theorem runOn_bind_of_ok {p : Action α} {a : α} (h : p.runOn m = (.ok a, m₁)) (f : α → Action β) :
    (p >>= f).runOn m = (f a).runOn m₁ := by
  rw [runOn_bind, h]

theorem runOn_bind_of_error {p : Action α} {e : Failure} (h : p.runOn m = (.error e, m₁)) (f : α → Action β) :
    (p >>= f).runOn m = (.error e, m₁) := by
  rw [runOn_bind, h]

/-- What two actions end well with, the first has ended well for. -/
theorem runOn_bind_ok {p : Action α} {f : α → Action β} {b : β} (h : (p >>= f).runOn m = (.ok b, m')) :
    ∃ a m₁, p.runOn m = (.ok a, m₁) ∧ (f a).runOn m₁ = (.ok b, m') := by
  rw [runOn_bind] at h
  split at h
  · next a m₁ hp => exact ⟨a, m₁, hp, h⟩
  · cases h

@[simp] theorem runOn_pure (a : α) (m : Machine) : (pure a : Action α).runOn m = (.ok a, m) := rfl

@[simp] theorem runOn_always (p : Program α) (m : Machine) :
    (always p).runOn m = (.ok (p.run m).1, (p.run m).2) := Program.run_bind ..

@[simp] theorem runOn_attempt (p : Program (Except KeychainError α)) (m : Machine) :
    (attempt p).runOn m = ((p.run m).1.mapError Failure.keychain, (p.run m).2) := Program.run_bind ..

@[simp] theorem runOn_during (task : Task) (p : Program (Except KeychainError α)) (m : Machine) :
    (during task p).runOn m = ((p.run m).1.mapError (Failure.during task), (p.run m).2) := Program.run_bind ..

theorem run_of_runOn_always {p : Program α} {a : α} (h : (always p).runOn m = (.ok a, m')) : p.run m = (a, m') := by
  rw [runOn_always] at h
  cases h
  rfl

/-- A result that is raised is a good one, if what follows is reached. -/
theorem ok_of_runOn_raise {task : Task} {result : Except KeychainError α} {a : α}
    (h : (during task (return result)).runOn m = (.ok a, m')) : result = .ok a ∧ m' = m := by
  rw [runOn_during] at h
  cases result with
  | error e => cases h
  | ok a' => cases h; exact ⟨rfl, rfl⟩

/-- What follows a change is reached only if the change succeeded. -/
theorem runOn_raised_ok {σ : Type} {p : Program (Except KeychainError α × σ)} {task : Task}
    {f : Except KeychainError α × σ → α → Action β} {b : β}
    (h : (always p >>= fun outcome => during task (return outcome.1) >>= f outcome).runOn m = (.ok b, m')) :
    ∃ a s m₁, p.run m = ((.ok a, s), m₁) ∧ (f (.ok a, s) a).runOn m₁ = (.ok b, m') := by
  obtain ⟨⟨result, s⟩, m₁, hchanged, h₁⟩ := runOn_bind_ok h
  obtain ⟨a, m₂, hraised, h₂⟩ := runOn_bind_ok h₁
  obtain ⟨rfl, rfl⟩ := ok_of_runOn_raise hraised
  exact ⟨a, s, m₂, run_of_runOn_always hchanged, h₂⟩

@[simp] theorem runOn_ofResult (result : Except KeychainError α) (m : Machine) :
    (ofResult result).runOn m = (result.mapError Failure.keychain, m) := rfl

/-! What actions ask for. -/

/-- Whether all requests that an action can make are of a kind. -/
def Uses (allowed : Request → Prop) (p : Action α) : Prop := p.run.Uses allowed

variable {allowed : Request → Prop} {p : Action α} {f : α → Action β}

theorem uses_pure (a : α) : Uses allowed (pure a : Action α) := Program.Uses.pure _

theorem uses_throw (e : Failure) : Uses allowed (throw e : Action α) := Program.Uses.pure _

theorem uses_bind (hp : Uses allowed p) (hf : ∀ a, Uses allowed (f a)) : Uses allowed (p >>= f) := by
  refine Program.Uses.bind hp fun outcome => ?_
  cases outcome with
  | error e => exact .pure _
  | ok a => exact hf a

theorem uses_always {p : Program α} (hp : p.Uses allowed) : Uses allowed (always p) :=
  .bind hp fun _ => .pure _

theorem uses_attempt {p : Program (Except KeychainError α)} (hp : p.Uses allowed) : Uses allowed (attempt p) :=
  .bind hp fun _ => .pure _

theorem uses_during {p : Program (Except KeychainError α)} (task : Task) (hp : p.Uses allowed) :
    Uses allowed (during task p) := .bind hp fun _ => .pure _

theorem uses_ofResult (result : Except KeychainError α) : Uses allowed (ofResult result) :=
  uses_attempt (.pure result)

/-! How actions end. -/

/-- An action that goes on from another fails with it, or goes on from what it ends with. -/
theorem ends_bind {requests : List Request} {outcome : Except Failure β}
    (h : (p >>= f).run.Ends requests outcome) :
    (∃ e, outcome = .error e ∧ p.run.Ends requests (.error e)) ∨
      ∃ a first second, requests = first ++ second ∧ p.run.Ends first (.ok a) ∧ (f a).run.Ends second outcome := by
  obtain ⟨first, second, passed, rfl, hfirst, hsecond⟩ := Program.ends_bind.1 h
  cases passed with
  | ok a => exact .inr ⟨a, first, second, rfl, hfirst, hsecond⟩
  | error e =>
    obtain ⟨rfl, rfl⟩ := Program.ends_pure.1 hsecond
    rw [List.append_nil]
    exact .inl ⟨e, rfl, hfirst⟩

theorem ends_always {p : Program α} {requests : List Request} {outcome : Except Failure α}
    (h : (always p).run.Ends requests outcome) : ∃ a, outcome = .ok a ∧ p.Ends requests a := by
  obtain ⟨first, second, a, rfl, hfirst, hsecond⟩ := Program.ends_bind.1 h
  obtain ⟨rfl, rfl⟩ := Program.ends_pure.1 hsecond
  rw [List.append_nil]
  exact ⟨a, rfl, hfirst⟩

/-- Whether an action fails only with failures of a kind. -/
def FailsOnly (expected : Failure → Prop) (p : Action α) : Prop :=
  p.run.Yields fun outcome => ∀ e, outcome = .error e → expected e

variable {expected : Failure → Prop}

theorem failsOnly_pure (a : α) : FailsOnly expected (pure a : Action α) := .pure fun _ h => by cases h

theorem failsOnly_throw {e : Failure} (h : expected e) : FailsOnly expected (throw e : Action α) :=
  .pure fun _ he => by cases he; exact h

theorem failsOnly_bind (hp : FailsOnly expected p) (hf : ∀ a, FailsOnly expected (f a)) :
    FailsOnly expected (p >>= f) := by
  refine .bind hp fun outcome houtcome => ?_
  cases outcome with
  | error e => exact .pure fun e' he => by cases he; exact houtcome e rfl
  | ok a => exact hf a

theorem failsOnly_always (p : Program α) : FailsOnly expected (always p) :=
  .after fun _ => .pure fun _ h => by cases h

theorem failsOnly_attempt {p : Program (Except KeychainError α)}
    (hp : p.Yields fun result => ∀ e, result = .error e → expected (.keychain e)) :
    FailsOnly expected (attempt p) := by
  refine .bind hp fun result hresult => .pure fun e he => ?_
  cases result with
  | ok a => cases he
  | error e => cases he; exact hresult e rfl

theorem failsOnly_during {task : Task} {p : Program (Except KeychainError α)}
    (hp : p.Yields fun result => ∀ e, result = .error e → expected (.during task e)) :
    FailsOnly expected (during task p) := by
  refine .bind hp fun result hresult => .pure fun e he => ?_
  cases result with
  | ok a => cases he
  | error e => cases he; exact hresult e rfl

/-- Whether what an action ends well with is of a kind. -/
def Gives (expected : α → Prop) (p : Action α) : Prop :=
  p.run.Yields fun outcome => ∀ a, outcome = .ok a → expected a

theorem gives_bind {expected : β → Prop} (hf : ∀ a, Gives expected (f a)) : Gives expected (p >>= f) := by
  refine .after fun outcome => ?_
  cases outcome with
  | error e => exact .pure fun _ h => by cases h
  | ok a => exact hf a

theorem gives_mapError {expected : α → Prop} {p : Program (Except KeychainError α)} (f : KeychainError → Failure)
    (hp : p.Yields fun result => ∀ a, result = .ok a → expected a) :
    Gives expected (ExceptT.mk do return (← p).mapError f) := by
  refine .bind hp fun result hresult => .pure fun a ha => ?_
  cases result with
  | error e => cases ha
  | ok a' => cases ha; exact hresult _ rfl

theorem gives_attempt {expected : α → Prop} {p : Program (Except KeychainError α)}
    (hp : p.Yields fun result => ∀ a, result = .ok a → expected a) : Gives expected (attempt p) :=
  gives_mapError Failure.keychain hp

theorem gives_during {expected : α → Prop} {task : Task} {p : Program (Except KeychainError α)}
    (hp : p.Yields fun result => ∀ a, result = .ok a → expected a) : Gives expected (during task p) :=
  gives_mapError (Failure.during task) hp

end Action

open KeyChain.Action

variable {m m' : Machine}

/-! What commands begin with. -/

theorem locate_inquires (path : Path) : Uses Request.IsInquiry (locate path) :=
  uses_attempt (.bind (.request trivial) fun _ => .pure _)

theorem locateDirectory_inquires (path : Path) : Uses Request.IsInquiry (locateDirectory path) := by
  refine uses_bind (locate_inquires path) fun l => uses_bind (uses_always (.request trivial)) fun found => ?_
  cases found with
  | true => exact uses_pure _
  | false => exact uses_throw _

theorem firstStore_inquires (ls : List Location) : (firstStore ls).Uses Request.IsInquiry := by
  induction ls with
  | nil => exact .pure _
  | cons l rest ih =>
    have hholds : (holdsStore l).Uses Request.IsInquiry := by
      refine .bind (.request trivial) fun locked => ?_
      cases locked with
      | true => exact .pure _
      | false => exact .request trivial
    refine .bind hholds fun held => ?_
    cases held with
    | true => exact .pure _
    | false => exact ih

theorem findRoot_inquires (l : Location) : (findRoot l).Uses Request.IsInquiry := by
  refine .bind (firstStore_inquires _) fun found => ?_
  cases found with
  | some root => exact .pure _
  | none => exact .bind (.request trivial) fun _ => .pure _

theorem readPassphrase_inquires (what : String) (verify : Bool) :
    Uses Request.IsInquiry (readPassphrase what verify) := by
  refine uses_bind (uses_always (.request trivial)) fun first => ?_
  cases first with
  | none => exact uses_throw _
  | some first =>
    dsimp only
    split
    · exact uses_throw _
    · split
      · refine uses_bind (uses_always (.request trivial)) fun second => ?_
        cases second with
        | none => exact uses_throw _
        | some second =>
          dsimp only
          split
          · exact uses_pure _
          · exact uses_throw _
      · exact uses_pure _

theorem readKey_inquires (p : KeyParams) (what : String) (verify : Bool) :
    Uses Request.IsInquiry (readKey p what verify) := by
  have hload : ∀ passphrase, (Key.load p passphrase).Uses Request.IsInquiry := by
    intro passphrase
    unfold Key.load
    split
    · exact .pure _
    · exact .bind (.request trivial) fun _ => .pure _
  refine uses_bind (uses_ofResult _) fun _ => ?_
  split
  · exact uses_attempt (hload _)
  · exact uses_bind (readPassphrase_inquires what verify) fun _ => uses_attempt (hload _)

theorem loadConfig_inquires (path : Path) : Uses Request.IsInquiry (loadConfig path) := by
  refine uses_bind (uses_always (.request trivial)) fun found => ?_
  cases found with
  | false => exact uses_pure _
  | true =>
    refine uses_bind (uses_always (.request trivial)) fun content => ?_
    cases content with
    | error cause => exact uses_throw _
    | ok content =>
      dsimp only
      split
      · exact uses_throw _
      · split
        · exact uses_throw _
        · exact uses_pure _

theorem chainFor_looksUp (c : Config) (root : Location) (key : Key) (choice : ChainChoice) :
    Uses Request.IsLookUp (chainFor c root key choice) := by
  cases choice with
  | ignored => exact uses_pure _
  | required => exact uses_during _ (Root.get_uses _ key .use)
  | configured => exact uses_during _ (Root.get_uses _ key c.mode)

theorem connect_uses (root : Location) : Uses Request.IsOfVault (connect root) :=
  uses_attempt (VaultKeyring.connect_uses _)

/-! With what it fails. -/

section

variable {expected : Failure → Prop}

theorem locateDirectory_fails (path : Path) (hkeychain : ∀ e, expected (.keychain e)) :
    FailsOnly expected (locateDirectory path) := by
  refine failsOnly_bind (failsOnly_attempt fun _ _ _ e _ => hkeychain e) fun l => ?_
  refine failsOnly_bind (failsOnly_always _) fun found => ?_
  split
  · exact failsOnly_pure _
  · exact failsOnly_throw (hkeychain _)

theorem readPassphrase_fails (what : String) (verify : Bool) (hprompt : ∀ fault, expected (.prompt fault)) :
    FailsOnly expected (readPassphrase what verify) := by
  refine failsOnly_bind (failsOnly_always _) fun first => ?_
  split
  · exact failsOnly_throw (hprompt _)
  · split
    · exact failsOnly_throw (hprompt _)
    · split
      · refine failsOnly_bind (failsOnly_always _) fun second => ?_
        split
        · exact failsOnly_throw (hprompt _)
        · split
          · exact failsOnly_pure _
          · exact failsOnly_throw (hprompt _)
      · exact failsOnly_pure _

theorem readKey_fails (p : KeyParams) (what : String) (verify : Bool) (hkeychain : ∀ e, expected (.keychain e))
    (hprompt : ∀ fault, expected (.prompt fault)) : FailsOnly expected (readKey p what verify) := by
  refine failsOnly_bind (failsOnly_attempt fun _ _ _ e _ => hkeychain e) fun _ => ?_
  split
  · exact failsOnly_attempt fun _ _ _ e _ => hkeychain e
  · refine failsOnly_bind (readPassphrase_fails what verify hprompt) fun _ => ?_
    exact failsOnly_attempt fun _ _ _ e _ => hkeychain e

theorem chainFor_fails (c : Config) (root : Location) (key : Key) (choice : ChainChoice)
    (hresolving : ∀ e, expected (.during (.resolving key.id) e)) :
    FailsOnly expected (chainFor c root key choice) := by
  cases choice with
  | ignored => exact failsOnly_pure _
  | required | configured => exact failsOnly_during fun _ _ _ e _ => hresolving e

theorem connect_fails (root : Location) (hkeychain : ∀ e, expected (.keychain e)) :
    FailsOnly expected (connect root) := failsOnly_attempt fun _ _ _ e _ => hkeychain e

end

/-! How it goes on a machine. -/

/-- The slash is the path of the root directory. -/
theorem realPath_slash (d : Disk) : d.realPath ⟨"/"⟩ = .ok Location.root := by
  have hsteps : Disk.trail ⟨"/"⟩ = .ok [.part .root, .slash] := by rfl
  have hfollow : d.follow .target [.part .root, .slash] = .ok ⟨Location.root, some .directory⟩ := by
    simp only [Disk.follow, Disk.walk]
  simp only [Disk.realPath, hsteps]
  show (d.follow .target [.part .root, .slash] >>= _) = _
  rw [hfollow]
  rfl

theorem isDirectory_root (d : Disk) : d.isDirectory Location.root.path = true := by
  have hsteps : Disk.shortTrail Location.root.path = .ok [.part .root, .slash] := by rfl
  have hlocate : d.locate .target Location.root.path = .ok ⟨Location.root, some .directory⟩ := by
    simp only [Disk.locate, hsteps]
    show Disk.walk _ _ _ _ _ = _
    simp only [Disk.walk]
  rw [Disk.isDirectory, hlocate]

theorem runOn_locate (path : Path) (m : Machine) :
    (locate path).runOn m =
      ((m.disk.realPath path).mapError fun cause => .keychain (.store path cause), m) := by
  unfold locate
  rw [runOn_attempt, Program.run_bind]
  show (((m.disk.realPath path).mapError _).mapError _, m) = _
  cases m.disk.realPath path <;> rfl

theorem runOn_locateDirectory (path : Path) (m : Machine) :
    (locateDirectory path).runOn m =
      (match m.disk.realPath path with
        | .error cause => .error (.keychain (.store path cause))
        | .ok l =>
          if m.disk.isDirectory l.path then .ok l else .error (.keychain (.usage (.notADirectory path))), m) := by
  unfold locateDirectory
  rw [runOn_bind, runOn_locate]
  cases m.disk.realPath path with
  | error cause => rfl
  | ok l =>
    show ((always (Program.isDirectory l.path)) >>= _).runOn m = _
    rw [runOn_bind_of_ok (runOn_always _ m)]
    show (if m.disk.isDirectory l.path = true then _ else _ : Action Location).runOn m =
      (if m.disk.isDirectory l.path then _ else _, m)
    split <;> rfl

theorem directory_of_runOn_locateDirectory {path : Path} {l : Location}
    (h : (locateDirectory path).runOn m = (.ok l, m')) :
    m' = m ∧ m.disk.realPath path = .ok l ∧ m.disk.isDirectory l.path = true := by
  rw [runOn_locateDirectory] at h
  cases hpath : m.disk.realPath path with
  | error cause => rw [hpath] at h; cases h
  | ok l' =>
    rw [hpath] at h
    dsimp only at h
    by_cases hdirectory : m.disk.isDirectory l'.path = true
    · rw [if_pos hdirectory] at h
      cases h
      exact ⟨rfl, rfl, hdirectory⟩
    · rw [if_neg hdirectory] at h
      cases h

/-- A key is read from the passphrase that is typed. -/
theorem runOn_readKey {p : KeyParams} {what text : String} {rest : List (Option String)} {key : Key}
    (hkeyfile : p.keyfile = none) (hpassphrase : p.noPassphrase = false) (htext : text ≠ "")
    (hderive : Key.derive p (some text) none = .ok key) (hanswers : m.answers = some text :: rest) :
    (readKey p what false).runOn m =
      (.ok key, { m with answers := rest, prompts := m.prompts ++ [s!"Enter {what}: "] }) := by
  have hvalid : ∃ checked, p.validate = .ok checked := by
    unfold Key.derive at hderive
    cases hvalidate : p.validate with
    | error e => rw [hvalidate] at hderive; cases hderive
    | ok checked => exact ⟨checked, rfl⟩
  obtain ⟨checked, hvalid⟩ := hvalid
  have htyped : (readPassphrase what false).runOn m =
      (.ok text, { m with answers := rest, prompts := m.prompts ++ [s!"Enter {what}: "] }) := by
    have hprompt : (always (Program.prompt s!"Enter {what}: ")).runOn m =
        (.ok (some text), { m with answers := rest, prompts := m.prompts ++ [s!"Enter {what}: "] }) := by
      rw [runOn_always]
      show ((.ok m.answers.head?.join, { m with answers := m.answers.tail, prompts := _ }) :
        Except Failure (Option String) × Machine) = _
      rw [hanswers]
      rfl
    unfold readPassphrase
    rw [runOn_bind_of_ok hprompt]
    dsimp only
    rw [if_neg htext]
    rfl
  unfold readKey
  have hchecked : (ofResult p.validate).runOn m = (.ok checked, m) := by rw [runOn_ofResult, hvalid]; rfl
  rw [runOn_bind_of_ok hchecked, hpassphrase]
  show ((readPassphrase what false) >>= _).runOn m = _
  rw [runOn_bind_of_ok htyped, runOn_attempt, Key.load, hkeyfile]
  show (Except.mapError _ (Key.derive p (some text) none), _) = _
  rw [hderive]
  rfl

/-- Options that leave everything to the configuration. -/
def KeyOptions.unset : KeyOptions := ⟨none, none, none, false⟩

/-- A configuration with little stretching. -/
def Config.quick : Config := { Config.standard with keys := ⟨"aes256-xts", 1, none, false, 8, 1⟩ }

theorem exists_readKey_quick {rest : List (Option String)} (hanswers : m.answers = some "alpha" :: rest) :
    ∃ key : Key, (readKey (KeyOptions.unset.params Config.quick.keys) "passphrase" false).runOn m =
      (.ok key, { m with answers := rest, prompts := m.prompts ++ ["Enter passphrase: "] }) := by
  obtain ⟨key, hkey⟩ : ∃ key, Key.derive Config.quick.keys (some "alpha") none = .ok key := ⟨_, rfl⟩
  exact ⟨key, runOn_readKey rfl rfl (by decide) hkey hanswers⟩

theorem runOn_locateDirectory_slash (m : Machine) :
    (locateDirectory ⟨"/"⟩).runOn m = (.ok Location.root, m) := by
  rw [runOn_locateDirectory, realPath_slash]
  dsimp only
  rw [if_pos (isDirectory_root m.disk)]

/-! Command lines. -/

/-- Without its file the configuration is the standard one. -/
theorem runOn_loadConfig {path : Path} (h : m.disk.isPresent path = false) :
    (loadConfig path).runOn m = (.ok Config.standard, m) := by
  have hpresent : (always (Program.isPresent path)).runOn m = (.ok false, m) :=
    (runOn_always _ m).trans (congrArg (fun found => (Except.ok found, m)) h)
  exact runOn_bind_of_ok hpresent _

/-- What a line of arguments sets going: the configuration is loaded, and then the command is run under it. -/
def Command.launch (path : Path) (source : RandomSource) (command : Command) : Action UInt8 := do
  let config ← loadConfig path
  command.action config source

/-- A command line ends as its command does. The failure of the command is told of when all is over. -/
theorem run_runArguments {env : Environment} {args : List String} {path : Path} {command : Command}
    (h : Invocation.ofArguments env args = .ok (.run path command)) (source : RandomSource) (m : Machine) :
    (runArguments env args source).run m =
      match (command.launch path source).runOn m with
      | (.ok status, m') => (status, m')
      | (.error failure, m') => (failure.status, { m' with complaints := m'.complaints ++ [.failed failure] }) := by
  unfold runArguments
  rw [h]
  show ((command.launch path source).run >>= _).run m = _
  have hlaunch : (command.launch path source).run.run m = (command.launch path source).runOn m := rfl
  rw [Program.run_bind, hlaunch]
  obtain ⟨outcome, m'⟩ := (command.launch path source).runOn m
  cases outcome <;> rfl

end KeyChain
