import KeyChain.Proofs.Actions
import KeyChain.Proofs.Blame
/-! Refused commands. A command whose parameters are malformed, or which gets no passphrase, is refused, and
   that leaves everything as it was: each command looks at its parameters and reads its keys before it does
   anything else, and nothing that it does then is refused any more.

   1. `Careful`: refused only as long as nothing but inquiries were made. An action that only inquires is
      careful, one that is never refused is, and so is the first before the second (`careful_bind`);
   2. `careful_action`: every command is careful;
   3. `refused_without_trace`: so a command line that is refused has changed no file, no lock and no entry of
      the vault, and has printed nothing. -/
namespace KeyChain

/-- Requests that do not tell of the failure of a command. -/
def Request.IsDiscreet (r : Request) : Prop := ∀ f, r ≠ .complain (.failed f)

namespace Request

variable {r : Request}

theorem IsInquiry.isDiscreet (h : r.IsInquiry) : r.IsDiscreet := fun _ he => by cases he; exact h

theorem IsOfVault.isDiscreet (h : r.IsOfVault) : r.IsDiscreet := fun _ he => by cases he; exact h

theorem IsOfFile.isDiscreet (h : r.IsOfFile) : r.IsDiscreet := by
  intro f he
  cases he
  rcases h with hlookUp | hchange
  · exact hlookUp
  · exact hchange

end Request

/-- Whether a failure is a refusal: of the parameters, of the configuration or of the passphrase. -/
def Failure.IsRefusal (f : Failure) : Prop := f.status = 2 ∨ ∃ fault, f = .prompt fault

/-- Whether a command ended with a refusal. -/
def Refused (outcome : Except Failure UInt8) : Prop :=
  outcome = .ok 2 ∨ ∃ f, outcome = .error f ∧ f.IsRefusal

theorem status_eq_two {e : KeychainError} : e.status = 2 ↔ e.IsUsage := by
  cases e <;> simp [KeychainError.status, KeychainError.IsUsage]

theorem not_isRefusal_keychain {e : KeychainError} (h : ¬ e.IsUsage) : ¬ (Failure.keychain e).IsRefusal := by
  intro hrefusal
  rcases hrefusal with hstatus | ⟨fault, hprompt⟩
  · exact h (status_eq_two.1 hstatus)
  · cases hprompt

theorem not_isRefusal_during {task : Task} {e : KeychainError} (h : ¬ e.IsUsage) :
    ¬ (Failure.during task e).IsRefusal := by
  intro hrefusal
  rcases hrefusal with hstatus | ⟨fault, hprompt⟩
  · exact h (status_eq_two.1 hstatus)
  · cases hprompt

/-! Actions. -/

namespace Action

variable {α β : Type}

/-- Whether an action ends only with outcomes of a kind, and leaves it to others to tell of its failure. -/
def Ending (expected : Except Failure α → Prop) (p : Action α) : Prop :=
  Uses Request.IsDiscreet p ∧ p.run.Yields expected

/-- Whether an action is never refused. -/
def Steady (p : Action α) : Prop := Uses Request.IsDiscreet p ∧ FailsOnly (fun f => ¬ f.IsRefusal) p

/-- Whether an action is never refused and never ends with the status of a refusal. -/
def Settled (p : Action UInt8) : Prop := p.Ending fun outcome => ¬ Refused outcome

/-- Whether an action is refused only as long as it has made inquiries alone. -/
def Careful (p : Action UInt8) : Prop :=
  Uses Request.IsDiscreet p ∧
    ∀ requests outcome, p.run.Ends requests outcome → Refused outcome → ∀ r ∈ requests, r.IsInquiry

variable {allowed : Request → Prop} {p : Action α} {f : α → Action β}

theorem steady_pure (a : α) : Steady (pure a : Action α) := ⟨uses_pure a, failsOnly_pure a⟩

theorem steady_bind (hp : Steady p) (hf : ∀ a, Steady (f a)) : Steady (p >>= f) :=
  ⟨uses_bind hp.1 fun a => (hf a).1, failsOnly_bind hp.2 fun a => (hf a).2⟩

theorem steady_print (line : String) : Steady (print line) :=
  ⟨uses_always (.request fun _ h => by cases h), failsOnly_always _⟩

theorem steady_attempt {p : Program (Except KeychainError α)} (huses : p.Uses Request.IsDiscreet)
    (hp : p.Yields Blameless) : Steady (attempt p) :=
  ⟨uses_attempt huses, failsOnly_attempt (hp.mono fun _ h e he => not_isRefusal_keychain (h e he))⟩

theorem steady_during {p : Program (Except KeychainError α)} (task : Task) (huses : p.Uses Request.IsDiscreet)
    (hp : p.Yields Blameless) : Steady (during task p) :=
  ⟨uses_during task huses, failsOnly_during (hp.mono fun _ h e he => not_isRefusal_during (h e he))⟩

/-- A result that parameters are not to blame for may be raised. -/
theorem steady_raise {result : Except KeychainError α} (task : Task) (h : Blameless result) :
    Steady (during task (return result)) := steady_during task (.pure _) (.pure h)

theorem steady_forM {f : α → Action Unit} (hf : ∀ a, Steady (f a)) (l : List α) : Steady (l.forM f) := by
  induction l with
  | nil => exact steady_pure ()
  | cons a rest ih => exact steady_bind (hf a) fun _ => ih

theorem steady_printIf (verbose : Bool) (lines : List String) : Steady (printIf verbose lines) := by
  unfold printIf
  split
  · exact steady_forM steady_print lines
  · exact steady_pure ()

theorem steady_showNode (l : Location) (key : Option Key) : Steady (showNode l key) := by
  cases key <;> exact steady_print _

theorem settled_pure {status : UInt8} (h : status ≠ 2) : Settled (pure status) := by
  refine ⟨uses_pure status, .pure fun hrefused => ?_⟩
  rcases hrefused with hstatus | ⟨f, hf, -⟩
  · injection hstatus with hstatus
    exact h hstatus
  · cases hf

/-- After what is never refused, an action is settled if what follows is. -/
theorem settled_bind {f : α → Action UInt8} (hp : Steady p) (hf : ∀ a, Settled (f a)) : Settled (p >>= f) := by
  refine ⟨uses_bind hp.1 fun a => (hf a).1, .bind hp.2 fun outcome houtcome => ?_⟩
  cases outcome with
  | ok a => exact (hf a).2
  | error e =>
    refine .pure fun hrefused => ?_
    rcases hrefused with hstatus | ⟨f, hf, hrefusal⟩
    · cases hstatus
    · cases hf
      exact houtcome _ rfl hrefusal

/-- What a program ends with may count for what follows. -/
theorem ending_always {p : Program α} {expected : α → Prop} {wanted : Except Failure β → Prop} {f : α → Action β}
    (huses : p.Uses Request.IsDiscreet) (hp : p.Yields expected) (hf : ∀ a, expected a → Ending wanted (f a)) :
    Ending wanted (always p >>= f) := by
  have hlifted : (always p).run.Yields fun outcome => ∃ a, outcome = .ok a ∧ expected a :=
    .bind hp fun a ha => .pure ⟨a, rfl, ha⟩
  refine ⟨.bindOf (uses_always huses) hlifted fun outcome houtcome => ?_,
    .bind hlifted fun outcome houtcome => ?_⟩
  · obtain ⟨a, rfl, ha⟩ := houtcome
    exact (hf a ha).1
  · obtain ⟨a, rfl, ha⟩ := houtcome
    exact (hf a ha).2

theorem careful_of_settled {p : Action UInt8} (hp : Settled p) : Careful p :=
  ⟨hp.1, fun requests outcome hends hrefused => absurd hrefused (hp.2 requests outcome hends)⟩

/-- After inquiries, an action is careful if what follows is. -/
theorem careful_bind {f : α → Action UInt8} (hp : Uses Request.IsInquiry p) (hf : ∀ a, Careful (f a)) :
    Careful (p >>= f) := by
  refine ⟨uses_bind (hp.mono fun _ => Request.IsInquiry.isDiscreet) fun a => (hf a).1, ?_⟩
  intro requests outcome hends hrefused r hr
  obtain ⟨first, second, passed, rfl, hfirst, hsecond⟩ := Program.ends_bind.1 hends
  rcases List.mem_append.1 hr with hr | hr
  · exact hp first passed hfirst r hr
  · cases passed with
    | ok a => exact (hf a).2 second outcome hsecond hrefused r hr
    | error e =>
      obtain ⟨rfl, -⟩ := Program.ends_pure.1 hsecond
      cases hr

end Action

open KeyChain.Action

/-! What comes then is never refused. -/

theorem chainFor_steady (c : Config) (root : Location) (key : Key) (choice : ChainChoice) :
    Steady (chainFor c root key choice) := by
  have hget : ∀ mode, Steady (during (.resolving key.id) (Root.get ⟨root.path⟩ key mode)) := fun mode =>
    steady_during _ ((Root.get_uses _ key mode).mono fun _ h => Request.IsOfFile.isDiscreet (.inl h))
      (Root.get_blameless _ key mode)
  cases choice with
  | ignored => exact steady_pure _
  | required => exact hget .use
  | configured => exact hget c.mode

theorem connect_steady (root : Location) : Steady (connect root) :=
  steady_attempt ((VaultKeyring.connect_uses _).mono fun _ => Request.IsOfVault.isDiscreet)
    (VaultKeyring.connect_blameless _)

/-- Saving a changed keyring, whatever becomes of the outcome. -/
theorem ending_commit {α : Type} {wanted : Except Failure α → Prop} (v : VaultKeyring)
    {changed : Except KeychainError Keyring} (h : Blameless changed)
    {f : Except KeychainError Unit × VaultKeyring → Action α}
    (hf : ∀ outcome, Blameless outcome.1 → Ending wanted (f outcome)) :
    Ending wanted (always (v.commit changed) >>= f) :=
  ending_always ((v.commit_uses changed).mono fun _ => Request.IsOfVault.isDiscreet) (v.commit_blameless h) hf

theorem install_blameless (v : VaultKeyring) (chain : Chain) :
    (v.install chain).Yields fun outcome => Blameless outcome.1 := by
  have hkeys : ∀ (keys : List Key) (v : VaultKeyring),
      ((installKeys VaultKeyring.adding keys).run v).Yields fun outcome => Blameless outcome.1 := by
    intro keys
    induction keys with
    | nil => exact fun v => .pure (blameless_ok _)
    | cons key rest ih =>
      intro v
      refine .bind (v.commit_blameless (v.keyring.blameless_add key)) fun added hadded => ?_
      obtain ⟨result, v'⟩ := added
      cases result with
      | error e => exact .pure (blameless_error (hadded e rfl))
      | ok _ => exact ih v'
  refine .bind (hkeys chain.keys v) fun installed hinstalled => ?_
  obtain ⟨result, v'⟩ := installed
  cases result with
  | error e => exact .pure (blameless_error (hinstalled e rfl))
  | ok _ => exact .pure (blameless_ok _)

/-! The commands. -/

theorem careful_addKey (c : Config) (key : KeyOptions) (choice : ChainChoice) (verbose : Bool) (path : Path) :
    Careful (addKey c key choice verbose path) := by
  refine careful_bind (locateDirectory_inquires path) fun root => ?_
  refine careful_bind (readKey_inquires _ _ _) fun key => careful_of_settled ?_
  refine settled_bind (chainFor_steady c root key choice) fun chain => ?_
  refine settled_bind (connect_steady root) fun keyring => ?_
  refine ending_always ((keyring.install_uses chain).mono fun _ => Request.IsOfVault.isDiscreet)
    (install_blameless keyring chain) fun installed hinstalled => ?_
  obtain ⟨result, keyring'⟩ := installed
  refine settled_bind (steady_printIf _ _) fun _ => ?_
  exact settled_bind (steady_raise _ hinstalled) fun _ => settled_pure (by decide)

theorem careful_deleteKey (c : Config) (key : KeyOptions) (choice : ChainChoice) (verbose : Bool) (path : Path) :
    Careful (deleteKey c key choice verbose path) := by
  refine careful_bind (locateDirectory_inquires path) fun root => ?_
  refine careful_bind (readKey_inquires _ _ _) fun key => careful_of_settled ?_
  refine settled_bind (chainFor_steady c root key choice) fun chain => ?_
  refine settled_bind (connect_steady root) fun keyring => ?_
  refine ending_always ((keyring.uninstall_uses chain).mono fun _ => Request.IsOfVault.isDiscreet) (.any _)
    fun outcome _ => ?_
  obtain ⟨failures, keyring'⟩ := outcome
  have htold : ∀ failure : KeyId × KeychainError,
      Steady (always (Program.complain (.notDeleted failure.1 failure.2))) := fun _ =>
    ⟨uses_always (.request fun _ h => by cases h), .after fun _ => .pure fun _ h => by cases h⟩
  refine settled_bind (steady_forM htold failures) fun _ => ?_
  refine settled_bind (steady_printIf _ _) fun _ => settled_pure ?_
  unfold removalStatus
  dsimp only
  split
  · decide
  · split <;> decide

theorem careful_setKey (c : Config) (key : KeyOptions) (choice : ChainChoice) (add verbose : Bool) (path : Path) :
    Careful (setKey c key choice add verbose path) := by
  refine careful_bind (locateDirectory_inquires path) fun directory => ?_
  refine careful_bind (uses_always (findRoot_inquires directory)) fun root => ?_
  refine careful_bind (readKey_inquires _ _ _) fun key => careful_of_settled ?_
  refine settled_bind (chainFor_steady c root key choice) fun chain => ?_
  refine settled_bind (connect_steady root) fun keyring => ?_
  -- The binding comes last, be the key added before it or not.
  extract_lets finished bound
  have hbound : ∀ keyring, Settled (bound keyring) := by
    intro keyring
    refine ending_commit keyring (keyring.keyring.blameless_bindPath _ _) fun outcome houtcome => ?_
    have hfinished : ∀ u, Settled (finished u) := fun _ => settled_pure (by decide)
    refine settled_bind (steady_raise _ houtcome) fun _ => ?_
    split
    · exact settled_bind (steady_showNode _ _) hfinished
    · exact hfinished ()
  split
  · refine ending_commit keyring (keyring.keyring.blameless_add _) fun outcome houtcome => ?_
    obtain ⟨result, keyring'⟩ := outcome
    exact settled_bind (steady_raise _ houtcome) fun _ => hbound keyring'
  · exact hbound keyring

theorem careful_getKey (test : Bool) (path : Path) : Careful (getKey test path) := by
  refine careful_bind (locate_inquires path) fun l => ?_
  refine careful_bind (uses_always (findRoot_inquires l)) fun root => careful_of_settled ?_
  refine settled_bind (connect_steady root) fun keyring => ?_
  dsimp only
  split
  · refine settled_pure ?_
    split <;> decide
  · exact settled_bind (steady_showNode _ _) fun _ => settled_pure (by decide)

theorem careful_showKeys (test : Bool) (path : Path) : Careful (showKeys test path) := by
  refine careful_bind (locateDirectory_inquires path) fun root => careful_of_settled ?_
  refine settled_bind (connect_steady root) fun keyring => ?_
  dsimp only
  split
  · refine settled_pure ?_
    split <;> decide
  · split
    · exact settled_bind (steady_print _) fun _ => settled_pure (by decide)
    · refine settled_bind (steady_print _) fun _ => ?_
      exact settled_bind (steady_forM (fun _ => steady_print _) _) fun _ => settled_pure (by decide)

theorem careful_flushKeys (path : Path) : Careful (flushKeys path) := by
  refine careful_bind (locateDirectory_inquires path) fun root => careful_of_settled ?_
  refine settled_bind (connect_steady root) fun keyring => ?_
  refine ending_commit keyring (blameless_ok _) fun outcome houtcome => ?_
  exact settled_bind (steady_raise _ houtcome) fun _ => settled_pure (by decide)

theorem careful_addChain (c : Config) (key : KeyOptions) (chained : Option KeyOptions) (verbose : Bool)
    (path : Path) (source : RandomSource) : Careful (addChain c key chained verbose path source) := by
  refine careful_bind (locateDirectory_inquires path) fun root => ?_
  -- The parameters of a second key are checked before the first is read.
  extract_lets checked
  have hchecked : ∀ u, Careful (checked u) := by
    intro u
    refine careful_bind (readKey_inquires _ _ _) fun parent => ?_
    extract_lets linked
    have hlinked : ∀ target, Settled (linked target) := by
      intro target
      refine ending_always ((Root.set_uses _ parent target source).mono fun _ => Request.IsOfFile.isDiscreet)
        (Root.set_blameless _ parent target source) fun outcome houtcome => ?_
      refine settled_bind (steady_attempt (.pure _) (.pure houtcome)) fun _ => ?_
      exact settled_bind (steady_printIf _ _) fun _ => settled_pure (by decide)
    cases chained with
    | none => exact careful_of_settled (hlinked _)
    | some chained => exact careful_bind (readKey_inquires _ _ _) fun child => careful_of_settled (hlinked _)
  cases chained with
  | none => exact hchecked ()
  | some chained => exact careful_bind (uses_ofResult _) fun _ => hchecked ()

theorem careful_deleteChain (c : Config) (key : KeyOptions) (full verbose : Bool) (path : Path) :
    Careful (deleteChain c key full verbose path) := by
  refine careful_bind (locateDirectory_inquires path) fun root => ?_
  refine careful_bind (readKey_inquires _ _ _) fun key => careful_of_settled ?_
  refine settled_bind (steady_attempt ((Root.delete_uses _ key _).mono fun _ => Request.IsOfFile.isDiscreet)
    (Root.delete_blameless _ key _)) fun removed => ?_
  exact settled_bind (steady_printIf _ _) fun _ => settled_pure (by decide)

theorem careful_showChain (c : Config) (key : KeyOptions) (path : Path) : Careful (showChain c key path) := by
  refine careful_bind (locateDirectory_inquires path) fun root => ?_
  refine careful_bind (readKey_inquires _ _ _) fun key => careful_of_settled ?_
  refine settled_bind (steady_attempt
    ((Root.get_uses _ key .use).mono fun _ h => Request.IsOfFile.isDiscreet (.inl h))
    (Root.get_blameless _ key .use)) fun chain => ?_
  refine settled_bind (steady_print _) fun _ => ?_
  exact settled_bind (steady_forM (fun _ => steady_print _) _) fun _ => settled_pure (by decide)

theorem careful_addDecoys (c : Config) (min max : Option Int) (verbose : Bool) (path : Path)
    (source : RandomSource) : Careful (addDecoys c min max verbose path source) := by
  refine careful_bind (uses_ofResult _) fun range => ?_
  refine careful_bind (locateDirectory_inquires path) fun root => careful_of_settled ?_
  refine ending_always ((Root.injectIn_uses _ range source).mono fun _ => Request.IsOfFile.isDiscreet)
    (Root.injectIn_blameless _ range source) fun outcome houtcome => ?_
  refine settled_bind (steady_attempt (.pure _) (.pure houtcome)) fun added => ?_
  exact settled_bind (steady_printIf _ _) fun _ => settled_pure (by decide)

theorem careful_showAlgorithms : Careful showAlgorithms := by
  refine careful_of_settled (settled_bind (steady_print _) fun _ => ?_)
  exact settled_bind (steady_forM (fun _ => steady_print _) _) fun _ => settled_pure (by decide)

/-- Every command looks at its parameters and reads its keys before it does anything else. -/
theorem careful_action (c : Config) (source : RandomSource) (command : Command) :
    Careful (command.action c source) := by
  cases command with
  | addKey => exact careful_addKey ..
  | deleteKey => exact careful_deleteKey ..
  | setKey => exact careful_setKey ..
  | getKey => exact careful_getKey ..
  | showKeys => exact careful_showKeys ..
  | flushKeys => exact careful_flushKeys ..
  | addChain => exact careful_addChain ..
  | deleteChain => exact careful_deleteChain ..
  | showChain => exact careful_showChain ..
  | addDecoys => exact careful_addDecoys ..
  | showAlgorithms => exact careful_showAlgorithms

/-! Command lines. -/

theorem careful_launch (path : Path) (source : RandomSource) (command : Command) :
    Careful (command.launch path source) :=
  careful_bind (loadConfig_inquires path) fun config => careful_action config source command

/-- A text that is shown instead of a run. -/
theorem ends_shown (lines : List String) {requests : List Request} {status : UInt8}
    (h : (do lines.forM Program.print; return 0 : Program UInt8).Ends requests status) :
    (∀ r ∈ requests, r.IsDiscreet) ∧ status = 0 := by
  have hlines : (lines.forM Program.print).Uses Request.IsDiscreet := by
    clear h
    induction lines with
    | nil => exact .pure ()
    | cons line rest ih => exact .bind (.request fun _ he => by cases he) fun _ => ih
  obtain ⟨shown, rest, _, rfl, hshown, hrest⟩ := Program.ends_bind.1 h
  obtain ⟨rfl, rfl⟩ := Program.ends_pure.1 hrest
  rw [List.append_nil]
  exact ⟨hlines shown _ hshown, rfl⟩

/-- A command line is refused at once, or shows a text instead of a run, or ends as its command does; the
    failure of a command is told of when all is over. -/
theorem ends_runArguments {env : Environment} {args : List String} {source : RandomSource}
    {requests : List Request} {status : UInt8} (h : (runArguments env args source).Ends requests status) :
    (∃ text, requests = [.complain (.arguments text)]) ∨
    ((∀ r ∈ requests, r.IsDiscreet) ∧ status = 0) ∨
    ∃ (path : Path) (command : Command) (made : List Request) (outcome : Except Failure UInt8),
      (command.launch path source).run.Ends made outcome ∧
      (outcome = .ok status ∧ requests = made ∨
        ∃ failure, outcome = .error failure ∧ status = failure.status ∧
          requests = made ++ [.complain (.failed failure)]) := by
  unfold runArguments at h
  cases hinvocation : Invocation.ofArguments env args with
  | error fault =>
    rw [hinvocation] at h
    cases h with
    | call _ h =>
      obtain ⟨rfl, -⟩ := Program.ends_done.1 h
      exact .inl ⟨fault.message, rfl⟩
  | ok invocation =>
    rw [hinvocation] at h
    cases invocation with
    | version => exact .inr (.inl (ends_shown [versionLine] h))
    | help => exact .inr (.inl (ends_shown _ h))
    | run path command =>
      obtain ⟨made, told, outcome, rfl, hmade, htold⟩ := Program.ends_bind.1 h
      refine .inr (.inr ⟨path, command, made, outcome, hmade, ?_⟩)
      cases outcome with
      | ok status' =>
        obtain ⟨rfl, rfl⟩ := Program.ends_pure.1 htold
        exact .inl ⟨rfl, List.append_nil _⟩
      | error failure =>
        cases htold with
        | call _ htold =>
          obtain ⟨rfl, rfl⟩ := Program.ends_done.1 htold
          exact .inr ⟨failure, rfl, rfl, rfl⟩

/-- Whether a command line was refused: by its status, or because it was told that there is no passphrase. -/
def Denied (told : Complaint → Prop) (status : UInt8) : Prop :=
  status = 2 ∨ ∃ fault, told (.failed (.prompt fault))

/-- A command line that is refused has only made inquiries and told of the refusal. -/
theorem inquires_of_denied {env : Environment} {args : List String} {source : RandomSource}
    {requests : List Request} {status : UInt8} (h : (runArguments env args source).Ends requests status)
    (hdenied : Denied (fun c => .complain c ∈ requests) status) :
    ∀ r ∈ requests, r.IsInquiry ∨ ∃ c, r = .complain c := by
  rcases ends_runArguments h with ⟨text, rfl⟩ | ⟨hdiscreet, rfl⟩ | ⟨path, command, made, outcome, hmade, hcases⟩
  · exact fun r hr => .inr ⟨_, List.mem_singleton.1 hr⟩
  · rcases hdenied with hstatus | ⟨fault, htold⟩
    · exact absurd hstatus (by decide)
    · exact absurd rfl (hdiscreet _ htold _)
  · obtain ⟨hdiscreet, hcareful⟩ := careful_launch path source command
    -- What a command tells of while it runs is no failure of it.
    have hmadeTold : ∀ f, .complain (.failed f) ∉ made := fun f htold => hdiscreet made outcome hmade _ htold f rfl
    rcases hcases with ⟨rfl, rfl⟩ | ⟨failure, rfl, rfl, rfl⟩
    · have hrefused : Refused (.ok status) := by
        rcases hdenied with rfl | ⟨fault, htold⟩
        · exact .inl rfl
        · exact absurd htold (hmadeTold _)
      exact fun r hr => .inl (hcareful requests _ hmade hrefused r hr)
    · have hrefusal : failure.IsRefusal := by
        rcases hdenied with hstatus | ⟨fault, htold⟩
        · exact .inl hstatus
        · rcases List.mem_append.1 htold with htold | htold
          · exact absurd htold (hmadeTold _)
          · cases List.mem_singleton.1 htold
            exact .inr ⟨fault, rfl⟩
      intro r hr
      rcases List.mem_append.1 hr with hr | hr
      · exact .inl (hcareful made _ hmade (.inr ⟨failure, rfl, hrefusal⟩) r hr)
      · exact .inr ⟨_, List.mem_singleton.1 hr⟩

namespace Machine

/-- Whether a machine has the files, the locks and the entries of another, and has printed the same. -/
structure Untouched (m m' : Machine) : Prop where
  disk : m'.disk = m.disk
  locks : m'.locks = m.locks
  vault : m'.vault = m.vault
  lines : m'.lines = m.lines

theorem answer_untouched {m m' : Machine} {r : Request} (hr : r.IsInquiry ∨ ∃ c, r = .complain c)
    (h : m.Untouched m') : m.Untouched (m'.answer r).2 := by
  obtain ⟨hdisk, hlocks, hvault, hlines⟩ := h
  rcases hr with hr | ⟨c, rfl⟩
  · cases r with
    | realPath | isPresent | isDirectory | read | prompt => exact ⟨hdisk, hlocks, hvault, hlines⟩
    | _ => exact hr.elim
  · exact ⟨hdisk, hlocks, hvault, hlines⟩

theorem complaints_answer (m : Machine) (r : Request) :
    (m.answer r).2.complaints = m.complaints ∨
      ∃ c, r = .complain c ∧ (m.answer r).2.complaints = m.complaints ++ [c] := by
  cases r with
  | complain c => exact .inr ⟨c, rfl, rfl⟩
  | lock path mode =>
    left
    show (m.lockFile path mode).2.complaints = _
    unfold lockFile
    split
    · rfl
    · split <;> rfl
  | create path | write path content | rename source target =>
    left
    simp only [answer, onDisk]
    split <;> rfl
  | setEntry root text =>
    left
    simp only [answer]
    split <;> rfl
  | deleteEntry root =>
    left
    simp only [answer]
    split
    · rfl
    · split <;> rfl
  | _ => exact .inl rfl

/-- What a machine was told stands behind what it had been told before. -/
theorem complaints_answered (m : Machine) (requests : List Request) :
    ∃ more, (m.answered requests).complaints = m.complaints ++ more ∧ ∀ c ∈ more, .complain c ∈ requests := by
  induction requests generalizing m with
  | nil => exact ⟨[], (List.append_nil _).symm, fun c hc => absurd hc List.not_mem_nil⟩
  | cons r rest ih =>
    obtain ⟨more, hmore, htold⟩ := ih (m.answer r).2
    have hanswered : (m.answered (r :: rest)).complaints = (m.answer r).2.complaints ++ more := hmore
    have hrest : ∀ c ∈ more, .complain c ∈ r :: rest := fun c hc => List.mem_cons_of_mem r (htold c hc)
    rcases m.complaints_answer r with hsame | ⟨c, rfl, hc⟩
    · exact ⟨more, hanswered.trans (by rw [hsame]), hrest⟩
    · refine ⟨c :: more, hanswered.trans (by rw [hc, List.append_assoc]; rfl), fun c' hc' => ?_⟩
      rcases List.mem_cons.1 hc' with rfl | hc'
      · exact List.mem_cons_self
      · exact hrest c' hc'

/-- What a machine was told since it was another. -/
def toldSince (m m' : Machine) (c : Complaint) : Prop := c ∈ m'.complaints.drop m.complaints.length

theorem mem_of_toldSince {m : Machine} {requests : List Request} {c : Complaint}
    (h : m.toldSince (m.answered requests) c) : .complain c ∈ requests := by
  obtain ⟨more, hmore, htold⟩ := m.complaints_answered requests
  rw [toldSince, hmore, List.drop_left] at h
  exact htold c h

end Machine

/-- A refusal leaves no trace. If a command line ends with the status of a fault of usage, or tells that there is
    no passphrase, then it has made nothing but inquiries, whatever the responses to them were, and has told of
    faults. So on any machine it has changed no file, no lock and no entry of the vault, and printed nothing. -/
theorem refused_without_trace (env : Environment) (args : List String) (source : RandomSource) :
    (∀ requests status, (runArguments env args source).Ends requests status →
      Denied (fun c => .complain c ∈ requests) status → ∀ r ∈ requests, r.IsInquiry ∨ ∃ c, r = .complain c) ∧
    ∀ m m' status, (runArguments env args source).run m = (status, m') →
      Denied (m.toldSince m') status → m.Untouched m' := by
  refine ⟨fun requests status h hdenied => inquires_of_denied h hdenied, fun m m' status hrun hdenied => ?_⟩
  obtain ⟨requests, hends, hmachine⟩ := (runArguments env args source).exists_ends_run m
  rw [hrun] at hends hmachine
  obtain rfl : m' = m.answered requests := hmachine
  have hasked : Denied (fun c => .complain c ∈ requests) status :=
    hdenied.imp_right fun ⟨fault, htold⟩ => ⟨fault, Machine.mem_of_toldSince htold⟩
  exact Machine.answered_keeps (fun r m'' => Machine.answer_untouched) (inquires_of_denied hends hasked)
    ⟨rfl, rfl, rfl, rfl⟩

/-- Decoys are refused between bounds that leave none to draw from. -/
theorem refused_without_trace_addDecoys :
    let m := Machine.new Disk.empty
    let p := runArguments ⟨none, none, none⟩ ["randomchain", "-n", "9", "-N", "9", "/"] ⟨fun _ => 0, 0⟩
    ∃ m', p.run m = (2, m') ∧ m'.complaints = [.failed (.keychain (.usage (.crossedBounds 9 9)))] ∧
      m.Untouched m' ∧ ∃ requests, p.Ends requests 2 ∧ ∀ r ∈ requests, r.IsInquiry ∨ ∃ c, r = .complain c := by
  intro m p
  have hinvocation : Invocation.ofArguments ⟨none, none, none⟩ ["randomchain", "-n", "9", "-N", "9", "/"] =
      .ok (.run ⟨"/etc/kcfs/config.toml"⟩ (.addDecoys (some 9) (some 9) false ⟨"/"⟩)) := by rfl
  have habsent : m.disk.isPresent ⟨"/etc/kcfs/config.toml"⟩ = false := by
    have hsteps : Disk.shortTrail ⟨"/etc/kcfs/config.toml"⟩ =
        .ok [.part .root, .part (.name "etc"), .part (.name "kcfs"), .part (.name "config.toml")] := by rfl
    have hlocate : m.disk.locate .target ⟨"/etc/kcfs/config.toml"⟩ = .error .noSuchFile := by
      simp only [Disk.locate, hsteps]
      show Disk.walk _ _ _ _ _ = _
      simp only [Disk.walk]
      rfl
    rw [Disk.isPresent, hlocate]
  have hlaunch : ((Command.addDecoys (some 9) (some 9) false ⟨"/"⟩).launch ⟨"/etc/kcfs/config.toml"⟩
      ⟨fun _ => 0, 0⟩).runOn m = (.error (.keychain (.usage (.crossedBounds 9 9))), m) := by
    unfold Command.launch
    rw [runOn_bind_of_ok (runOn_loadConfig habsent)]
    exact runOn_bind_of_error rfl _
  have hrun : p.run m = _ := run_runArguments hinvocation _ m
  rw [hlaunch] at hrun
  obtain ⟨requests, hends, -⟩ := p.exists_ends_run m
  rw [hrun] at hends
  obtain ⟨hinquiries, huntouched⟩ :=
    refused_without_trace ⟨none, none, none⟩ ["randomchain", "-n", "9", "-N", "9", "/"] ⟨fun _ => 0, 0⟩
  exact ⟨_, hrun, rfl, huntouched m _ 2 hrun (.inl rfl), requests, hends, hinquiries requests 2 hends (.inl rfl)⟩

end KeyChain
