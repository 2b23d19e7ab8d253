import KeyChain.Machine
/-! What a program can do, whatever its surroundings answer: nothing is assumed of them, so a disk may fail at
   one request and not at the next.

   1. `ends_bind`: the ways in which one program after another can go;
   2. `Uses.bind`, `Yields.bind`: what only programs that are put together can ask for and end with;
   3. `exists_ends_run`: a run on a machine is one of those ways, and what its requests keep of the machine
      the run keeps (`Uses.run`). -/
namespace KeyChain

namespace Program

variable {α β : Type} {requests : List Request}

/-- Whether a program can make these requests, one after the other, and end with this value: there are
    responses with which it does. -/
inductive Ends : Program α → List Request → α → Prop where
  | done (a : α) : Ends (.done a) [] a
  | call {r : Request} {next : r.Response → Program α} {requests : List Request} {a : α}
      (response : r.Response) (h : Ends (next response) requests a) :
      Ends (.call r next) (r :: requests) a

/-- Whether all requests that a program can make are of a kind. -/
def Uses (allowed : Request → Prop) (p : Program α) : Prop :=
  ∀ requests a, p.Ends requests a → ∀ r ∈ requests, allowed r

/-- Whether a program can end only with values of a kind. -/
def Yields (expected : α → Prop) (p : Program α) : Prop :=
  ∀ requests a, p.Ends requests a → expected a

theorem ends_done {a b : α} : (done a).Ends requests b ↔ requests = [] ∧ b = a := by
  constructor
  · intro h
    cases h
    exact ⟨rfl, rfl⟩
  · intro h
    obtain ⟨rfl, rfl⟩ := h
    exact .done b

theorem ends_pure {a b : α} : (pure a : Program α).Ends requests b ↔ requests = [] ∧ b = a := ends_done

theorem ends_bind {p : Program α} {f : α → Program β} {b : β} :
    (p >>= f).Ends requests b ↔
      ∃ first second a, requests = first ++ second ∧ p.Ends first a ∧ (f a).Ends second b := by
  induction p generalizing requests with
  | done a =>
    constructor
    · intro h
      exact ⟨[], requests, a, rfl, .done a, h⟩
    · intro h
      obtain ⟨first, second, a', rfl, hfirst, hsecond⟩ := h
      obtain ⟨rfl, rfl⟩ := ends_done.1 hfirst
      exact hsecond
  | call r next ih =>
    constructor
    · intro h
      cases h with
      | call response h =>
        obtain ⟨first, second, a, rfl, hfirst, hsecond⟩ := (ih response).1 h
        exact ⟨r :: first, second, a, rfl, .call response hfirst, hsecond⟩
    · intro h
      obtain ⟨first, second, a, rfl, hfirst, hsecond⟩ := h
      cases hfirst with
      | call response hfirst => exact .call response ((ih response).2 ⟨_, _, a, rfl, hfirst, hsecond⟩)

/-- Any program ends with a value. -/
theorem Yields.any (p : Program α) : p.Yields fun _ => True := fun _ _ _ => trivial

namespace Uses

variable {allowed allowed' : Request → Prop} {p : Program α} {f : α → Program β}

theorem pure (a : α) : Uses allowed (Pure.pure a : Program α) := by
  intro requests b h r hr
  obtain ⟨rfl, -⟩ := ends_pure.1 h
  cases hr

theorem request {r : Request} (h : allowed r) : Uses allowed (Program.request r) := by
  intro requests response hends r' hr'
  cases hends with
  | call response hends =>
    obtain ⟨rfl, -⟩ := ends_done.1 hends
    exact List.mem_singleton.1 hr' ▸ h

/-- What the second of two programs asks for may hang on what the first ends with. -/
theorem bindOf {expected : α → Prop} (hp : Uses allowed p) (hends : Yields expected p)
    (hf : ∀ a, expected a → Uses allowed (f a)) : Uses allowed (p >>= f) := by
  intro requests b h r hr
  obtain ⟨first, second, a, rfl, hfirst, hsecond⟩ := ends_bind.1 h
  rcases List.mem_append.1 hr with hr | hr
  · exact hp first a hfirst r hr
  · exact hf a (hends first a hfirst) second b hsecond r hr

theorem bind (hp : Uses allowed p) (hf : ∀ a, Uses allowed (f a)) : Uses allowed (p >>= f) :=
  hp.bindOf (.any p) fun a _ => hf a

theorem mono (hp : Uses allowed p) (h : ∀ r, allowed r → allowed' r) : Uses allowed' p :=
  fun requests a hends r hr => h r (hp requests a hends r hr)

end Uses

namespace Yields

variable {expected : α → Prop} {expected' : β → Prop} {p : Program α} {f : α → Program β}

theorem pure {a : α} (h : expected a) : Yields expected (Pure.pure a : Program α) := by
  intro requests b hends
  obtain ⟨-, rfl⟩ := ends_pure.1 hends
  exact h

theorem bind (hp : Yields expected p) (hf : ∀ a, expected a → Yields expected' (f a)) :
    Yields expected' (p >>= f) := by
  intro requests b h
  obtain ⟨first, second, a, -, hfirst, hsecond⟩ := ends_bind.1 h
  exact hf a (hp first a hfirst) second b hsecond

/-- What the first of two programs ends with may be of no account. -/
theorem after (hf : ∀ a, Yields expected' (f a)) : Yields expected' (p >>= f) :=
  bind (.any p) fun a _ => hf a

theorem and {expected₁ expected₂ : α → Prop} (h₁ : Yields expected₁ p) (h₂ : Yields expected₂ p) :
    Yields (fun a => expected₁ a ∧ expected₂ a) p :=
  fun requests a hends => ⟨h₁ requests a hends, h₂ requests a hends⟩

theorem mono {weaker : α → Prop} (hp : Yields expected p) (h : ∀ a, expected a → weaker a) : Yields weaker p :=
  fun requests a hends => h a (hp requests a hends)

end Yields

end Program

/-! Runs on a machine. -/

/-- The machine after requests. -/
def Machine.answered (m : Machine) (requests : List Request) : Machine :=
  requests.foldl (fun m r => (m.answer r).2) m

theorem Machine.answered_keeps {allowed : Request → Prop} {kept : Machine → Prop}
    (hstep : ∀ r m, allowed r → kept m → kept (m.answer r).2) {requests : List Request}
    (hrequests : ∀ r ∈ requests, allowed r) {m : Machine} (hm : kept m) : kept (m.answered requests) := by
  induction requests generalizing m with
  | nil => exact hm
  | cons r rest ih =>
    exact ih (fun r' hr' => hrequests r' (List.mem_cons_of_mem r hr'))
      (hstep r m (hrequests r List.mem_cons_self) hm)

namespace Program

variable {α : Type} {p : Program α}

/-- A run on a machine is one of the ways in which a program can go. -/
theorem exists_ends_run (p : Program α) (m : Machine) :
    ∃ requests, p.Ends requests (p.run m).1 ∧ (p.run m).2 = m.answered requests := by
  induction p generalizing m with
  | done a => exact ⟨[], .done a, rfl⟩
  | call r next ih =>
    obtain ⟨requests, hends, hmachine⟩ := ih (m.answer r).1 (m.answer r).2
    exact ⟨r :: requests, .call _ hends, hmachine⟩

/-- What requests of a kind keep of a machine, a program keeps that makes no others. -/
theorem Uses.run {allowed : Request → Prop} {kept : Machine → Prop} (hp : p.Uses allowed)
    (hstep : ∀ r m, allowed r → kept m → kept (m.answer r).2) {m : Machine} (hm : kept m) :
    kept (p.run m).2 := by
  obtain ⟨requests, hends, hmachine⟩ := p.exists_ends_run m
  rw [hmachine]
  exact Machine.answered_keeps hstep (hp requests _ hends) hm

theorem Yields.run {expected : α → Prop} (hp : p.Yields expected) (m : Machine) : expected (p.run m).1 := by
  obtain ⟨requests, hends, -⟩ := p.exists_ends_run m
  exact hp requests _ hends

end Program

end KeyChain
