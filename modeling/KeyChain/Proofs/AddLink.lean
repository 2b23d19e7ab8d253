import KeyChain.Chain.Edit
import KeyChain.Proofs.LinkCodec
import KeyChain.Proofs.Walk
/-! Adding one link, end to end.

   1. `addLink_ok_iff`: all that a successful call does, and exactly when there is one: of the four
      checks on the way (the parent's chain resolves, the child is not on it, the parent has no
      successor, its slot is empty) only the last and a child of another identifier remain;
   2. `addLinkOn_eq`: in place, the operation leaves the store alone unless it succeeds;
   3. `resolve_insert_closed` and `resolve_insert_leads`: what the chain of the parent is afterwards. -/
namespace KeyChain

/-- The child that a target stands for, and the random bytes left behind it. -/
def LinkTarget.child (target : LinkTarget) (source : RandomSource) : Key × RandomSource :=
  match target with
  | .key child => (child, source)
  | .terminal => Key.terminal source

/-- Whether a child can stand for a target: the key itself, or some terminal key. -/
def LinkTarget.StandsFor : LinkTarget → Key → Prop
  | .key child, k => k = child
  | .terminal, k => k.isTerminal = true

theorem LinkTarget.standsFor_child (target : LinkTarget) (source : RandomSource) :
    target.StandsFor (target.child source).1 := by
  cases target <;> rfl

namespace Chain

variable {links : Links} {mode : ChainMode}

theorem resolve_single {root : Key} (h : links.get? root.id = none) :
    resolve links root .ignoreMissing = .ok (single root) := by
  unfold resolve
  rw [if_neg (by simp), follow_eq, opening_eq_empty.2 h]
  rfl

/-- What a key leads to does not depend on its place in a keyring. -/
theorem opening_withoutIndex (links : Links) (k : Key) :
    opening links { k with index := none } = opening links k := rfl

theorem resolve_withoutIndex (links : Links) (k : Key) (mode : ChainMode) :
    resolve links { k with index := none } mode =
      (resolve links k mode).map fun c => ⟨{ k with index := none }, c.rest⟩ := by
  have hfollow : follow links [k.id] { k with index := none } = follow links [k.id] k := by
    rw [follow_eq, follow_eq, opening_withoutIndex]
  unfold resolve
  simp only [hfollow]
  split
  · rfl
  · cases follow links [k.id] k <;> rfl

variable {parent child : Key} {record : Record}

theorem opening_insert (links : Links) (h : Link.decrypt parent record.bytes = .ok child) :
    opening (links.insert parent.id record) parent = if child.isTerminal then .closed else .leads child :=
  opening_of_decrypt (get?_insert_self ..) h

/-- A parent whose new link leads to a terminal key is a chain of its own, in either mode. -/
theorem resolve_insert_closed (links : Links) (mode : ChainMode)
    (hdecrypt : Link.decrypt parent record.bytes = .ok child) (hchild : child.isTerminal = true) :
    resolve (links.insert parent.id record) parent mode = .ok (single parent) := by
  have hopen : opening (links.insert parent.id record) parent = .closed := by
    rw [opening_insert links hdecrypt, if_pos hchild]
  refine resolve_ok_iff.2 ⟨?_, [], parent, .start, rfl, .inr hopen⟩
  rw [get?_insert_self]
  intro h
  obtain ⟨-, h⟩ := h
  cases h

/-- A parent whose new link leads to a child is followed by the chain that the child had before, as long
    as the parent's identifier is not on that. -/
theorem resolve_insert_leads {c : Chain} (mode : ChainMode)
    (hdecrypt : Link.decrypt parent record.bytes = .ok child) (hchild : child.isTerminal = false)
    (hc : resolve links child .ignoreMissing = .ok c) (hparent : parent.id ∉ c.keys.map Key.id) :
    resolve (links.insert parent.id record) parent mode = .ok ⟨parent, c.keys⟩ := by
  obtain ⟨-, before, tail, walk, hkeys, hend⟩ := resolve_ok_iff.1 hc
  have hsame : ∀ k ∈ before ++ [tail], (links.insert parent.id record).get? k.id = links.get? k.id := by
    intro k hk
    refine get?_insert_ne (fun he => hparent ?_) links record
    rw [hkeys, ← he]
    exact List.mem_map_of_mem hk
  have hopen : opening (links.insert parent.id record) parent = .leads child := by
    rw [opening_insert links hdecrypt, hchild]
    rfl
  have hwalk := walk.congr fun k hk => hsame k (List.mem_append_left _ hk)
  refine resolve_ok_iff.2 ⟨?_, parent :: before, tail, ?_, ?_, ?_⟩
  · rw [get?_insert_self]
    intro h
    obtain ⟨-, h⟩ := h
    cases h
  · refine Walk.append .start hopen hwalk fun k hk he => hparent ?_
    have hid : k.id = parent.id := by simpa using he
    exact hid ▸ List.mem_map_of_mem (hkeys ▸ hk)
  · rw [keys, hkeys, List.cons_append]
  · rw [opening_congr (hsame tail (by simp))]
    exact hend

/-- Two keys of distinct identifiers are a chain of some links. -/
theorem isMade_pair (hid : parent.id ≠ child.id) (hsound : child.Sound) (hindex : child.index = none)
    (hchild : child.isTerminal = false) : IsMade ⟨parent, [child]⟩ := by
  have hdecrypt : Link.decrypt parent (Link.encryptWith (.zero 24) parent child).bytes = .ok child := by
    rw [Link.decrypt_encryptWith _ parent hsound, ← hindex]
  have hc : resolve OrderedMap.empty child .ignoreMissing = .ok (single child) :=
    resolve_single (OrderedMap.get?_empty _)
  have hfresh : parent.id ∉ (single child).keys.map Key.id := fun hmem => hid (List.mem_singleton.1 hmem)
  exact .inl ⟨_, parent, .use, resolve_insert_leads .use hdecrypt hchild hc hfresh⟩

end Chain

namespace Store

variable {s : Store}

/-! What is left of the checks. -/

/-- The store with the link of a child in the slot of a parent, and the random bytes left. -/
def linked (s : Store) (parent child : Key) (source : RandomSource) : Store × RandomSource :=
  ({ s with links := s.links.insert parent.id (Link.encrypt parent child source).1, dirty := true },
    (Link.encrypt parent child source).2)

theorem insertLink_of_empty (hs : s.mode = .exclusive) {parent : Key}
    (hparent : s.links.get? parent.id = none) (child : Key) (source : RandomSource) :
    s.insertLink parent child source =
      (.ok (s.linked parent child source).1, (s.linked parent child source).2) := by
  simp only [insertLink_eq, insert, ensureWritable, hs, lookup?, hparent, linked]

theorem insertLink_of_occupied {parent : Key} {record : Record}
    (hparent : s.links.get? parent.id = some record) (child : Key) (source : RandomSource) :
    ∃ e, (s.insertLink parent child source).1 = .error e := by
  cases hs : s.mode with
  | exclusive => exact ⟨_, by simp only [insertLink_eq, insert, ensureWritable, hs, lookup?, hparent]; rfl⟩
  | shared => exact ⟨_, by simp only [insertLink_eq, insert, ensureWritable, hs]; rfl⟩

theorem insertLink_shared (hs : s.mode = .shared) (parent child : Key) (source : RandomSource) :
    ∃ e, (s.insertLink parent child source).1 = .error e :=
  ⟨_, by simp only [insertLink_eq, insert_shared hs]; rfl⟩

theorem includes_single (parent child : Key) :
    (Chain.single parent).includes child = .ok false ↔ child.id ≠ parent.id := by
  unfold Chain.includes Chain.single Chain.keys Chain.includesIn Key.isSame
  by_cases hid : parent.id = child.id
  · rw [if_neg (fun h => h hid)]
    cases parent.sameSecret child <;> simp [hid]
  · rw [if_pos hid]
    exact ⟨fun _ h => hid h.symm, fun _ => rfl⟩

/-- A chain of one key refuses exactly a child of the same identifier. -/
theorem chooseChild_single {parent : Key} {target : LinkTarget}
    (h : ∀ child, target = .key child → child.id ≠ parent.id) (source : RandomSource) :
    chooseChild (.single parent) target source =
      (.ok (target.child source).1, (target.child source).2) := by
  cases target with
  | terminal => rfl
  | key child =>
    have hincludes := (includes_single parent child).2 (h child rfl)
    simp only [chooseChild, hincludes, LinkTarget.child]

theorem chooseChild_single_same {parent child : Key} (h : child.id = parent.id) (source : RandomSource) :
    ∃ e, (chooseChild (.single parent) (.key child) source).1 = .error e := by
  simp only [chooseChild]
  cases hincludes : (Chain.single parent).includes child with
  | error e => exact ⟨e, rfl⟩
  | ok included =>
    cases included with
    | true => exact ⟨_, rfl⟩
    | false => exact absurd h ((includes_single parent child).1 hincludes)

/-- Where the slot refuses every child, so does the whole operation: the parent's chain does not resolve,
    or has the child on it, or goes on, or the slot has the last word. -/
theorem addLink_of_insertLink {parent : Key}
    (h : ∀ child source, ∃ e, (s.insertLink parent child source).1 = .error e) (target : LinkTarget)
    (source : RandomSource) : ∃ e, (s.addLink parent target source).1 = .error e := by
  rw [addLink_eq]
  cases Chain.resolve s.links parent .ignoreMissing with
  | error e => exact ⟨e, rfl⟩
  | ok chain =>
    cases hchoose : chooseChild chain target source with
    | mk chosen source' =>
      cases chosen with
      | error e => exact ⟨e, by simp only [hchoose]⟩
      | ok child =>
        cases hrest : chain.rest with
        | cons second _ => exact ⟨_, by simp only [hchoose, hrest]; rfl⟩
        | nil =>
          obtain ⟨e, he⟩ := h child source'
          exact ⟨e, by simp only [hchoose, hrest, he]⟩

/-- All that a successful call does, and when there is one: an exclusive store gets the link of the child
    in the slot of the parent, if that is empty and the child has another identifier. -/
theorem addLink_ok_iff {s' : Store} {parent : Key} {target : LinkTarget} {source source' : RandomSource} :
    s.addLink parent target source = (.ok s', source') ↔
      s.mode = .exclusive ∧ s.links.get? parent.id = none ∧
      (∀ child, target = .key child → child.id ≠ parent.id) ∧
      (s', source') = s.linked parent (target.child source).1 (target.child source).2 := by
  -- An occupied slot and a shared store are refused by the last check, if by none before it.
  have hrefused : (∃ e, (s.addLink parent target source).1 = .error e) →
      s.addLink parent target source ≠ (.ok s', source') := by
    intro hfails h
    obtain ⟨e, he⟩ := hfails
    rw [h] at he
    cases he
  by_cases hs : s.mode = .exclusive
  · cases hparent : s.links.get? parent.id with
    | some record =>
      have he := addLink_of_insertLink (insertLink_of_occupied hparent) target source
      exact ⟨fun h => absurd h (hrefused he), fun h => (by cases h.2.1)⟩
    | none =>
      have hchain := Chain.resolve_single hparent
      by_cases hother : ∀ child, target = .key child → child.id ≠ parent.id
      · have hok : s.addLink parent target source =
            s.insertLink parent (target.child source).1 (target.child source).2 := by
          simp only [addLink_eq, hchain, chooseChild_single hother]
          rfl
        rw [hok, insertLink_of_empty hs hparent]
        constructor
        · intro h
          obtain ⟨h₁, h₂⟩ := Prod.mk.inj h
          injection h₁ with h₁
          exact ⟨hs, rfl, hother, by rw [← h₁, ← h₂]⟩
        · intro h
          obtain ⟨-, -, -, hlinked⟩ := h
          rw [← hlinked]
      · have he : ∃ e, (s.addLink parent target source).1 = .error e := by
          cases target with
          | terminal => exact absurd (fun _ h => (by cases h)) hother
          | key child =>
            have hid : child.id = parent.id := by
              by_cases hid : child.id = parent.id
              · exact hid
              · exact absurd (fun _ h => (by cases h; exact hid)) hother
            obtain ⟨e, he⟩ := chooseChild_single_same hid source
            refine ⟨e, ?_⟩
            rw [addLink_eq, hchain]
            cases hchoose : chooseChild (.single parent) (.key child) source with
            | mk chosen source' =>
              rw [hchoose] at he
              cases he
              simp only [hchoose]
        exact ⟨fun h => absurd h (hrefused he), fun h => absurd h.2.2.1 hother⟩
  · have hshared : s.mode = .shared := by
      cases hmode : s.mode with
      | exclusive => exact absurd hmode hs
      | shared => rfl
    have he := addLink_of_insertLink (insertLink_shared hshared parent) target source
    exact ⟨fun h => absurd h (hrefused he), fun h => absurd h.1 hs⟩

/-- A parent that owns no link can always be sealed. -/
theorem addLink_terminal (hs : s.mode = .exclusive) {parent : Key} (hparent : s.links.get? parent.id = none)
    (source : RandomSource) :
    ∃ s' source', s.addLink parent .terminal source = (.ok s', source') ∧
      (s', source') = s.linked parent (Key.terminal source).1 (Key.terminal source).2 :=
  ⟨_, _, addLink_ok_iff.2 ⟨hs, hparent, fun _ h => (by cases h), rfl⟩, rfl⟩

/-! What a store is left with. -/

/-- An insertion that does not fill the slot leaves the whole store as it is. -/
theorem insert_false {s' : Store} {id : KeyId} {record : Record}
    (h : s.insert id record = .ok (false, s')) : s' = s := by
  unfold insert at h
  split at h
  · cases h
  · split at h
    · cases h
      rfl
    · cases h

theorem insertLinkOn_eq (s : Store) (parent child : Key) (source : RandomSource) :
    s.insertLinkOn parent child source =
      match s.insertLink parent child source with
      | (.ok s', source) => (.ok (), s', source)
      | (.error e, source) => (.error e, s, source) := by
  rw [insertLink_eq]
  unfold insertLinkOn insertOn
  cases hinsert : s.insert parent.id (Link.encrypt parent child source).1 with
  | error e => simp only [hinsert]
  | ok outcome =>
    obtain ⟨filled, s'⟩ := outcome
    cases filled with
    | true => simp only [hinsert]
    | false =>
      obtain rfl := insert_false hinsert
      simp only [hinsert]

/-- In place, a call that fails leaves the whole store as it is, and one that succeeds leaves the store
    that `addLink` gives. -/
theorem addLinkOn_eq (s : Store) (parent : Key) (target : LinkTarget) (source : RandomSource) :
    s.addLinkOn parent target source =
      match s.addLink parent target source with
      | (.ok s', source) => (.ok (), s', source)
      | (.error e, source) => (.error e, s, source) := by
  rw [addLink_eq]
  unfold addLinkOn
  cases Chain.resolve s.links parent .ignoreMissing with
  | error e => rfl
  | ok chain =>
    cases hchoose : chooseChild chain target source with
    | mk chosen source' =>
      cases chosen with
      | error e => simp only [hchoose]
      | ok child =>
        cases hrest : chain.rest with
        | cons second _ => simp only [hchoose, hrest]
        | nil => simp only [hchoose, hrest, insertLinkOn_eq]

/-- A call succeeds exactly over an empty slot with a child of another identifier. One that fails leaves
    links and flag alone. One that succeeds fills the slot of the parent and no other, with a record
    that gives the child back; the parent's chain is then the parent alone, if the child is terminal, or
    goes on with the chain that the child had, if the parent is not on that. -/
theorem addLink_exact (s : Store) (hs : s.mode = .exclusive) (parent : Key) (target : LinkTarget)
    (source : RandomSource) :
    ((∃ s' source', s.addLink parent target source = (.ok s', source')) ↔
      s.links.get? parent.id = none ∧ ∀ child, target = .key child → child.id ≠ parent.id) ∧
    (∀ e source', s.addLink parent target source = (.error e, source') →
      s.addLinkOn parent target source = (.error e, s, source')) ∧
    (∀ s' source', s.addLink parent target source = (.ok s', source') →
      s.addLinkOn parent target source = (.ok (), s', source') ∧
      s' = { s with links := s'.links, dirty := true } ∧
      ∃ child record, target.StandsFor child ∧ record.bytes.length = 113 ∧
        (∀ id, s'.links.get? id = if id = parent.id then some record else s.links.get? id) ∧
        (child.Sound →
          Link.decrypt parent record.bytes = .ok { child with index := none } ∧
          (child.isTerminal = true →
            ∀ mode, Chain.resolve s'.links parent mode = .ok (.single parent)) ∧
          (child.isTerminal = false →
            ∀ mode c, Chain.resolve s.links child .ignoreMissing = .ok c →
              parent.id ∉ c.keys.map Key.id →
              Chain.resolve s'.links parent mode =
                .ok ⟨parent, { child with index := none } :: c.rest⟩))) := by
  refine ⟨⟨?_, ?_⟩, ?_, ?_⟩
  · intro h
    obtain ⟨s', source', h⟩ := h
    obtain ⟨-, hparent, hother, -⟩ := addLink_ok_iff.1 h
    exact ⟨hparent, hother⟩
  · intro h
    obtain ⟨hparent, hother⟩ := h
    exact ⟨_, _, addLink_ok_iff.2 ⟨hs, hparent, hother, rfl⟩⟩
  · intro e source' h
    rw [addLinkOn_eq, h]
  · intro s' source' h
    refine ⟨by rw [addLinkOn_eq, h], ?_⟩
    obtain ⟨-, hparent, -, hlinked⟩ := addLink_ok_iff.1 h
    obtain ⟨rfl, -⟩ := Prod.mk.inj hlinked
    generalize hsource : (target.child source).2 = source₁
    have hstands := target.standsFor_child source
    generalize (target.child source).1 = child at hstands
    let nonce := (source₁.draw 24).1
    refine ⟨rfl, child, Link.encryptWith nonce parent child, hstands, FixedBytes.length_eq _, ?_, ?_⟩
    · intro id
      by_cases hid : id = parent.id
      · rw [if_pos hid, hid]
        exact Chain.get?_insert_self ..
      · rw [if_neg hid]
        exact Chain.get?_insert_ne hid ..
    · intro hsound
      have hdecrypt := Link.decrypt_encryptWith nonce parent hsound
      refine ⟨hdecrypt, fun hterminal mode => ?_, fun hcipher mode c hc hfree => ?_⟩
      · exact Chain.resolve_insert_closed s.links mode hdecrypt hterminal
      · have hroot := (Chain.resolve_shape hc).1
        have hc' : Chain.resolve s.links { child with index := none } .ignoreMissing =
            .ok ⟨{ child with index := none }, c.rest⟩ := by
          rw [Chain.resolve_withoutIndex, hc]
          rfl
        refine Chain.resolve_insert_leads mode hdecrypt hcipher hc' ?_
        rw [Chain.keys, List.map_cons] at hfree ⊢
        rw [hroot] at hfree
        exact hfree

/-- The first link of a store: the parent is followed by the child. -/
theorem addLink_exact_first :
    let s : Store := ⟨⟨"/d/.kcfs-keychain"⟩, .empty, false, .exclusive, none⟩
    let child := Key.ofSecret .aes256Xts (.zero secretSize)
    let parent : Key := ⟨⟨child.id.value + 1⟩, .invalid, .zero secretSize, none⟩
    let source : RandomSource := ⟨fun _ => 0, 0⟩
    s.mode = .exclusive ∧
    ∃ s' source', s.addLink parent (.key child) source = (.ok s', source') ∧
      ∀ mode, Chain.resolve s'.links parent mode = .ok ⟨parent, [child]⟩ := by
  intro s child parent source
  have hother : child.id ≠ parent.id := by
    intro h
    have hvalue : child.id.value = child.id.value + 1 := congrArg KeyId.value h
    simp at hvalue
  have hcipher : child.isTerminal = false := Key.isTerminal_ofSecret ..
  have hindex : { child with index := none } = child := by
    rw [← Key.index_ofSecret .aes256Xts (.zero secretSize)]
  have hderived : child.Sound := Key.sound_ofSecret ..
  clear_value child
  obtain ⟨hok, -, hdone⟩ := addLink_exact s rfl parent (.key child) source
  obtain ⟨s', source', h⟩ := hok.2 ⟨rfl, fun k hk => (by cases hk; exact hother)⟩
  refine ⟨rfl, s', source', h, fun mode => ?_⟩
  obtain ⟨-, -, child, record, rfl, -, -, hsound⟩ := hdone s' source' h
  have hfree : parent.id ∉ (Chain.single child).keys.map Key.id := by
    simpa [Chain.keys, Chain.single] using hother.symm
  have hresolve := (hsound hderived).2.2 hcipher mode _ (Chain.resolve_single rfl) hfree
  rw [hindex] at hresolve
  exact hresolve

end Store

end KeyChain
