import KeyChain.Proofs.Deeds
import KeyChain.Proofs.EntryNames
/-! Links of two parents, made in either order. Before a link is made the whole chain of its parent is resolved,
   and that may run through the slot that the other link goes into, or into a loop that the other link closes.
   None of this decides anything: a link is made exactly if the slot of its parent is empty and its child is
   another key, and the other link leaves both as they are.

   1. `OrderedMap.keys_eq_of_isSome`: maps that have values at the same keys list the same keys;
   2. `addLinkOn_tried`: what one try does, said by the store before it;
   3. `addBoth_tried`: what two tries do, said by the store before both, in a way that does not tell which of
      them came first;
   4. `addBoth_comm`: so the order makes no difference but in the nonces, and in the keys that seals are
      made of. -/
namespace KeyChain

theorem OrderedMap.keys_eq_of_isSome {κ ν : Type} [Ord κ] [Std.TransOrd κ] [Std.LawfulEqOrd κ]
    {m₁ m₂ : OrderedMap κ ν} (h : ∀ k, (m₁.get? k).isSome = (m₂.get? k).isSome) : m₁.keys = m₂.keys := by
  have hmem : ∀ k, k ∈ m₁.keys ↔ k ∈ m₂.keys := fun k => by
    rw [mem_keys, mem_keys, ← Option.isSome_iff_exists, ← Option.isSome_iff_exists, h]
  have hperm := (List.perm_ext_iff_of_nodup (nodup_keys m₁) (nodup_keys m₂)).2 hmem
  have hascending : ∀ m : OrderedMap κ ν, m.keys.Pairwise fun a b => compare a b = .lt := fun m =>
    List.pairwise_map.2 m.ascending
  refine hperm.eq_of_pairwise (fun a b _ _ hab hba => ?_) (hascending m₁) (hascending m₂)
  rw [← Std.OrientedCmp.gt_iff_lt, hab] at hba
  cases hba

namespace Store

variable {s t t' : Store} {p q parent : Key} {tp tq target : LinkTarget}

/-- What the slot of a key holds for its owner: nothing, or what its record decrypts to. -/
def opened (s : Store) (owner : Key) : Option (Except KeychainError Key) :=
  (s.lookup? owner.id).map fun record => Link.decrypt owner record.bytes

/-- Whether a parent can be linked to a target: its slot is empty, and the target is another key. -/
def Accepts (s : Store) (parent : Key) (target : LinkTarget) : Prop :=
  s.lookup? parent.id = none ∧ ∀ child, target = .key child → child.id ≠ parent.id

/-- Whether this can be in the slot of a parent after a link was tried: the link, if it was accepted, and else
    what was there. -/
def Tried (s : Store) (parent : Key) (target : LinkTarget) (slot : Option Record) : Prop :=
  (s.Accepts parent target ∧ ∃ nonce child, target.StandsFor child ∧
      slot = some (Link.encryptWith nonce parent child)) ∨
    ¬ s.Accepts parent target ∧ slot = s.lookup? parent.id

/-- Tries to make two links, one after the other, and says which of them were made. -/
def addBoth (s : Store) (first second : Key × LinkTarget) (source : RandomSource) : (Bool × Bool) × Store :=
  let (result, s, source) := s.addLinkOn first.1 first.2 source
  let (result', s, _) := s.addLinkOn second.1 second.2 source
  ((result.isOk, result'.isOk), s)

/-- Whether two stores, which one store became by the same tries, have the same in the slot of a parent. A new
    seal is a terminal key in each of them; all else opens to the same. -/
def OpensAlike (s t t' : Store) (parent : Key) (target : LinkTarget) : Prop :=
  if target = .terminal ∧ s.lookup? parent.id = none then
    (∃ child, t.opened parent = some (.ok child) ∧ child.isTerminal = true) ∧
      ∃ child, t'.opened parent = some (.ok child) ∧ child.isTerminal = true
  else t.opened parent = t'.opened parent

/-! One try. -/

/-- The slot of a parent decides alone, whatever the chains of the store are like. -/
theorem addLinkOn_tried (hs : s.mode = .exclusive) (parent : Key) (target : LinkTarget) (source : RandomSource) :
    ∃ result t source', s.addLinkOn parent target source = (result, t, source') ∧
      (result.isOk = true ↔ s.Accepts parent target) ∧ s.Tried parent target (t.lookup? parent.id) ∧
      (∀ id, id ≠ parent.id → t.lookup? id = s.lookup? id) ∧
      t = { s with links := t.links, dirty := s.dirty || result.isOk } := by
  rw [addLinkOn_eq]
  cases hadd : s.addLink parent target source with
  | mk result source' =>
    cases result with
    | ok s' =>
      obtain ⟨-, hempty, hother, hlinked⟩ := addLink_ok_iff.1 hadd
      obtain ⟨rfl, -⟩ := Prod.mk.inj hlinked
      have haccepts : s.Accepts parent target := ⟨hempty, hother⟩
      refine ⟨_, _, _, rfl, iff_of_true rfl haccepts, .inl ⟨haccepts, ((target.child source).2.draw 24).1, _,
        target.standsFor_child source, ?_⟩, fun id hid => ?_, ?_⟩
      · exact Chain.get?_insert_self ..
      · exact Chain.get?_insert_ne hid ..
      · rw [show (Except.ok () : Except KeychainError Unit).isOk = true from rfl, Bool.or_true]
    | error e =>
      have hrefuses : ¬ s.Accepts parent target := by
        intro haccepts
        obtain ⟨hempty, hother⟩ := haccepts
        have hok : s.addLink parent target source = _ := addLink_ok_iff.2 ⟨hs, hempty, hother, rfl⟩
        rw [hadd] at hok
        cases hok
      refine ⟨_, _, _, rfl, iff_of_false (fun h => ?_) hrefuses, .inr ⟨hrefuses, rfl⟩, fun id _ => rfl, ?_⟩
      · cases h
      · rw [show (Except.error e : Except KeychainError Unit).isOk = false from rfl, Bool.or_false]

/-- A slot that was filled elsewhere changes nothing for a parent. -/
theorem accepts_congr (h : t.lookup? parent.id = s.lookup? parent.id) :
    t.Accepts parent target ↔ s.Accepts parent target := by
  unfold Accepts
  rw [h]

theorem tried_congr (h : t.lookup? parent.id = s.lookup? parent.id) {slot : Option Record} :
    t.Tried parent target slot ↔ s.Tried parent target slot := by
  unfold Tried
  rw [accepts_congr h, h]

/-! Two tries. -/

/-- What two tries do, said by the store before them: which links are made, and what is in the slots. -/
structure TriedBoth (s : Store) (p : Key) (tp : LinkTarget) (q : Key) (tq : LinkTarget) (madeP madeQ : Bool)
    (t : Store) : Prop where
  made : (madeP = true ↔ s.Accepts p tp) ∧ (madeQ = true ↔ s.Accepts q tq)
  slots : s.Tried p tp (t.lookup? p.id) ∧ s.Tried q tq (t.lookup? q.id)
  others : ∀ id, id ≠ p.id → id ≠ q.id → t.lookup? id = s.lookup? id
  kept : t = { s with links := t.links, dirty := s.dirty || (madeP || madeQ) }

theorem TriedBoth.symm {madeP madeQ : Bool} (h : TriedBoth s p tp q tq madeP madeQ t) :
    TriedBoth s q tq p tp madeQ madeP t :=
  ⟨h.made.symm, h.slots.symm, fun id hq hp => h.others id hp hq, by rw [Bool.or_comm madeQ]; exact h.kept⟩

theorem addBoth_tried (hs : s.mode = .exclusive) (hne : p.id ≠ q.id) (tp tq : LinkTarget) (source : RandomSource) :
    TriedBoth s p tp q tq (s.addBoth (p, tp) (q, tq) source).1.1 (s.addBoth (p, tp) (q, tq) source).1.2
      (s.addBoth (p, tp) (q, tq) source).2 := by
  obtain ⟨result, s₁, source₁, hfirst, hmade, hslot, hothers, hkept⟩ := addLinkOn_tried hs p tp source
  have hs₁ : s₁.mode = .exclusive := by
    rw [hkept]
    exact hs
  obtain ⟨result', s₂, source₂, hsecond, hmade', hslot', hothers', hkept'⟩ := addLinkOn_tried hs₁ q tq source₁
  have hboth : s.addBoth (p, tp) (q, tq) source = ((result.isOk, result'.isOk), s₂) := by
    unfold addBoth
    simp only [hfirst, hsecond]
  have hunmoved : s₁.lookup? q.id = s.lookup? q.id := hothers q.id hne.symm
  rw [hboth]
  refine ⟨⟨hmade, hmade'.trans (accepts_congr hunmoved)⟩, ⟨?_, (tried_congr hunmoved).1 hslot'⟩,
    fun id hp hq => (hothers' id hq).trans (hothers id hp), ?_⟩
  · rw [hothers' p.id hne]
    exact hslot
  · rw [hkept', hkept, Bool.or_assoc]

/-! What cannot be told. -/

/-- A slot is filled or not, whichever nonce was drawn. -/
theorem Tried.isSome_eq {slot slot' : Option Record} (h : s.Tried parent target slot)
    (h' : s.Tried parent target slot') : slot.isSome = slot'.isSome := by
  rcases h with ⟨haccepts, nonce, child, -, rfl⟩ | ⟨hrefuses, rfl⟩
  · obtain ⟨-, nonce', child', -, rfl⟩ := h'.resolve_right fun h => h.1 haccepts
    rw [Option.isSome_some, Option.isSome_some]
  · rw [(h'.resolve_left fun h => hrefuses h.1).2]

/-- A new seal opens to a terminal key. -/
theorem Tried.opened_seal (haccepts : s.Accepts parent .terminal) (h : s.Tried parent .terminal (t.lookup? parent.id)) :
    ∃ child, t.opened parent = some (.ok child) ∧ child.isTerminal = true := by
  obtain ⟨-, nonce, child, hchild, hslot⟩ := h.resolve_right fun h => h.1 haccepts
  have hterminal : child.isTerminal = true := hchild
  refine ⟨{ child with index := none }, ?_, hterminal⟩
  rw [opened, hslot, Option.map_some, Link.decrypt_encryptWith nonce parent (.inl hterminal)]

/-- A slot opens to the same whichever nonce was drawn for it. -/
theorem Tried.opened_eq {child : Key} (h : s.Tried parent (.key child) (t.lookup? parent.id))
    (h' : s.Tried parent (.key child) (t'.lookup? parent.id)) : t.opened parent = t'.opened parent := by
  unfold opened
  rcases h with ⟨haccepts, nonce, k, rfl, hslot⟩ | ⟨hrefuses, hslot⟩
  · obtain ⟨-, nonce', k', rfl, hslot'⟩ := h'.resolve_right fun h => h.1 haccepts
    rw [hslot, hslot', Option.map_some, Option.map_some, Link.decrypt_encryptWith_eq, Link.decrypt_encryptWith_eq]
  · rw [hslot, (h'.resolve_left fun h => hrefuses h.1).2]

theorem Tried.opensAlike (h : s.Tried parent target (t.lookup? parent.id))
    (h' : s.Tried parent target (t'.lookup? parent.id)) : OpensAlike s t t' parent target := by
  unfold OpensAlike
  cases target with
  | key child =>
    rw [if_neg fun hseal => (by cases hseal.1)]
    exact h.opened_eq h'
  | terminal =>
    by_cases hempty : s.lookup? parent.id = none
    · have haccepts : s.Accepts parent .terminal := ⟨hempty, fun _ hkey => by cases hkey⟩
      rw [if_pos ⟨rfl, hempty⟩]
      exact ⟨h.opened_seal haccepts, h'.opened_seal haccepts⟩
    · have hrefuses : ¬ s.Accepts parent .terminal := fun haccepts => hempty haccepts.1
      rw [if_neg fun hseal => hempty hseal.2]
      unfold opened
      rw [(h.resolve_left fun h => hrefuses h.1).2, (h'.resolve_left fun h => hrefuses h.1).2]

/-- Links of different parents can be made in either order, whatever the store holds, whatever the four keys have
    to do with each other, and whatever random bytes are drawn: the same of the two succeed and fail, the same
    keys own links afterwards, the slots of both parents open to the same for them, and no other slot has
    changed. -/
theorem addBoth_comm (hs : s.mode = .exclusive) (hne : p.id ≠ q.id) (tp tq : LinkTarget)
    (source source' : RandomSource) :
    let forth := s.addBoth (p, tp) (q, tq) source
    let back := s.addBoth (q, tq) (p, tp) source'
    forth.1 = back.1.swap ∧ (forth.1.1 = true ↔ s.Accepts p tp) ∧ (forth.1.2 = true ↔ s.Accepts q tq) ∧
      forth.2 = { back.2 with links := forth.2.links } ∧ forth.2.parents = back.2.parents ∧
      OpensAlike s forth.2 back.2 p tp ∧ OpensAlike s forth.2 back.2 q tq ∧
      ∀ id, id ≠ p.id → id ≠ q.id →
        forth.2.lookup? id = s.lookup? id ∧ back.2.lookup? id = s.lookup? id := by
  intro forth back
  have hforth : TriedBoth s p tp q tq forth.1.1 forth.1.2 forth.2 := addBoth_tried hs hne tp tq source
  have hback : TriedBoth s p tp q tq back.1.2 back.1.1 back.2 := (addBoth_tried hs hne.symm tq tp source').symm
  have hp : forth.1.1 = back.1.2 := Bool.eq_iff_iff.2 (hforth.made.1.trans hback.made.1.symm)
  have hq : forth.1.2 = back.1.1 := Bool.eq_iff_iff.2 (hforth.made.2.trans hback.made.2.symm)
  refine ⟨Prod.ext hp hq, hforth.made.1, hforth.made.2, ?_, ?_, hforth.slots.1.opensAlike hback.slots.1,
    hforth.slots.2.opensAlike hback.slots.2, fun id hp hq => ⟨hforth.others id hp hq, hback.others id hp hq⟩⟩
  · rw [hforth.kept, hback.kept, hp, hq]
  · refine OrderedMap.keys_eq_of_isSome fun id => ?_
    by_cases hidp : id = p.id
    · subst hidp
      exact hforth.slots.1.isSome_eq hback.slots.1
    by_cases hidq : id = q.id
    · subst hidq
      exact hforth.slots.2.isSome_eq hback.slots.2
    · exact congrArg Option.isSome ((hforth.others id hidp hidq).trans (hback.others id hidp hidq).symm)

/-- Two keys that are linked to each other. Both links are made, in either order, and close a loop. -/
theorem addBoth_comm_loop :
    let s : Store := ⟨⟨"/d/.kcfs-keychain"⟩, .empty, false, .exclusive, none⟩
    let p : Key := ⟨⟨1⟩, .aes256Xts, .zero secretSize, none⟩
    let q : Key := ⟨⟨2⟩, .aes256Xts, .zero secretSize, none⟩
    let source : RandomSource := ⟨fun _ => 0, 0⟩
    s.mode = .exclusive ∧ p.id ≠ q.id ∧
      (s.addBoth (p, .key q) (q, .key p) source).1 = (true, true) ∧
      (s.addBoth (q, .key p) (p, .key q) source).1 = (true, true) ∧
      (s.addBoth (p, .key q) (q, .key p) source).2.parents = (s.addBoth (q, .key p) (p, .key q) source).2.parents := by
  intro s p q source
  have hne : p.id ≠ q.id := by decide
  obtain ⟨hsame, hp, hq, -, hparents, -⟩ :=
    @addBoth_comm s p q rfl hne (.key q) (.key p) source source
  have hmade : (s.addBoth (p, .key q) (q, .key p) source).1 = (true, true) := by
    refine Prod.ext (hp.2 ⟨rfl, fun child h => ?_⟩) (hq.2 ⟨rfl, fun child h => ?_⟩)
    · cases h
      exact hne.symm
    · cases h
      exact hne
  refine ⟨rfl, hne, hmade, ?_, hparents⟩
  rw [← Prod.swap_swap (s.addBoth (q, .key p) (p, .key q) source).1, ← hsame, hmade]
  rfl

end Store

end KeyChain
