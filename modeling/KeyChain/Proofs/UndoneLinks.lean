import KeyChain.Proofs.DeleteCalls
import KeyChain.Proofs.LoopCalls
import KeyChain.Proofs.StoreRoundTrip
/-! Deleting the first link of a chain takes back the link that was made last.

   1. `Chain.head?_of_resolve`: behind the root of a chain is the key that its slot leads to, so behind a new link
      is its child;
   2. `Store.deleteChain_linked`: deleting the first link of a chain that was looked up behind a new link reports
      the parent and the child, and leaves the links that there were before;
   3. `Root.set_undone`: the same for calls, each of which opens the file, reads it, and writes it again. -/
namespace KeyChain

/-- The key that a link to a target puts behind its parent, if it does not close the chain. -/
def LinkTarget.next : LinkTarget → Option KeyId
  | .key child => if child.isTerminal then none else some child.id
  | .terminal => none

/-- It is that of the child that stands for the target. -/
theorem LinkTarget.next_eq {target : LinkTarget} {child : Key} (h : target.StandsFor child) :
    target.next = if child.isTerminal then none else some child.id := by
  cases target with
  | key k =>
    obtain rfl : child = k := h
    rfl
  | terminal =>
    have hterminal : child.isTerminal = true := h
    rw [if_pos hterminal]
    rfl

namespace Chain

variable {links : Links} {root parent child : Key} {mode : ChainMode} {c : Chain}

/-- Behind the root of a chain is the key that its slot leads to. -/
theorem head?_of_resolve (h : resolve links root mode = .ok c) :
    c.rest.head? =
      match opening links root with
      | .leads child => some child
      | _ => none := by
  unfold resolve at h
  split at h
  · cases h
  · cases hfollow : follow links [root.id] root with
    | error e => rw [hfollow] at h; cases h
    | ok rest =>
      rw [hfollow] at h
      cases h
      dsimp only
      rw [follow_eq] at hfollow
      cases hopen : opening links root with
      | refused e => rw [hopen] at hfollow; cases hfollow
      | empty => rw [hopen] at hfollow; cases hfollow; rfl
      | closed => rw [hopen] at hfollow; cases hfollow; rfl
      | leads child =>
        rw [hopen] at hfollow
        dsimp only at hfollow
        split at hfollow
        · cases hfollow
        · cases hnext : follow (links.erase root.id) [child.id, root.id] child with
          | error e => rw [hnext] at hfollow; cases hfollow
          | ok onward => rw [hnext] at hfollow; cases hfollow; rfl

/-- Behind a new link is its child, unless that closes the chain. -/
theorem head?_of_linked {nonce : FixedBytes 24}
    (h : resolve (links.insert parent.id (Link.encryptWith nonce parent child)) parent mode = .ok c) :
    c.rest.head?.map Key.id = if child.isTerminal then none else some child.id := by
  rw [head?_of_resolve h]
  cases hdecrypt : Link.decrypt parent (Link.encryptWith nonce parent child).bytes with
  | error e =>
    -- A chain is not resolved over a link that its owner cannot read.
    have hrefused := opening_eq_refused.2 ⟨_, get?_insert_self links parent.id _, hdecrypt⟩
    have hfails := (@resolve_refused_iff _ _ mode _).1 ⟨[], parent, .start, hrefused⟩
    cases hfails.1.symm.trans h
  | ok k =>
    rw [opening_insert links hdecrypt]
    rw [Link.decrypt_encryptWith_eq] at hdecrypt
    split at hdecrypt
    · cases hdecrypt
    · obtain rfl := Except.ok.inj hdecrypt
      have hsame : ({ child with index := none } : Key).isTerminal = child.isTerminal := rfl
      rw [hsame]
      cases child.isTerminal <;> rfl

end Chain

namespace Store

variable {s : Store} {links : Links} {parent child : Key} {target : LinkTarget} {nonce : FixedBytes 24} {chain : Chain}

/-- Deleting the first link of a chain that was looked up behind a new link takes that link back. -/
theorem deleteChain_linked (hmode : s.mode = .exclusive)
    (hlinks : s.links = links.insert parent.id (Link.encryptWith nonce parent child)) (hchild : target.StandsFor child)
    (hempty : links.get? parent.id = none) (hchain : Chain.resolve s.links parent .use = .ok chain) :
    ∃ s', s.deleteChain chain .first = (.ok [⟨parent.id, target.next⟩], s') ∧ s'.links = links := by
  obtain ⟨s', hdelete, hslots⟩ := deleteChain_ok hmode hchain .first
  have hroot : chain.root = parent := (Chain.resolve_shape hchain).1
  have hids : DeleteScope.first.part chain.ids = [parent.id] := by
    rw [Chain.ids, Chain.keys, hroot]
    rfl
  have hhops : DeleteScope.first.part (hopsOf chain.ids) = [⟨parent.id, target.next⟩] := by
    rw [hlinks] at hchain
    have hnext := Chain.head?_of_linked hchain
    rw [← LinkTarget.next_eq hchild, ← List.head?_map] at hnext
    rw [Chain.ids, Chain.keys, hroot, List.map_cons, hopsOf, hnext]
    rfl
  refine ⟨s', by rw [hdelete, hhops], OrderedMap.ext_get? fun id => ?_⟩
  rw [hslots, hids]
  by_cases hid : id = parent.id
  · rw [if_pos (List.mem_singleton.2 hid), hid, hempty]
  · rw [if_neg fun hmem => hid (List.mem_singleton.1 hmem), hlinks, Chain.get?_insert_ne hid]

end Store

namespace Root

variable {m m₁ m₂ : Machine} {root : Root} {dir : Location} {links : Links} {parent : Key} {target : LinkTarget}
  {source source' : RandomSource}

/-- A linking that succeeds has put the link of a child that stands for the target into an empty slot. -/
theorem stores_of_set (h : m.Stores root.path dir links) (hfaultless : m.diskFaults = {})
    (hset : (root.set parent target source).run m = ((.ok (), source'), m₁)) :
    m₁.diskFaults = {} ∧ links.get? parent.id = none ∧ ∃ nonce child, target.StandsFor child ∧
      m₁.Stores root.path dir (links.insert parent.id (Link.encryptWith nonce parent child)) := by
  obtain ⟨m', hrun, hfaultless', h'⟩ :=
    @run_set_faultless m root dir (Store.keeping root.path links) h hfaultless rfl rfl parent target source
  rw [hset, Store.addLinkOn_eq] at hrun
  rw [Store.addLinkOn_eq] at h'
  cases hadd : (Store.keeping root.path links).addLink parent target source with
  | mk result source'' =>
    rw [hadd] at hrun h'
    obtain ⟨hresult, rfl⟩ := Prod.mk.inj hrun
    cases result with
    | error e => cases hresult
    | ok s' =>
      obtain ⟨-, hempty, -, hlinked⟩ := Store.addLink_ok_iff.1 hadd
      obtain ⟨rfl, -⟩ := Prod.mk.inj hlinked
      exact ⟨hfaultless', hempty, ((target.child source).2.draw 24).1, _, target.standsFor_child source, h'⟩

/-- Deleting undoes linking, on a machine that refuses nothing and whatever links the file of the root gives
    (none if it is not there). If a parent was linked to a target, and its chain can be looked up then, deleting
    the first link of that succeeds, reports the parent and the child, and leaves a file that gives exactly the
    links that there were before, so every look-up has the outcome that it had. -/
theorem set_undone {content : Option Bytes} {chain : Chain} (h : m.Holds root.path dir content none)
    (hfaultless : m.diskFaults = {}) (hload : (Store.load (Store.pathFor root.path)).run m = (.ok links, m))
    (hset : (root.set parent target source).run m = ((.ok (), source'), m₁))
    (hget : (root.get parent .use).run m₁ = (.ok chain, m₂)) :
    ∃ m', (root.delete parent .first).run m₂ = (.ok [⟨parent.id, target.next⟩], m') ∧
      (Store.load (Store.pathFor root.path)).run m' = (.ok links, m') ∧ m'.Stores root.path dir links ∧
      ∀ key mode, ((root.get key mode).run m').1 = ((root.get key mode).run m).1 := by
  rw [Store.run_load_faultless h hfaultless] at hload
  have hstores : m.Stores root.path dir links := ⟨content, h, (Prod.mk.inj hload).1⟩
  obtain ⟨hfaultless₁, hempty, nonce, child, hchild, h₁⟩ := stores_of_set hstores hfaultless hset
  obtain ⟨_, hget', hfaultless₂, h₂⟩ := run_get_faultless h₁ hfaultless₁ parent .use
  rw [hget] at hget'
  obtain ⟨hchain, rfl⟩ := Prod.mk.inj hget'
  -- The store that the deletion opens, as if it were kept open.
  let s := Store.keeping root.path (links.insert parent.id (Link.encryptWith nonce parent child))
  obtain ⟨s', hdeleted, hback⟩ := @Store.deleteChain_linked s links _ _ _ _ _ rfl rfl hchild hempty hchain.symm
  obtain ⟨result, m', hdelete, hfaultless', hcalled⟩ :=
    @run_delete_faultless m₂ root dir s h₂ hfaultless₂ rfl rfl parent .first
  rw [show Chain.resolve s.links parent .use = _ from hchain.symm] at hcalled
  dsimp only at hcalled
  rw [hdeleted, hback] at hcalled
  obtain ⟨rfl, hstores'⟩ := hcalled
  refine ⟨m', hdelete, ?_, hstores', fun key mode => ?_⟩
  · obtain ⟨content', h', hspelled⟩ := hstores'
    rw [Store.run_load_faultless h' hfaultless', hspelled]
  · obtain ⟨_, hbefore, -⟩ := run_get_faultless hstores hfaultless key mode
    obtain ⟨_, hafter, -⟩ := run_get_faultless hstores' hfaultless' key mode
    rw [hbefore, hafter]

/-- The first link of a root, to a key with a cipher, and back. -/
theorem set_undone_first :
    let root : Root := ⟨⟨"/"⟩⟩
    let child := Key.ofSecret .aes256Xts (.zero secretSize)
    let parent : Key := ⟨⟨child.id.value + 1⟩, .invalid, .zero secretSize, none⟩
    let source : RandomSource := ⟨fun _ => 0, 0⟩
    let m := Machine.new Disk.empty
    m.Holds root.path Location.root none none ∧ m.diskFaults = {} ∧
      (Store.load (Store.pathFor root.path)).run m = (.ok OrderedMap.empty, m) ∧
      ∃ source' m₁ m₂ m', (root.set parent (.key child) source).run m = ((.ok (), source'), m₁) ∧
        (root.get parent .use).run m₁ = (.ok ⟨parent, [child]⟩, m₂) ∧
        (root.delete parent .first).run m₂ = (.ok [⟨parent.id, some child.id⟩], m') ∧
        (Store.load (Store.pathFor root.path)).run m' = (.ok OrderedMap.empty, m') := by
  intro root child parent source m
  have hother : child.id ≠ parent.id := by
    intro h
    have hvalue : child.id.value = child.id.value + 1 := congrArg KeyId.value h
    simp at hvalue
  have hcipher : child.isTerminal = false := Key.isTerminal_ofSecret ..
  have hsound : child.Sound := Key.sound_ofSecret ..
  have hindex : { child with index := none } = child := by
    rw [← Key.index_ofSecret .aes256Xts (.zero secretSize)]
  clear_value child
  have hload : (Store.load (Store.pathFor root.path)).run m = (.ok OrderedMap.empty, m) :=
    Store.run_load_faultless holds_new rfl
  have hadd : (Store.keeping root.path .empty).addLink parent (.key child) source = _ :=
    Store.addLink_ok_iff.2 ⟨rfl, rfl, fun k hk => (by cases hk; exact hother), rfl⟩
  obtain ⟨m₁, hset, hfaultless₁, h₁⟩ := @run_set_faultless m root Location.root (Store.keeping root.path .empty)
    ⟨none, holds_new, rfl⟩ rfl rfl rfl parent (.key child) source
  rw [Store.addLinkOn_eq, hadd] at hset h₁
  obtain ⟨m₂, hget, -⟩ := run_get_faultless h₁ hfaultless₁ parent .use
  have hfree : parent.id ∉ (Chain.single child).keys.map Key.id := by
    simpa [Chain.keys, Chain.single] using hother.symm
  have hdecrypt := Link.decrypt_encryptWith (source.draw 24).1 parent hsound
  rw [hindex] at hdecrypt
  have hchain : Chain.resolve _ parent .use = .ok ⟨parent, [child]⟩ :=
    Chain.resolve_insert_leads .use hdecrypt hcipher (Chain.resolve_single (OrderedMap.get?_empty _)) hfree
  have hlooked : (root.get parent .use).run m₁ = (.ok ⟨parent, [child]⟩, m₂) := by
    rw [hget]
    exact congrArg (·, m₂) hchain
  obtain ⟨m', hdelete, hback, -⟩ := set_undone holds_new rfl hload hset hlooked
  refine ⟨holds_new, rfl, hload, _, m₁, m₂, m', hset, hlooked, ?_, hback⟩
  rw [hdelete, LinkTarget.next, if_neg (by simp [hcipher])]

end Root

end KeyChain
