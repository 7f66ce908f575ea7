import XSBEngine.Library.System
import XSBEngine.Delay.Lists

/-!
# Runs of delays and simplifications

Answers with delays come in, and the simplifications of `XSB/emu/slgdelay.c:1296–1605` and the
removal of answers, `XSB/emu/tr_utils.c:1394–1410, 5472–5474`, take elements, delay lists and
answers away. In between every list of entries is exact.
-/

namespace XSBEngine.Delay

open Library List

/-- The steps: an answer is returned with delays, the body of a simplification loop for an entry or
for a delay list, all delay lists of an answer are released before it is marked as unconditional or
deleted, an answer without delay lists is deleted, and delay information is given back. -/
inductive DelayEvent where
  | doDelayStuff (failed : Nat → Bool) (leaf : Nat) (sfExists : Bool)
      (delayreg : List (Nat × Option Nat))
  | simplifyDe (o : Owner) (pnde : Nat)
  | simplifyDl (dl : Nat)
  | releaseAllDls (leaf : Nat) (c : Child)
  | deleteBranch (leaf : Nat)
  | freeAsi (leaf : Nat)

/-- A cell is on the list from a pointer on. -/
def OnList (next : Nat → Option Nat) (head : Option Nat) (x : Nat) : Prop :=
  ∃ l, Linked next head l ∧ x ∈ l

namespace DelayTables

variable {s s' : DelayTables} {o : Owner} {leaf : Nat}

/-- What a step does. -/
def run (s : DelayTables) : DelayEvent → Option DelayTables
  | .doDelayStuff failed leaf sfExists delayreg => s.doDelayStuff failed leaf sfExists delayreg
  | .simplifyDe o pnde => (s.simplifyDe o pnde).map Prod.snd
  | .simplifyDl dl => (s.simplifyDl dl).map Prod.snd
  | .releaseAllDls leaf c => (s.releaseAllDls leaf).map fun s => s.setChild leaf c
  | .deleteBranch leaf => some (s.setChild leaf .deleted)
  | .freeAsi leaf => some (s.setChild leaf .null)

/-- When the code takes a step. -/
def Allowed (s : DelayTables) : DelayEvent → Prop
  | .doDelayStuff _ leaf sfExists _ =>
    -- a new leaf has no child, and the answer is in the trie
    (sfExists = false → s.child leaf = .null) ∧ s.child leaf ≠ .deleted
  | .simplifyDe o pnde => OnList s.pndes.pool.next (s.pndes.head o) pnde
  | .simplifyDl dl => ∃ leaf, s.child leaf = .asi ∧ OnList s.dls.pool.next (s.dlList leaf) dl
  | .releaseAllDls leaf c => s.child leaf = .asi ∧ (c = .unconditional ∨ c = .deleted)
  | .deleteBranch leaf => s.child leaf = .asi ∧ s.dlList leaf = none
  | .freeAsi leaf =>
    -- the loops of the simplifications have emptied the list
    (s.child leaf = .unconditional ∨ s.child leaf = .deleted) ∧ s.pndes.head (.answer leaf) = none

/-- No table has an entry, and no answer has delay information. -/
structure Initial (s : DelayTables) : Prop where
  pndes : s.pndes.pool.released = none
  des : s.des.pool.released = none
  dls : s.dls.pool.released = none
  head : ∀ o, s.pndes.head o = none
  child : ∀ leaf, s.child leaf = .null

/-- A delay element that is in a delay list of a conditional answer. -/
def Live (s : DelayTables) (de : Nat) : Prop :=
  ∃ leaf dl, s.child leaf = .asi ∧ OnList s.dls.pool.next (s.dlList leaf) dl ∧
    OnList s.des.pool.next (s.dls.deList dl) de

/-- The entries for an owner: they are linked from its field, each but the first has a link back to
the one before it, and they are for the live elements that refer to the owner, once for each. -/
structure ListOf (s : DelayTables) (o : Owner) (l : List Nat) : Prop where
  linked : Linked s.pndes.pool.next (s.pndes.head o) l
  back : BackLinked s.pndes.prev l
  nodup : (l.map s.pndes.de).Nodup
  live : ∀ de, de ∈ l.map s.pndes.de ↔ s.Live de ∧ s.des.owner de = o

variable {own : Owner → List Nat} {E D : Nat → List Nat}

theorem OK.linked_dls (h : s.OK own E D) (hchild : s.child leaf = .asi) :
    Linked s.dls.pool.next (s.dlList leaf) (D leaf) := by
  rw [h.dlList leaf hchild]
  exact h.dls.linked leaf

theorem OK.linked_pndes (h : s.OK own E D) (o : Owner) :
    Linked s.pndes.pool.next (s.pndes.head o) (own o) := by
  rw [h.uses.head]
  exact h.uses.holds.linked o

/-- The live elements are those of the lists. -/
theorem OK.live_iff (h : s.OK own E D) (de : Nat) : s.Live de ↔ ∃ dl, de ∈ E dl := by
  constructor
  · rintro ⟨leaf, dl, hchild, ⟨dls, hdls, hdl⟩, ⟨des, hdes, hde⟩⟩
    have hD := (h.linked_dls hchild).unique hdls
    have hlinked := h.des.linked dl
    rw [← h.deList leaf dl (hD ▸ hdl)] at hlinked
    exact ⟨dl, hlinked.unique hdes ▸ hde⟩
  · rintro ⟨dl, hde⟩
    obtain ⟨leaf, hdl⟩ := h.inList dl de hde
    have hchild := h.conditional leaf dl hdl
    refine ⟨leaf, dl, hchild, ⟨D leaf, h.linked_dls hchild, hdl⟩, E dl, ?_, hde⟩
    rw [h.deList leaf dl hdl]
    exact h.des.linked dl

theorem OK.listOf (h : s.OK own E D) (o : Owner) : s.ListOf o (own o) where
  linked := h.linked_pndes o
  back := h.uses.back o
  nodup := by
    apply List.Nodup.map_on _ (h.uses.holds.nodup o)
    intro p hp q hq heq
    rw [← (h.uses.element o p hp).2.1, heq, (h.uses.element o q hq).2.1]
  live de := by
    rw [h.live_iff, mem_map]
    constructor
    · rintro ⟨p, hp, rfl⟩
      obtain ⟨hde, -, howner⟩ := h.uses.element o p hp
      exact ⟨⟨_, hde⟩, howner⟩
    · rintro ⟨⟨dl, hde⟩, rfl⟩
      obtain ⟨hmem, hpde, -⟩ := h.uses.entry dl de hde
      exact ⟨_, hmem, hpde⟩

theorem Initial.ok (h : s.Initial) : s.OK (fun _ => []) (fun _ => []) fun _ => [] where
  uses := {
    holds := by
      have hempty := Pool.holds_empty Owner s.pndes.pool
      rwa [← h.pndes] at hempty
    head := h.head
    back := fun _ => isChain_nil
    entry := fun _ _ hde => absurd hde not_mem_nil
    element := fun _ _ hp => absurd hp not_mem_nil }
  des := by
    have hempty := Pool.holds_empty Nat s.des.pool
    rwa [← h.des] at hempty
  dls := by
    have hempty := Pool.holds_empty Nat s.dls.pool
    rwa [← h.dls] at hempty
  dlList leaf hchild := absurd ((h.child leaf).symm.trans hchild) Child.noConfusion
  conditional _ _ hdl := absurd hdl not_mem_nil
  deList _ _ hdl := absurd hdl not_mem_nil
  asl _ _ hdl := absurd hdl not_mem_nil
  inList _ _ hde := absurd hde not_mem_nil
  refers _ _ _ hde := absurd hde not_mem_nil

/-- A step that the code takes follows no null link, and keeps the invariant. -/
theorem OK.run (h : s.OK own E D) {e : DelayEvent} (he : s.Allowed e) :
    ∃ s' own' E' D', s.run e = some s' ∧ s'.OK own' E' D' := by
  cases e with
  | doDelayStuff failed leaf sfExists delayreg =>
    obtain ⟨s', own', E', D', heq, hOK, -⟩ := h.doDelayStuff failed delayreg he.1 he.2
    exact ⟨s', own', E', D', heq, hOK⟩
  | simplifyDe o pnde =>
    obtain ⟨l, hl, hmem⟩ := he
    obtain ⟨b, s', own', E', heq, hOK, -⟩ := h.simplifyDe ((h.linked_pndes o).unique hl ▸ hmem)
    exact ⟨s', own', E', D, by rw [DelayTables.run, heq]; rfl, hOK⟩
  | simplifyDl dl =>
    obtain ⟨leaf, hchild, l, hl, hmem⟩ := he
    obtain ⟨b, s', own', E', D', heq, hOK, -⟩ :=
      h.simplifyDl ((h.linked_dls hchild).unique hl ▸ hmem)
    exact ⟨s', own', E', D', by rw [DelayTables.run, heq]; rfl, hOK⟩
  | releaseAllDls leaf c =>
    obtain ⟨hchild, hc⟩ := he
    have hasi : c ≠ .asi := by rcases hc with rfl | rfl <;> exact Child.noConfusion
    have hnull : c ≠ .null := by rcases hc with rfl | rfl <;> exact Child.noConfusion
    obtain ⟨s', own', E', D', heq, hOK, -⟩ := h.releaseAllDls hchild hasi hnull
    exact ⟨_, own', E', D', by rw [DelayTables.run, heq]; rfl, hOK⟩
  | deleteBranch leaf =>
    obtain ⟨hchild, hnone⟩ := he
    have hD : D leaf = [] := by
      rw [h.dlList leaf hchild] at hnone
      exact List.head?_eq_none_iff.mp hnone
    exact ⟨_, own, E, D, rfl, h.setChild hD Child.noConfusion fun hc => Child.noConfusion hc⟩
  | freeAsi leaf =>
    obtain ⟨hchild, hnone⟩ := he
    have hD : D leaf = [] := by
      rw [eq_nil_iff_forall_not_mem]
      intro dl hdl
      have hasi := h.conditional leaf dl hdl
      rcases hchild with hchild | hchild <;> exact Child.noConfusion (hchild.symm.trans hasi)
    have hown : own (.answer leaf) = [] := by
      rw [h.uses.head] at hnone
      exact List.head?_eq_none_iff.mp hnone
    exact ⟨_, own, E, D, rfl, h.setChild hD Child.noConfusion fun _ => hown⟩

end DelayTables

/-- Runs from empty tables. -/
def delays : System DelayTables DelayEvent where
  init := DelayTables.Initial
  step s e s' := s.Allowed e ∧ s.run e = some s'

theorem delays_ok : delays.Invariant fun s => ∃ own E D, s.OK own E D where
  init _ hs := ⟨_, _, _, hs.ok⟩
  step s e s' := by
    rintro ⟨own, E, D, hOK⟩ ⟨hallowed, hrun⟩
    obtain ⟨s1, own', E', D', hrun', hOK'⟩ := hOK.run hallowed
    obtain rfl : s1 = s' := Option.some.inj (hrun'.symm.trans hrun)
    exact ⟨own', E', D', hOK'⟩

/-- In every state the list of entries of each subgoal and of each answer is exact, and each live
element points to its own entry, which points back to the element and to its delay list. -/
theorem reachable_uses {s : DelayTables} (hs : delays.Reachable s) :
    (∀ o, ∃ l, s.ListOf o l) ∧
      ∀ leaf dl de, s.child leaf = .asi → OnList s.dls.pool.next (s.dlList leaf) dl →
        OnList s.des.pool.next (s.dls.deList dl) de →
        OnList s.pndes.pool.next (s.pndes.head (s.des.owner de)) (s.des.pnde de) ∧
          s.pndes.de (s.des.pnde de) = de ∧ s.pndes.dl (s.des.pnde de) = dl := by
  obtain ⟨own, E, D, hOK⟩ := delays_ok.holds hs
  refine ⟨fun o => ⟨own o, hOK.listOf o⟩, ?_⟩
  rintro leaf dl de hchild ⟨dls, hdls, hdl⟩ ⟨des, hdes, hde⟩
  have hD := (hOK.linked_dls hchild).unique hdls
  have hlinked := hOK.des.linked dl
  rw [← hOK.deList leaf dl (hD ▸ hdl)] at hlinked
  obtain ⟨hmem, hpde, hpdl⟩ := hOK.uses.entry dl de (hlinked.unique hdes ▸ hde)
  exact ⟨⟨_, hOK.linked_pndes _, hmem⟩, hpde, hpdl⟩

/-- Empty tables. -/
def DelayTables.start : DelayTables where
  pndes := ⟨⟨fun _ => none, none, 0⟩, fun _ => 0, fun _ => 0, fun _ => none, fun _ => none⟩
  des := ⟨⟨fun _ => none, none, 0⟩, fun _ => 0, fun _ => none, fun _ => 0⟩
  dls := ⟨⟨fun _ => none, none, 0⟩, fun _ => none, fun _ => none⟩
  child _ := .null
  dlList _ := none

/-- Two answers depend on the negation of a subgoal, and the first of the two entries is removed.
-/
theorem removed_reachable : ∃ s, delays.Reachable s ∧ s.pndes.head (.subgoal 0) = some 0 ∧
    s.pndes.pool.next 0 = none ∧ s.pndes.prev 0 = some 1 ∧ s.pndes.pool.released = some 1 := by
  have h0 : delays.Reachable .start := .init ⟨rfl, rfl, rfl, fun _ => rfl, fun _ => rfl⟩
  have h1 := h0.step (e := DelayEvent.doDelayStuff (fun _ => false) 5 false [(0, none)])
    ⟨⟨fun _ => rfl, Child.noConfusion⟩, rfl⟩
  have h2 := h1.step (e := DelayEvent.doDelayStuff (fun _ => false) 6 false [(0, none)])
    ⟨⟨fun _ => rfl, Child.noConfusion⟩, rfl⟩
  have h3 := h2.step (e := DelayEvent.simplifyDe (.subgoal 0) 1)
    ⟨⟨[1, 0], ⟨rfl, rfl, rfl⟩, by decide⟩, rfl⟩
  exact ⟨_, h3, rfl, rfl, rfl, rfl⟩

/-- The lists after a first entry was removed. -/
theorem removed_uses : ∃ s, delays.Reachable s ∧ s.pndes.pool.released = some 1 ∧
    (∀ o, ∃ l, s.ListOf o l) ∧
      ∀ leaf dl de, s.child leaf = .asi → OnList s.dls.pool.next (s.dlList leaf) dl →
        OnList s.des.pool.next (s.dls.deList dl) de →
        OnList s.pndes.pool.next (s.pndes.head (s.des.owner de)) (s.des.pnde de) ∧
          s.pndes.de (s.des.pnde de) = de ∧ s.pndes.dl (s.des.pnde de) = dl := by
  obtain ⟨s, hs, -, -, -, hreleased⟩ := removed_reachable
  exact ⟨s, hs, hreleased, reachable_uses hs⟩

/-- The link back of an entry that has become the first one still points to the removed entry. -/
theorem removePnde_keeps_prev : ¬ ∀ s, delays.Reachable s → ∀ o l,
    Linked s.pndes.pool.next (s.pndes.head o) l → ∀ p q, q ∈ l → s.pndes.prev q = some p →
      p ∈ l ∧ s.pndes.pool.next p = some q := by
  intro h
  obtain ⟨s, hs, hhead, hnext, hprev, -⟩ := removed_reachable
  have hmem := (h s hs (.subgoal 0) [0] ⟨hhead, hnext⟩ 1 0 mem_cons_self hprev).1
  exact absurd hmem (by decide)

end XSBEngine.Delay
