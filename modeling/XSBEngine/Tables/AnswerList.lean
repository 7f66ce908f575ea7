import Mathlib
import XSBEngine.Library.Linked
import XSBEngine.Library.System

/-!
# The answer list of an incomplete subgoal

`SF_AppendToAnswerList`, `XSB/emu/tab_structs.h:930–967`, `delete_return`,
`XSB/emu/tr_utils.c:1377–1471`, `get_next_trie_solution`, `XSB/emu/tries.c:686–693`, and the step of
a consumer in `answer_return`, `XSB/emu/slginsts_xsb_i.h:864–912`.
-/

namespace XSBEngine.Tables

open Function Library List Option

/-- The child field of an answer leaf. It is tagged with `HasALNPtr` if it points to the cell
before that of the answer, and else it is the delay information with `UNCONDITIONAL_MARK`. -/
inductive LeafChild where
  | null
  | aln (p : Nat)
  | asi (p : Nat) (unconditional : Bool)
deriving Repr, DecidableEq

/-- `hasALNtag`. -/
def LeafChild.hasALNtag : LeafChild → Bool
  | .aln _ => true
  | _ => false

/-- The answer list of a subgoal frame, the child fields of the leaves, the deleted cells of the
completion frame, and the last answers that the consumers have consumed. The frame of the generator
is one of these since `makeConsumerFromGenerator`. -/
structure AnswerList where
  alnAnswer : Nat → Option Nat
  alnNext : Nat → Option Nat
  child : Nat → LeafChild
  ansListPtr : Nat
  ansListTail : Option Nat
  delRetList : Option Nat
  trieReturn : List Nat

namespace AnswerList

/-- `has_answers`. -/
def hasAnswers (t : AnswerList) : Bool := (t.alnNext t.ansListPtr).isSome

/-- `New_ALN`, without a next cell. -/
def newALN (t : AnswerList) (aln leaf : Nat) : AnswerList :=
  { t with alnAnswer := update t.alnAnswer aln (some leaf),
           alnNext := update t.alnNext aln none }

/-- `create_asi_info`, `unmark_conditional_answer` and a new leaf without a child. -/
def setChild (t : AnswerList) (leaf : Nat) (child : LeafChild) : AnswerList :=
  { t with child := update t.child leaf child }

/-- `SF_AppendToAnswerList`. -/
def sfAppendToAnswerList (t : AnswerList) (pHead pTail : Nat) : Option AnswerList :=
  if t.hasAnswers then do
    let tail ← t.ansListTail
    let leaf ← t.alnAnswer pHead
    some { t with alnNext := update t.alnNext tail (some pHead),
                  child := update t.child leaf (.aln tail),
                  ansListTail := some pTail }
  else
    -- only the dummy cell is in the list
    some { t with alnNext := update t.alnNext t.ansListPtr (some pHead),
                  ansListTail := some pTail }

/-- `get_next_trie_solution`: the answer at a hook, and where the hook moves. -/
def getNextTrieSolution (t : AnswerList) (nextPtr : Nat) : Option Nat × Option Nat :=
  (t.alnAnswer nextPtr, t.alnNext nextPtr)

/-- The part of `answer_return` that reads the list. -/
def answerReturn (t : AnswerList) (c : Nat) : Option (AnswerList × Option Nat) := do
  let trieReturn ← t.trieReturn[c]?
  match t.alnNext trieReturn with
  | none => some (t, none)
  | some continuation =>
    some ({ t with trieReturn := t.trieReturn.set c continuation }, t.alnAnswer continuation)

/-- The search of `delete_return` for the cell before that of a leaf. -/
def findPrevious (t : AnswerList) (leaf : Nat) : Nat → Nat → Option Nat
  | 0, _ => none
  | fuel + 1, n => do
    let a ← t.alnNext n
    if t.alnAnswer a = some leaf then some n else t.findPrevious leaf fuel a

/-- The child of the leaf in the cell after the deleted one, if it has a tag. -/
def retagNext (t : AnswerList) (leaf : Nat) (next : Option Nat) : Nat → LeafChild :=
  match next.bind t.alnAnswer with
  | none => t.child
  | some nextLeaf =>
    if (t.child nextLeaf).hasALNtag then update t.child nextLeaf (t.child leaf)
    else t.child

/-- The cell before that of the leaf to delete. -/
def previousALN (t : AnswerList) (fuel leaf : Nat) : Option Nat :=
  match t.child leaf with
  | .aln n => some n
  | _ => t.findPrevious leaf fuel t.ansListPtr

/-- `delete_return` on an incomplete subgoal that has the answer, without the removal of the branch
and of the delay lists. -/
def deleteReturn (t : AnswerList) (fuel leaf : Nat) : Option AnswerList := do
  let n ← t.previousALN fuel leaf
  let a ← t.alnNext n
  let next := t.alnNext a
  some {
    alnAnswer := update t.alnAnswer a none
    alnNext := update (update t.alnNext a t.delRetList) n next
    child := t.retagNext leaf next
    ansListPtr := t.ansListPtr
    ansListTail := if next = none then some n else t.ansListTail
    delRetList := some a
    trieReturn := t.trieReturn.map fun r => if r = a then n else r }

/-- A consumer that starts at the dummy cell. -/
def addConsumer (t : AnswerList) : AnswerList :=
  { t with trieReturn := t.trieReturn ++ [t.ansListPtr] }

variable {t t' : AnswerList} {c r hook : Nat}

end AnswerList

/-! ### Runs -/

/-- A list with the history of a run: the cells and leaves that were appended, the cells that were
deleted, and for each consumer what it was handed and what was deleted before it was reached. -/
structure AnswerRun where
  table : AnswerList
  appended : List (Nat × Nat)
  deleted : List Nat
  delivered : Nat → List (Nat × Nat)
  missed : Nat → List Nat

inductive AnswerEvent where
  | addConsumer
  | append (aln leaf : Nat) (child : LeafChild)
  | setChild (leaf : Nat) (child : LeafChild)
  | answerReturn (c : Nat)
  | deleteReturn (aln leaf : Nat)

namespace AnswerRun

/-- The answers that have not been deleted. -/
def live (s : AnswerRun) : List (Nat × Nat) := s.appended.filter (·.1 ∉ s.deleted)

/-- The answers that a consumer has to be handed. -/
def due (s : AnswerRun) (c : Nat) : List (Nat × Nat) := s.appended.filter (·.1 ∉ s.missed c)

/-- A consumer is backtracked into. -/
def answerReturn (s : AnswerRun) (c : Nat) : AnswerRun :=
  match s.table.answerReturn c with
  | some (t, some leaf) =>
    { s with table := t,
             delivered := update s.delivered c
               (s.delivered c ++ [(t.trieReturn.getD c 0, leaf)]) }
  | some (t, none) => { s with table := t }
  | none => s

/-- A consumer is backtracked into some times. -/
def answerReturns (c : Nat) : Nat → AnswerRun → AnswerRun
  | 0, s => s
  | n + 1, s => answerReturns c n (s.answerReturn c)

/-- The history when an answer is deleted. -/
def recordDelete (s : AnswerRun) (t : AnswerList) (aln : Nat) : AnswerRun where
  table := t
  appended := s.appended
  deleted := aln :: s.deleted
  delivered := s.delivered
  missed c := if aln ∈ (s.delivered c).map Prod.fst then s.missed c else aln :: s.missed c

end AnswerRun

/-- Runs of the operations. The cells that are appended are new, and their leaves are not in the
list; a leaf that is deleted is. -/
def answerSystem : System AnswerRun AnswerEvent where
  init s := s.table.alnNext s.table.ansListPtr = none ∧ s.table.trieReturn = [] ∧
    s.appended = [] ∧ s.deleted = []
  step s ev s' := match ev with
    | .addConsumer =>
      s' = { s with table := s.table.addConsumer,
                    delivered := update s.delivered s.table.trieReturn.length [],
                    missed := update s.missed s.table.trieReturn.length s.deleted }
    | .append aln leaf child =>
      aln ≠ s.table.ansListPtr ∧ aln ∉ s.appended.map Prod.fst ∧ (∀ e ∈ s.live, e.2 ≠ leaf) ∧
      child.hasALNtag = false ∧
      ∃ t, ((s.table.setChild leaf child).newALN aln leaf).sfAppendToAnswerList aln aln = some t ∧
        s' = { s with table := t, appended := s.appended ++ [(aln, leaf)] }
    | .setChild leaf child =>
      child.hasALNtag = false ∧ s' = { s with table := s.table.setChild leaf child }
    | .answerReturn c => s' = s.answerReturn c
    | .deleteReturn aln leaf => (aln, leaf) ∈ s.live ∧
      ∃ fuel t, s.table.deleteReturn fuel leaf = some t ∧ s' = s.recordDelete t aln

/-! ### Cells -/

/-- The last cell of a list of answers after a first cell. -/
def lastCell : Nat → List (Nat × Nat) → Nat
  | d, [] => d
  | _, e :: l => lastCell e.1 l

variable {s s' : AnswerRun} {t t' : AnswerList} {l l₁ l₂ reached pending : List (Nat × Nat)}
  {e : Nat × Nat} {d c r fuel leaf aln : Nat} {child : LeafChild} {next : Nat → Option Nat}

theorem lastCell_append : lastCell d (l₁ ++ l₂) = lastCell (lastCell d l₁) l₂ := by
  induction l₁ generalizing d with
  | nil => rfl
  | cons e l₁ ih => exact ih

theorem lastCell_concat : lastCell d (l ++ [e]) = e.1 := lastCell_append

/-- The cells up to the last one of some answers come first when there are more. -/
theorem cells_append (d : Nat) (l₁ : List (Nat × Nat)) :
    ∃ start, ∀ l₂, d :: (l₁ ++ l₂).map Prod.fst = start ++ lastCell d l₁ :: l₂.map Prod.fst := by
  induction l₁ generalizing d with
  | nil => exact ⟨[], fun l₂ => rfl⟩
  | cons e l₁ ih =>
    obtain ⟨start, hstart⟩ := ih e.1
    exact ⟨d :: start, fun l₂ => congrArg (d :: ·) (hstart l₂)⟩

theorem lastCell_mem (d : Nat) (l : List (Nat × Nat)) : lastCell d l ∈ d :: l.map Prod.fst := by
  obtain ⟨start, hstart⟩ := cells_append d l
  have h := hstart []
  rw [append_nil] at h
  rw [h]
  exact mem_append_right start mem_cons_self

/-- The first cell and those of the answers are linked. -/
def Cells (next : Nat → Option Nat) (d : Nat) (l : List (Nat × Nat)) : Prop :=
  Linked next (some d) (d :: l.map Prod.fst)

theorem Cells.next_lastCell (h : Cells next d (l₁ ++ l₂)) :
    next (lastCell d l₁) = (l₂.map Prod.fst).head? := by
  obtain ⟨start, hstart⟩ := cells_append d l₁
  unfold Cells at h
  rw [hstart l₂] at h
  exact h.next_head

section

variable (h : Cells next d l)
include h

theorem Cells.next_first : next d = (l.map Prod.fst).head? :=
  linked_head (linked_cons.mp h).2

theorem Cells.next_last : next (lastCell d l) = none := by
  rw [← append_nil l] at h
  exact h.next_lastCell

theorem Cells.nodup : (l.map Prod.fst).Nodup :=
  (nodup_cons.mp (Linked.nodup h)).2

theorem Cells.ne_of_mem (he : e ∈ l) : e.1 ≠ d := by
  rintro rfl
  exact (nodup_cons.mp (Linked.nodup h)).1 (mem_map_of_mem he)

/-- A cell at the end. -/
theorem Cells.concat (hd : e.1 ≠ d) (hnew : e.1 ∉ l.map Prod.fst)
    (hlast : next e.1 = none) :
    Cells (update next (lastCell d l) (some e.1)) d (l ++ [e]) := by
  obtain ⟨start, hstart⟩ := cells_append d l
  have hl := hstart []
  rw [append_nil] at hl
  unfold Cells at h ⊢
  rw [hl] at h
  rw [hstart [e]]
  refine h.relink ⟨rfl, hlast⟩ fun hmem => ?_
  have hmem' := lastCell_mem d l
  rw [mem_singleton.mp hmem] at hmem'
  rcases mem_cons.mp hmem' with heq | hmem'
  · exact hd heq
  · exact hnew hmem'

end

/-- A cell is taken out and linked to other ones. -/
theorem Cells.remove (h : Cells next d (l₁ ++ e :: l₂)) (v : Option Nat) :
    Cells (update (update next e.1 v) (lastCell d l₁) (next e.1)) d
      (l₁ ++ l₂) := by
  obtain ⟨start, hstart⟩ := cells_append d l₁
  have hnodup := Linked.nodup h
  unfold Cells at h ⊢
  rw [hstart (e :: l₂)] at h hnodup
  rw [hstart l₂]
  have hunlink : Linked (update next (lastCell d l₁) (next e.1)) (some d)
      (start ++ lastCell d l₁ :: l₂.map Prod.fst) := Linked.unlink h
  apply hunlink.congr
  intro x hx
  have hxe : x ≠ e.1 := by
    rintro rfl
    rw [map_cons, append_cons] at hnodup
    have hdisjoint := nodup_middle.mp hnodup
    apply (nodup_cons.mp hdisjoint).1
    rwa [append_assoc]
  by_cases hxn : x = lastCell d l₁
  · rw [hxn, update_self, update_self]
  · rw [update_of_ne hxn, update_of_ne hxn, update_of_ne hxe]

/-! ### The invariant -/

/-- A consumer stands on the last cell that it has reached, and what it still has to be handed is
what follows. -/
def ConsumerOK (s : AnswerRun) (c r : Nat) : Prop :=
  ∃ reached pending, s.live = reached ++ pending ∧ r = lastCell s.table.ansListPtr reached ∧
    s.due c = s.delivered c ++ pending

/-- The list has the answers that have not been deleted, and what points into it points where the
operations expect it to. -/
structure AnswerRunOK (s : AnswerRun) : Prop where
  fresh : ∀ e ∈ s.appended, e.1 ≠ s.table.ansListPtr
  nodup : (s.appended.map Prod.fst).Nodup
  deleted : ∀ a ∈ s.deleted, a ∈ s.appended.map Prod.fst
  missed : ∀ c < s.table.trieReturn.length, ∀ a ∈ s.missed c, a ∈ s.deleted
  cells : Cells s.table.alnNext s.table.ansListPtr s.live
  answer : ∀ e ∈ s.live, s.table.alnAnswer e.1 = some e.2
  leaves : (s.live.map Prod.snd).Nodup
  tail : s.live ≠ [] → s.table.ansListTail = some (lastCell s.table.ansListPtr s.live)
  tags : ∀ l₁ e l₂, s.live = l₁ ++ e :: l₂ → ∀ p, s.table.child e.2 = .aln p →
    p = lastCell s.table.ansListPtr l₁
  consumers : ∀ c r, s.table.trieReturn[c]? = some r → ConsumerOK s c r

theorem mem_live : e ∈ s.live ↔ e ∈ s.appended ∧ e.1 ∉ s.deleted := by
  rw [AnswerRun.live, mem_filter, decide_eq_true_iff]

theorem mem_due : e ∈ s.due c ↔ e ∈ s.appended ∧ e.1 ∉ s.missed c := by
  rw [AnswerRun.due, mem_filter, decide_eq_true_iff]

theorem AnswerRunOK.due_nodup (h : AnswerRunOK s) (c : Nat) : ((s.due c).map Prod.fst).Nodup :=
  h.nodup.sublist (filter_sublist.map Prod.fst)

/-- A leaf is in one cell of the list. -/
theorem AnswerRunOK.eq_of_leaf (h : AnswerRunOK s) {e e' : Nat × Nat} (he : e ∈ s.live)
    (he' : e' ∈ s.live) (heq : e.2 = e'.2) : e = e' :=
  inj_on_of_nodup_map h.leaves he he' heq

theorem AnswerRunOK.hasAnswers_iff (h : AnswerRunOK s) : s.table.hasAnswers = true ↔
    s.live ≠ [] := by
  unfold AnswerList.hasAnswers
  rw [h.cells.next_first]
  cases s.live <;> simp

/-- The answers without that of one cell. -/
theorem filter_ne_cell (h : ((l₁ ++ e :: l₂).map Prod.fst).Nodup) :
    (l₁ ++ e :: l₂).filter (·.1 ≠ e.1) = l₁ ++ l₂ := by
  rw [map_append, map_cons] at h
  have hnot := (nodup_cons.mp (nodup_middle.mp h)).1
  rw [← map_append] at hnot
  have hall : ∀ x ∈ l₁ ++ l₂, decide (x.1 ≠ e.1) = true := fun x hx =>
    decide_eq_true fun heq => hnot (heq ▸ mem_map_of_mem hx)
  rw [filter_append, filter_cons_of_neg (by simp), ← filter_append]
  exact filter_eq_self.mpr hall

theorem filter_notMem_cons {p : List Nat} {l : List (Nat × Nat)} :
    l.filter (·.1 ∉ aln :: p) = (l.filter (·.1 ∉ p)).filter (·.1 ≠ aln) := by
  rw [List.filter_filter]
  congr 1
  funext e
  simp [mem_cons, not_or]

/-! ### Initial states and new consumers -/

theorem AnswerRunOK.init (h : answerSystem.init s) : AnswerRunOK s := by
  obtain ⟨hnext, hreturn, happended, hdeleted⟩ := h
  have hlive : s.live = [] := by rw [AnswerRun.live, happended, filter_nil]
  constructor
  case fresh => simp [happended]
  case nodup => simp [happended]
  case deleted => simp [hdeleted]
  case missed => simp [hreturn]
  case cells =>
    rw [hlive]
    exact ⟨rfl, hnext⟩
  case answer => simp [hlive]
  case leaves => simp [hlive]
  case tail => exact fun hne => absurd hlive hne
  case tags => simp [hlive]
  case consumers => simp [hreturn]

theorem AnswerRunOK.addConsumer (h : AnswerRunOK s) (hstep : answerSystem.step s .addConsumer s') :
    AnswerRunOK s' := by
  rw [show s' = _ from hstep]
  constructor
  case fresh => exact h.fresh
  case nodup => exact h.nodup
  case deleted => exact h.deleted
  case missed =>
    intro c hc a ha
    simp only [AnswerList.addConsumer, length_append, length_singleton] at hc
    simp only [update_apply] at ha
    split at ha
    next => exact ha
    next hne => exact h.missed c (by omega) a ha
  case cells => exact h.cells
  case answer => exact h.answer
  case leaves => exact h.leaves
  case tail => exact h.tail
  case tags => exact h.tags
  case consumers =>
    intro c r hr
    by_cases hc : c = s.table.trieReturn.length
    · subst hc
      simp only [AnswerList.addConsumer, List.getElem?_concat_length] at hr
      refine ⟨[], s.live, rfl, (some.inj hr).symm, ?_⟩
      simp [AnswerRun.due, AnswerRun.live]
    · have hr' : s.table.trieReturn[c]? = some r := by
        simp only [AnswerList.addConsumer, List.getElem?_append] at hr
        split at hr
        next => exact hr
        next hge =>
          rw [List.getElem?_singleton, if_neg (by omega)] at hr
          exact absurd hr (some_ne_none r).symm
      obtain ⟨reached, pending, hlive, hlast, hdue⟩ := h.consumers c r hr'
      refine ⟨reached, pending, hlive, hlast, ?_⟩
      simp only [AnswerRun.due, update_of_ne hc]
      exact hdue

theorem AnswerRunOK.setChild (h : AnswerRunOK s) (hchild : child.hasALNtag = false) :
    AnswerRunOK { s with table := s.table.setChild leaf child } := by
  constructor
  case tags =>
    intro l₁ e l₂ hlive p hp
    apply h.tags l₁ e l₂ hlive p
    simp only [AnswerList.setChild, update_apply] at hp
    split at hp
    next =>
      rw [hp] at hchild
      cases hchild
    next => exact hp
  case fresh => exact h.fresh
  case nodup => exact h.nodup
  case deleted => exact h.deleted
  case missed => exact h.missed
  case cells => exact h.cells
  case answer => exact h.answer
  case leaves => exact h.leaves
  case tail => exact h.tail
  case consumers => exact h.consumers

/-! ### New answers -/

/-- What `SF_AppendToAnswerList` does with a new cell: it is linked to the last one, and the leaf
is tagged with that cell unless it is the first answer. -/
theorem AnswerRunOK.append_eq (h : AnswerRunOK s) (hdummy : aln ≠ s.table.ansListPtr) :
    ((s.table.setChild leaf child).newALN aln leaf).sfAppendToAnswerList aln aln = some
      { s.table with
        alnAnswer := update s.table.alnAnswer aln (some leaf)
        alnNext := update (update s.table.alnNext aln none)
          (lastCell s.table.ansListPtr s.live) (some aln)
        child := update s.table.child leaf
          (if s.live = [] then child else .aln (lastCell s.table.ansListPtr s.live))
        ansListTail := some aln } := by
  have hdummy' : ((s.table.setChild leaf child).newALN aln leaf).hasAnswers =
    s.table.hasAnswers := by
    simp only [AnswerList.hasAnswers, AnswerList.newALN, AnswerList.setChild,
      update_of_ne hdummy.symm]
  unfold AnswerList.sfAppendToAnswerList
  rw [hdummy']
  split
  next hanswers =>
    have hne := h.hasAnswers_iff.mp hanswers
    simp only [AnswerList.newALN, AnswerList.setChild, h.tail hne, bind_eq_bind,
      bind_some, update_self, update_idem, if_neg hne]
  next hanswers =>
    have hnil : s.live = [] := by
      by_contra hne
      exact hanswers (h.hasAnswers_iff.mpr hne)
    simp only [AnswerList.newALN, AnswerList.setChild, hnil, lastCell, if_true]

theorem AnswerRunOK.append (h : AnswerRunOK s)
    (hstep : answerSystem.step s (.append aln leaf child) s') : AnswerRunOK s' := by
  obtain ⟨hdummy, hnew, hleaf, hchild, t, ht, rfl⟩ := hstep
  have hlivenew : aln ∉ s.live.map Prod.fst := fun hmem =>
    hnew ((filter_sublist.map Prod.fst).subset hmem)
  rw [h.append_eq hdummy] at ht
  cases ht
  have hdel : aln ∉ s.deleted := fun hmem => hnew (h.deleted aln hmem)
  have hlive : ∀ t, AnswerRun.live { s with table := t, appended := s.appended ++ [(aln, leaf)] } =
      s.live ++ [(aln, leaf)] := by
    intro t
    simp [AnswerRun.live, filter_append, hdel]
  constructor
  case fresh =>
    intro e he
    rcases mem_append.mp he with he | he
    · exact h.fresh e he
    · rw [mem_singleton.mp he]
      exact hdummy
  case nodup =>
    rw [map_append, map_singleton]
    exact nodup_append.mpr ⟨h.nodup, nodup_singleton _, fun a ha b hb => by
      rw [mem_singleton.mp hb]
      exact ne_of_mem_of_not_mem ha hnew⟩
  case deleted =>
    intro a ha
    rw [map_append]
    exact mem_append_left _ (h.deleted a ha)
  case missed => exact h.missed
  case cells =>
    rw [hlive]
    have hcells : Cells (update s.table.alnNext aln none) s.table.ansListPtr s.live := by
      apply Linked.update h.cells
      intro hmem
      rcases mem_cons.mp hmem with heq | hmem
      · exact hdummy heq
      · exact hlivenew hmem
    exact hcells.concat (e := (aln, leaf)) hdummy hlivenew (update_self ..)
  case answer =>
    intro e he
    rw [hlive] at he
    rcases mem_append.mp he with he | he
    · have hne : e.1 ≠ aln := ne_of_mem_of_not_mem (mem_map_of_mem he) hlivenew
      simp only [update_of_ne hne]
      exact h.answer e he
    · rw [mem_singleton.mp he]
      exact update_self ..
  case leaves =>
    rw [hlive, map_append, map_singleton]
    exact nodup_append.mpr ⟨h.leaves, nodup_singleton _, fun a ha b hb => by
      obtain ⟨e, he, rfl⟩ := mem_map.mp ha
      rw [mem_singleton.mp hb]
      exact hleaf e he⟩
  case tail =>
    intro _
    rw [hlive, lastCell_concat]
  case tags =>
    intro l₁ e l₂ hl p hp
    rw [hlive] at hl
    by_cases he : e.2 = leaf
    · -- the new answer
      simp only [he, update_self] at hp
      have hlast : l₂ = [] ∧ l₁ = s.live := by
        rcases eq_nil_or_concat l₂ with rfl | ⟨l2', e', rfl⟩
        · exact ⟨rfl, (append_inj_left' hl rfl).symm⟩
        · have hl' : s.live ++ [(aln, leaf)] = (l₁ ++ e :: l2') ++ [e'] := by
            rw [hl, concat_eq_append, append_assoc, cons_append]
          have hmem : e ∈ s.live := by
            rw [append_inj_left' hl' rfl]
            exact mem_append_right _ mem_cons_self
          exact absurd he (hleaf e hmem)
      rw [hlast.2]
      split at hp
      next =>
        rw [hp] at hchild
        cases hchild
      next => exact (LeafChild.aln.inj hp).symm
    · simp only [update_of_ne he] at hp
      rcases eq_nil_or_concat l₂ with rfl | ⟨l2', e', rfl⟩
      · have heq := append_inj_right' hl rfl
        exact absurd (congrArg Prod.snd (singleton_inj.mp heq)).symm he
      · apply h.tags l₁ e l2' _ p hp
        have hl' : s.live ++ [(aln, leaf)] = (l₁ ++ e :: l2') ++ [e'] := by
          rw [hl, concat_eq_append, append_assoc, cons_append]
        exact append_inj_left' hl' rfl
  case consumers =>
    intro c r hr
    obtain ⟨reached, pending, hl, hlast, hdue⟩ := h.consumers c r hr
    refine ⟨reached, pending ++ [(aln, leaf)], ?_, hlast, ?_⟩
    · rw [hlive, hl, append_assoc]
    · have hc : c < s.table.trieReturn.length := (List.getElem?_eq_some_iff.mp hr).1
      have hmissed : aln ∉ s.missed c := fun hmem => hdel (h.missed c hc aln hmem)
      rw [← append_assoc]
      simp only [← hdue, AnswerRun.due, filter_append]
      simp [hmissed]

/-! ### Consumers -/

/-- A consumer that has reached everything is not moved. -/
theorem AnswerRunOK.answerReturn_none (h : AnswerRunOK s) (hr : s.table.trieReturn[c]? = some r)
    (hlast : r = lastCell s.table.ansListPtr s.live) : s.answerReturn c = s := by
  have hnext : s.table.alnNext r = none := hlast ▸ h.cells.next_last
  simp only [AnswerRun.answerReturn, AnswerList.answerReturn, hr, bind_eq_bind,
    bind_some, hnext]

/-- A consumer is handed the answer after the last one that it has reached. -/
theorem AnswerRunOK.answerReturn_some (h : AnswerRunOK s) (hr : s.table.trieReturn[c]? = some r)
    (hlive : s.live = reached ++ e :: pending) (hlast : r = lastCell s.table.ansListPtr reached) :
    s.answerReturn c =
      { s with table := { s.table with trieReturn := s.table.trieReturn.set c e.1 },
               delivered := update s.delivered c (s.delivered c ++ [e]) } := by
  have hnext : s.table.alnNext r = some e.1 := by
    have hcells := h.cells
    rw [hlive] at hcells
    rw [hlast, hcells.next_lastCell]
    rfl
  have hanswer : s.table.alnAnswer e.1 = some e.2 := by
    apply h.answer
    rw [hlive]
    exact mem_append_right _ mem_cons_self
  have hc : c < s.table.trieReturn.length := (List.getElem?_eq_some_iff.mp hr).1
  have hset : (s.table.trieReturn.set c e.1).getD c 0 = e.1 := by
    rw [getD_eq_getElem?_getD, List.getElem?_set_self hc, getD_some]
  simp only [AnswerRun.answerReturn, AnswerList.answerReturn, hr, bind_eq_bind,
    bind_some, hnext, hanswer, hset]

theorem AnswerRunOK.answerReturn (h : AnswerRunOK s) (c : Nat) :
    AnswerRunOK (s.answerReturn c) := by
  cases hr : s.table.trieReturn[c]? with
  | none =>
    have hself : s.answerReturn c = s := by
      simp only [AnswerRun.answerReturn, AnswerList.answerReturn, hr, bind_eq_bind,
        bind_none]
    rwa [hself]
  | some r =>
    obtain ⟨reached, pending, hlive, hlast, hdue⟩ := h.consumers c r hr
    cases pending with
    | nil =>
      rw [append_nil] at hlive
      rwa [h.answerReturn_none hr (hlive ▸ hlast)]
    | cons e pending =>
      rw [h.answerReturn_some hr hlive hlast]
      constructor
      case consumers =>
        intro c' r' hr'
        simp only at hr'
        by_cases hc : c' = c
        · subst hc
          have hlen : c' < s.table.trieReturn.length := (List.getElem?_eq_some_iff.mp hr).1
          rw [List.getElem?_set_self hlen] at hr'
          refine ⟨reached ++ [e], pending, ?_, ?_, ?_⟩
          · rw [append_assoc]
            exact hlive
          · rw [lastCell_concat]
            exact (some.inj hr').symm
          · simp only [update_self, append_assoc]
            exact hdue
        · rw [List.getElem?_set_ne (Ne.symm hc)] at hr'
          obtain ⟨reached', pending', hlive', hlast', hdue'⟩ := h.consumers c' r' hr'
          refine ⟨reached', pending', hlive', hlast', ?_⟩
          simp only [update_of_ne hc]
          exact hdue'
      case missed =>
        intro c' hc'
        simp only [length_set] at hc'
        exact h.missed c' hc'
      case fresh => exact h.fresh
      case nodup => exact h.nodup
      case deleted => exact h.deleted
      case cells => exact h.cells
      case answer => exact h.answer
      case leaves => exact h.leaves
      case tail => exact h.tail
      case tags => exact h.tags

/-! ### Deleted answers -/

/-- The search from the dummy cell finds the cell before that of a leaf. -/
theorem findPrevious_eq (fuel : Nat) (hcells : Cells t.alnNext d (l₁ ++ e :: l₂))
    (hanswer : ∀ x ∈ l₁ ++ e :: l₂, t.alnAnswer x.1 = some x.2)
    (hleaves : ((l₁ ++ e :: l₂).map Prod.snd).Nodup) :
    t.findPrevious e.2 fuel d = if l₁.length < fuel then some (lastCell d l₁) else none := by
  induction l₁ generalizing d fuel with
  | nil =>
    have hnext : t.alnNext d = some e.1 := hcells.next_first
    have hleaf : t.alnAnswer e.1 = some e.2 := hanswer e mem_cons_self
    cases fuel with
    | zero => rfl
    | succ fuel =>
      simp only [AnswerList.findPrevious, hnext, bind_eq_bind, bind_some, hleaf,
        if_true, lastCell, length_nil, Nat.zero_lt_succ]
  | cons x l₁ ih =>
    have hnext : t.alnNext d = some x.1 := hcells.next_first
    have hleaf : t.alnAnswer x.1 = some x.2 := hanswer x mem_cons_self
    have hne : ¬ some x.2 = some e.2 := by
      intro heq
      apply (nodup_cons.mp hleaves).1
      rw [some.inj heq]
      exact mem_map_of_mem (mem_append_right _ mem_cons_self)
    have hrest : Cells t.alnNext x.1 (l₁ ++ e :: l₂) := by
      have hcells' := (linked_cons.mp hcells).2
      rwa [hnext] at hcells'
    cases fuel with
    | zero => rfl
    | succ fuel =>
      simp only [AnswerList.findPrevious, hnext, bind_eq_bind, bind_some, hleaf,
        if_neg hne, length_cons, Nat.succ_lt_succ_iff]
      exact ih fuel hrest (fun y hy => hanswer y (mem_cons_of_mem x hy))
        (nodup_cons.mp hleaves).2

/-- The cell before that of a leaf is the one of its tag, or it is searched for. -/
theorem AnswerRunOK.previousALN_eq (fuel : Nat) (h : AnswerRunOK s)
    (hlive : s.live = l₁ ++ e :: l₂) :
    (l₁.length < fuel →
      s.table.previousALN fuel e.2 = some (lastCell s.table.ansListPtr l₁)) ∧
    ∀ n, s.table.previousALN fuel e.2 = some n → n = lastCell s.table.ansListPtr l₁ := by
  have hcells := h.cells
  rw [hlive] at hcells
  have hfind := findPrevious_eq fuel hcells (hlive ▸ h.answer) (hlive ▸ h.leaves)
  unfold AnswerList.previousALN
  split
  next p hp =>
    rw [h.tags l₁ e l₂ hlive p hp]
    exact ⟨fun _ => rfl, fun n hn => (some.inj hn).symm⟩
  next =>
    rw [hfind]
    constructor
    · exact fun hlt => if_pos hlt
    · intro n hn
      split at hn
      next => exact (some.inj hn).symm
      next => exact absurd hn (some_ne_none n).symm

section

variable (h : AnswerRunOK s)
include h

/-- What `delete_return` does to an answer of the list: its cell is taken out, and what points to
that cell now points to the one before it. -/
theorem AnswerRunOK.deleteReturn_eq (hlive : s.live = l₁ ++ e :: l₂)
    (hprevious : s.table.previousALN fuel e.2 = some (lastCell s.table.ansListPtr l₁)) :
    s.table.deleteReturn fuel e.2 = some
      { s.table with
        alnAnswer := update s.table.alnAnswer e.1 none
        alnNext := update (update s.table.alnNext e.1 s.table.delRetList)
          (lastCell s.table.ansListPtr l₁) (s.table.alnNext e.1)
        child := s.table.retagNext e.2 (s.table.alnNext e.1)
        ansListTail := if s.table.alnNext e.1 = none then
          some (lastCell s.table.ansListPtr l₁) else s.table.ansListTail
        delRetList := some e.1
        trieReturn := s.table.trieReturn.map fun r =>
          if r = e.1 then lastCell s.table.ansListPtr l₁ else r } := by
  have hcells := h.cells
  rw [hlive] at hcells
  have hnext : s.table.alnNext (lastCell s.table.ansListPtr l₁) = some e.1 := by
    rw [hcells.next_lastCell]
    rfl
  simp only [AnswerList.deleteReturn, hprevious, bind_eq_bind, bind_some, hnext]

theorem AnswerRunOK.alnNext_eq (hlive : s.live = l₁ ++ e :: l₂) :
    s.table.alnNext e.1 = (l₂.map Prod.fst).head? := by
  have hcells := h.cells
  rw [hlive, append_cons] at hcells
  rw [← lastCell_concat (d := s.table.ansListPtr) (l := l₁), hcells.next_lastCell]

/-- Only the leaf of the cell after the deleted one is tagged anew. -/
theorem AnswerRunOK.retagNext_eq (hlive : s.live = l₁ ++ e :: l₂)
    (x : Nat × Nat) (hx : x ∈ s.live) :
    s.table.retagNext e.2 (s.table.alnNext e.1) x.2 =
      if l₂.head? = some x ∧ (s.table.child x.2).hasALNtag then s.table.child e.2
      else s.table.child x.2 := by
  rw [h.alnNext_eq hlive]
  cases l₂ with
  | nil => simp [AnswerList.retagNext]
  | cons y l₂ =>
    have hy : y ∈ s.live := by
      rw [hlive]
      exact mem_append_right _ (mem_cons_of_mem e mem_cons_self)
    have hretag : s.table.retagNext e.2 (((y :: l₂).map Prod.fst).head?) =
        if (s.table.child y.2).hasALNtag then
          update s.table.child y.2 (s.table.child e.2) else s.table.child := by
      simp only [AnswerList.retagNext, map_cons, List.head?_cons, bind_some,
        h.answer y hy]
    rw [hretag]
    by_cases hxy : y = x
    · subst hxy
      split
      next htag => rw [update_self, if_pos ⟨rfl, htag⟩]
      next htag => rw [if_neg fun hc => htag hc.2]
    · have hne : x.2 ≠ y.2 := fun heq => hxy (h.eq_of_leaf hx hy heq).symm
      rw [if_neg (show ¬ ((y :: l₂).head? = some x ∧ _) from fun hc => hxy (some.inj hc.1))]
      split
      next => exact update_of_ne hne ..
      next => rfl

/-- The tags after a deletion. -/
theorem AnswerRunOK.retagNext_tags (hlive : s.live = l₁ ++ e :: l₂)
    {x : Nat × Nat} (hl : l₁ ++ l₂ = reached ++ x :: pending) {p : Nat}
    (hp : s.table.retagNext e.2 (s.table.alnNext e.1) x.2 = .aln p) :
    p = lastCell s.table.ansListPtr reached := by
  have hx : x ∈ s.live := by
    have hmem : x ∈ l₁ ++ l₂ := by
      rw [hl]
      exact mem_append_right _ mem_cons_self
    rw [hlive]
    rcases mem_append.mp hmem with hmem | hmem
    · exact mem_append_left _ hmem
    · exact mem_append_right _ (mem_cons_of_mem e hmem)
  rw [h.retagNext_eq hlive x hx] at hp
  -- The cell before that of `x` is another one only if `x` follows the deleted answer.
  have hnext : ∀ m, l₂ = m ++ x :: pending → reached = l₁ ++ m →
      p = lastCell s.table.ansListPtr reached := by
    intro m hm hreached
    cases m with
    | nil =>
      rw [append_nil] at hreached
      rw [hreached]
      split at hp
      next => exact h.tags l₁ e l₂ hlive p hp
      next hc =>
        rw [hp, hm] at hc
        exact absurd ⟨rfl, rfl⟩ hc
    | cons y m =>
      have hlive' : s.live = (l₁ ++ e :: y :: m) ++ x :: pending := by
        rw [hlive, hm, append_assoc]
        rfl
      have hyx : y ≠ x := by
        rintro rfl
        have hleaves := h.leaves
        rw [hlive', map_append, map_append] at hleaves
        apply (nodup_append.mp hleaves).2.2 y.2 _ y.2 _ rfl
        · simp
        · simp
      rw [if_neg fun hc => hyx (some.inj (by rw [← hc.1, hm]; rfl))] at hp
      rw [h.tags _ x pending hlive' p hp, hreached, lastCell_append, lastCell_append]
      rfl
  rcases append_eq_append_iff.mp hl with ⟨m, hreached, hm⟩ | ⟨m, hl1, hm⟩
  · exact hnext m hm hreached
  · cases m with
    | nil =>
      rw [append_nil] at hl1
      exact hnext [] hm.symm (by rw [hl1, append_nil])
    | cons y m =>
      obtain ⟨rfl, hm⟩ := cons_eq_cons.mp hm
      have hlive' : s.live = reached ++ x :: (m ++ e :: l₂) := by
        rw [hlive, hl1, append_assoc]
        rfl
      have hhead : l₂.head? ≠ some x := by
        intro hhead
        have hmem : x ∈ e :: l₂ := mem_cons_of_mem e (mem_of_head? hhead)
        have hleaves := h.leaves
        rw [hlive, hl1, map_append] at hleaves
        apply (nodup_append.mp hleaves).2.2 x.2 _ x.2 (mem_map_of_mem hmem) rfl
        simp
      rw [if_neg fun hc => hhead hc.1] at hp
      exact h.tags reached x _ hlive' p hp

theorem AnswerRunOK.live_recordDelete (hlive : s.live = l₁ ++ e :: l₂)
    (t : AnswerList) : (s.recordDelete t e.1).live = l₁ ++ l₂ := by
  have hcells := h.cells.nodup
  rw [hlive] at hcells
  rw [← filter_ne_cell hcells, ← hlive]
  exact filter_notMem_cons

end

/-- The last cell reached does not change when one is taken out before it. -/
theorem lastCell_remove (hr : r = lastCell d (l₁ ++ e :: l₂))
    (hnodup : ((l₁ ++ e :: l₂).map Prod.fst).Nodup) :
    (if r = e.1 then lastCell d l₁ else r) = lastCell d (l₁ ++ l₂) := by
  cases l₂ with
  | nil =>
    rw [hr, lastCell_concat, if_pos rfl, append_nil]
  | cons x l₂ =>
    have hrx : r = lastCell x.1 l₂ := by
      rw [hr, lastCell_append]
      rfl
    have hmem : r ∈ (x :: l₂).map Prod.fst := hrx ▸ lastCell_mem x.1 l₂
    have hne : r ≠ e.1 := by
      rintro rfl
      rw [map_append, map_cons] at hnodup
      exact (nodup_cons.mp (nodup_append.mp hnodup).2.1).1 hmem
    rw [if_neg hne, lastCell_append]
    exact hrx

/-- A consumer after a deletion: it moves back when it stands on the deleted cell, and an answer
that it has not reached is not due any more. -/
theorem AnswerRunOK.consumer_deleteReturn (h : AnswerRunOK s) (hlive : s.live = l₁ ++ e :: l₂)
    (hr : s.table.trieReturn[c]? = some r) (ht : t.ansListPtr = s.table.ansListPtr) :
    ConsumerOK (s.recordDelete t e.1) c
      (if r = e.1 then lastCell s.table.ansListPtr l₁ else r) := by
  obtain ⟨reached, pending, hsplit, hlast, hdue⟩ := h.consumers c r hr
  have hcells := h.cells.nodup
  have he : e ∈ s.live := by
    rw [hlive]
    exact mem_append_right _ mem_cons_self
  unfold ConsumerOK
  rw [h.live_recordDelete hlive, show (s.recordDelete t e.1).table = t from rfl, ht]
  have hduenodup := h.due_nodup c
  rw [hdue] at hduenodup
  by_cases hmem : e ∈ pending
  · -- The answer was not reached, and the consumer does not stand on its cell.
    obtain ⟨p1, p2, rfl⟩ := append_of_mem hmem
    have hsplit' : s.live = (reached ++ p1) ++ e :: p2 := by rw [hsplit, append_assoc]
    refine ⟨reached, p1 ++ p2, ?_, ?_, ?_⟩
    · rw [← h.live_recordDelete hlive t, h.live_recordDelete hsplit' t, append_assoc]
    · rw [if_neg, hlast]
      intro hre
      have hreached := lastCell_mem s.table.ansListPtr reached
      rw [← hlast, hre] at hreached
      rcases mem_cons.mp hreached with heq | hreached
      · exact h.cells.ne_of_mem he heq
      · rw [hsplit, map_append] at hcells
        exact (nodup_append.mp hcells).2.2 e.1 hreached e.1 (mem_map_of_mem hmem) rfl
    · have hnotmem : e.1 ∉ (s.delivered c).map Prod.fst := by
        intro hd
        rw [map_append] at hduenodup
        exact (nodup_append.mp hduenodup).2.2 e.1 hd e.1 (mem_map_of_mem hmem) rfl
      have hmissed : (s.recordDelete t e.1).missed c = e.1 :: s.missed c := if_neg hnotmem
      rw [← append_assoc] at hdue hduenodup ⊢
      rw [AnswerRun.due, hmissed, filter_notMem_cons]
      show (s.due c).filter (·.1 ≠ e.1) = _
      rw [hdue, filter_ne_cell hduenodup]
      rfl
  · -- The answer was reached, and so it was handed out.
    have hreached : e ∈ reached := by
      rw [hsplit] at he
      exact (mem_append.mp he).resolve_right hmem
    obtain ⟨r1, r2, rfl⟩ := append_of_mem hreached
    have hsplit' : s.live = r1 ++ e :: (r2 ++ pending) := by
      rw [hsplit, append_assoc]
      rfl
    have hl1 : l₁ = r1 := by
      rw [hlive, map_append, map_cons] at hcells
      have hnot := (nodup_cons.mp (nodup_middle.mp hcells)).1
      rw [← map_append] at hnot
      refine ((append_cons_inj_of_notMem ?_ ?_).mp (hlive.symm.trans hsplit')).1
      · exact fun hm => hnot (mem_map_of_mem (mem_append_left _ hm))
      · exact fun hm => hnot (mem_map_of_mem (mem_append_right _ hm))
    refine ⟨r1 ++ r2, pending, ?_, ?_, ?_⟩
    · rw [← h.live_recordDelete hlive t, h.live_recordDelete hsplit' t, append_assoc]
    · rw [hl1]
      apply lastCell_remove hlast
      rw [hsplit, map_append] at hcells
      exact (nodup_append.mp hcells).1
    · have hdelivered : e.1 ∈ (s.delivered c).map Prod.fst := by
        have hc : c < s.table.trieReturn.length := (List.getElem?_eq_some_iff.mp hr).1
        have hdue' : e ∈ s.due c :=
          mem_due.mpr ⟨(mem_live.mp he).1, fun hm => (mem_live.mp he).2 (h.missed c hc e.1 hm)⟩
        rw [hdue] at hdue'
        exact mem_map_of_mem ((mem_append.mp hdue').resolve_right hmem)
      have hmissed : (s.recordDelete t e.1).missed c = s.missed c := if_pos hdelivered
      rw [AnswerRun.due, hmissed]
      exact hdue

theorem AnswerRunOK.deleteReturn (h : AnswerRunOK s)
    (hstep : answerSystem.step s (.deleteReturn aln leaf) s') : AnswerRunOK s' := by
  obtain ⟨hmem, fuel, t, ht, rfl⟩ := hstep
  obtain ⟨l₁, l₂, hlive⟩ := append_of_mem hmem
  have hprevious : s.table.previousALN fuel leaf = some (lastCell s.table.ansListPtr l₁) := by
    cases hn : s.table.previousALN fuel leaf with
    | none => simp [AnswerList.deleteReturn, hn] at ht
    | some n => rw [(h.previousALN_eq fuel hlive).2 n hn]
  rw [h.deleteReturn_eq hlive hprevious] at ht
  obtain rfl := some.inj ht
  have hlive' := fun t => h.live_recordDelete hlive t
  have hsub : ∀ x ∈ l₁ ++ l₂, x ∈ s.live := by
    intro x hx
    rw [hlive]
    rcases mem_append.mp hx with hx | hx
    · exact mem_append_left _ hx
    · exact mem_append_right _ (mem_cons_of_mem _ hx)
  have hsplit : (l₁ ++ l₂).Sublist s.live := by
    rw [hlive]
    exact (List.Sublist.refl l₁).append (sublist_cons_self _ l₂)
  have hcells := h.cells
  rw [hlive] at hcells
  constructor
  case fresh => exact h.fresh
  case nodup => exact h.nodup
  case deleted =>
    intro a ha
    rcases mem_cons.mp ha with rfl | ha
    · exact mem_map_of_mem (mem_live.mp hmem).1
    · exact h.deleted a ha
  case missed =>
    intro c hc a ha
    have hc' : c < s.table.trieReturn.length := by
      simpa only [AnswerRun.recordDelete, length_map] using hc
    have ha' : a = aln ∨ a ∈ s.missed c := by
      simp only [AnswerRun.recordDelete] at ha
      split at ha
      next => exact Or.inr ha
      next => exact mem_cons.mp ha
    rcases ha' with rfl | ha'
    · exact mem_cons_self
    · exact mem_cons_of_mem aln (h.missed c hc' a ha')
  case cells =>
    rw [hlive']
    exact hcells.remove _
  case answer =>
    intro x hx
    rw [hlive'] at hx
    have hne : x.1 ≠ aln := by
      have hnodup := hcells.nodup
      rw [map_append, map_cons] at hnodup
      have hnot := (nodup_cons.mp (nodup_middle.mp hnodup)).1
      rw [← map_append] at hnot
      exact ne_of_mem_of_not_mem (mem_map_of_mem hx) hnot
    show update s.table.alnAnswer aln none x.1 = some x.2
    rw [update_of_ne hne]
    exact h.answer x (hsub x hx)
  case leaves =>
    rw [hlive']
    exact h.leaves.sublist (hsplit.map Prod.snd)
  case tail =>
    intro hne
    rw [hlive'] at hne ⊢
    have hnext := h.alnNext_eq hlive
    simp only [AnswerRun.recordDelete, hnext]
    cases l₂ with
    | nil => simp
    | cons x l₂ =>
      have htail := h.tail (ne_nil_of_mem hmem)
      rw [hlive, lastCell_append] at htail
      simp only [map_cons, List.head?_cons, reduceCtorEq, if_false, htail, lastCell_append]
      rfl
  case tags =>
    intro reached x pending hl p hp
    rw [hlive'] at hl
    exact h.retagNext_tags hlive hl hp
  case consumers =>
    intro c r hr
    simp only [AnswerRun.recordDelete, List.getElem?_map] at hr
    obtain ⟨r', hr', rfl⟩ := map_eq_some_iff.mp hr
    exact h.consumer_deleteReturn hlive hr' rfl

/-! ### Delivery -/

theorem answerSystem_ok : answerSystem.Invariant AnswerRunOK where
  init _ hs := AnswerRunOK.init hs
  step s ev s' h hstep := by
    cases ev with
    | addConsumer => exact h.addConsumer hstep
    | append aln leaf child => exact h.append hstep
    | setChild leaf child =>
      obtain ⟨hchild, rfl⟩ := hstep
      exact h.setChild hchild
    | answerReturn c =>
      rw [show s' = _ from hstep]
      exact h.answerReturn c
    | deleteReturn aln leaf => exact h.deleteReturn hstep

/-- A consumer is handed the answers that follow one by one. -/
theorem AnswerRunOK.deliver (h : AnswerRunOK s) (hr : s.table.trieReturn[c]? = some r)
    (hlive : s.live = reached ++ pending) (hlast : r = lastCell s.table.ansListPtr reached) :
    (s.answerReturns c pending.length).delivered c = s.delivered c ++ pending := by
  induction pending generalizing s r reached with
  | nil => exact (append_nil _).symm
  | cons e pending ih =>
    have hok := h.answerReturn c
    have heq := h.answerReturn_some hr hlive hlast
    rw [length_cons, AnswerRun.answerReturns]
    rw [heq] at hok ⊢
    have hc : c < s.table.trieReturn.length := (List.getElem?_eq_some_iff.mp hr).1
    have hlive' : s.live = (reached ++ [e]) ++ pending := by
      rw [append_assoc]
      exact hlive
    rw [ih hok (List.getElem?_set_self hc) hlive' lastCell_concat.symm]
    simp only [update_self, append_assoc, singleton_append]

/-- A list without answers. -/
def emptyRun : AnswerRun where
  table := ⟨fun _ => none, fun _ => none, fun _ => .null, 0, none, none, []⟩
  appended := []
  deleted := []
  delivered _ := []
  missed _ := []

end XSBEngine.Tables
