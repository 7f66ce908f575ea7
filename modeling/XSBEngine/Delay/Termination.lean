import Mathlib
import XSBEngine.Delay.Cascade

/-!
# Simplifications end

What every place in the bodies of the simplifications keeps, and that it uses up delay elements or
brings a call nearer to its end.
-/

namespace XSBEngine.Delay

open Function Library List

variable {own own' : Owner → List Nat} {E E' D D' : Nat → List Nat} {k : Answers}
  {s s' : Simplifying} {t t' : DelayTables} {place : Place} {rest calls : List Place}
  {marked : Nat → Bool} {leaf : Nat}

/-- The elements of all delay lists. -/
def elements (E : Nat → List Nat) : Set Nat := {de | ∃ dl, de ∈ E dl}

theorem DelayTables.OK.finite (h : t.OK own E D) : (elements E).Finite := by
  obtain ⟨free, hfree⟩ := h.des
  apply (Finset.range t.des.pool.nextFree).finite_toSet.subset
  rintro de ⟨dl, hde⟩
  exact Finset.mem_coe.mpr (Finset.mem_range.mpr (hfree.bound (some dl) de hde))

/-- An answer that is not conditional does not become so. -/
def DelayTables.Keeps (t t' : DelayTables) : Prop :=
  ∀ leaf, (t.child leaf).isConditional = false → (t'.child leaf).isConditional = false

theorem DelayTables.Keeps.of_eq (h : t'.child = t.child) : t.Keeps t' := by
  intro leaf hleaf
  rwa [h]

/-- Delay information changes to something that is not. -/
theorem DelayTables.Keeps.of_update {c : Child} (hchild : t.child leaf = .asi)
    (h : t'.child = update t.child leaf c) : t.Keeps t' := by
  intro leaf' hleaf'
  have hne : leaf' ≠ leaf := by
    rintro rfl
    rw [hchild] at hleaf'
    cases hleaf'
  rwa [h, update_of_ne hne]

/-- What holds of a place that waits for the calls above it on the stack. -/
def Place.Waits (t : DelayTables) : Place → Prop
  | .posUnconditionalLoop asLeaf => (t.child asLeaf).isConditional = false
  | .simplifyPosUnconditional _ | .handleEmptyDlCreation _ => False
  | .handleUnsupportedAnswerSubst _ => False
  | _ => True

/-- What holds of the place on top of the stack. -/
def Place.Ready (t : DelayTables) (E D : Nat → List Nat) : Place → Prop
  | .simplifyPosUnconditional asLeaf => t.child asLeaf = .asi
  | .handleEmptyDlCreation dl => (∃ leaf, dl ∈ D leaf) ∧ E dl = []
  | .handleUnsupportedAnswerSubst asLeaf => t.child asLeaf = .asi ∧ D asLeaf = []
  | p => p.Waits t

theorem Place.Waits.ready (h : place.Waits t) : place.Ready t E D := by
  cases place with
  | simplifyPosUnconditional | handleEmptyDlCreation | handleUnsupportedAnswerSubst => exact h.elim
  | _ => exact h

theorem Place.Waits.keep (h : place.Waits t) (hkeep : t.Keeps t') : place.Waits t' := by
  cases place with
  | posUnconditionalLoop asLeaf => exact hkeep asLeaf h
  | _ => exact h

/-- What holds when the place on top has been taken off the stack. No delay list belongs to an
answer of a table that is recomputed. -/
structure Base (t : DelayTables) (marked : Nat → Bool) (rest : List Place) (own : Owner → List Nat)
    (E D : Nat → List Nat) : Prop where
  ok : t.OK own E D
  marked : ∀ leaf, marked leaf → t.child leaf = .null
  waits : ∀ p ∈ rest, p.Waits t

/-- The tables of another state are good too. -/
theorem Base.change (h : Base t marked rest own E D) (hOK : t'.OK own' E' D') (hkeep : t.Keeps t')
    (hnull : ∀ leaf, t.child leaf = .null → t'.child leaf = .null) :
    Base t' marked rest own' E' D' :=
  ⟨hOK, fun leaf hleaf => hnull leaf (h.marked leaf hleaf), fun p hp => (h.waits p hp).keep hkeep⟩

/-- The invariant of the simplifications. -/
structure Good (s : Simplifying) (own : Owner → List Nat) (E D : Nat → List Nat) : Prop where
  base : Base s.tables s.marked s.places.tail own E D
  ready : ∀ p ∈ s.places.head?, p.Ready s.tables E D

/-- How much is left to do at a place, the delay elements apart. -/
def Place.weight : Place → Nat
  | .simplifyPosUnconditional _ | .simplifyNegSucceeds _ | .simplifyPosUnsupported _ => 2
  | .posUnconditionalLoop _ | .negSucceedsLoop _ | .posUnsupportedLoop _ => 1
  | .simplifyNegFails _ => 4
  | .negFailsLoop none => 1
  | .negFailsLoop (some _) => 2
  | .markSubgoalFailed _ => 5
  | .handleEmptyDlCreation _ => 9
  | .emptyDlConsumer .. | .emptyDlProducer .. | .derivedUnconditional .. => 3
  | .handleUnsupportedAnswerSubst _ => 12
  | .unsupportedFails .. => 9

/-- How much is left to do. -/
noncomputable def Simplifying.measure (s : Simplifying) (E : Nat → List Nat) : Nat :=
  13 * (elements E).ncard + (s.places.map Place.weight).sum + 2 * s.negFailsStack.length

/-- A step is done, unless too many simplifications are nested, and less is left to do. -/
def Progress (k : Answers) (s : Simplifying) (E : Nat → List Nat) : Prop :=
  (∃ s' own' E' D', s.step k = .ok s' ∧ Good s' own' E' D' ∧ s.tables.Keeps s'.tables ∧
    s'.measure E' < s.measure E) ∨ s.step k = .error .tooManyNested

/-- A place makes calls. -/
theorem Progress.of_calls (t : Simplifying) (calls : List Place) (hs : s.places = place :: rest)
    (hexec : { s with places := rest }.exec k place = .ok (t.call calls)) (ht : t.places = rest)
    (hbase : Base t.tables t.marked rest own' E' D') (hkeep : s.tables.Keeps t.tables)
    (hhead : ∀ p ∈ calls.head?, p.Ready t.tables E' D') (htail : ∀ p ∈ calls.tail, p.Waits t.tables)
    (hless : 13 * (elements E').ncard + (calls.map Place.weight).sum + 2 * t.negFailsStack.length <
      13 * (elements E).ncard + place.weight + 2 * s.negFailsStack.length) : Progress k s E := by
  left
  refine ⟨t.call calls, own', E', D', ?_, ?_, hkeep, ?_⟩
  · rw [Simplifying.step, hs]
    exact hexec
  · have hplaces : (t.call calls).places = calls ++ rest := by rw [Simplifying.call, ht]
    constructor
    case base =>
      refine ⟨hbase.ok, hbase.marked, fun p hp => ?_⟩
      rw [hplaces] at hp
      cases calls with
      | nil => exact hbase.waits p (mem_of_mem_tail hp)
      | cons c calls =>
        rcases mem_append.mp hp with hp | hp
        · exact htail p hp
        · exact hbase.waits p hp
    case ready =>
      intro p hp
      rw [hplaces] at hp
      cases calls with
      | nil => exact (hbase.waits p (mem_of_mem_head? hp)).ready
      | cons c calls => exact hhead p hp
  · simp only [Simplifying.measure, Simplifying.call, ht, hs, map_append, map_cons,
      sum_append, sum_cons]
    omega

/-- A place is done without a call. -/
theorem Progress.of_return (t : Simplifying) (hs : s.places = place :: rest)
    (hexec : { s with places := rest }.exec k place = .ok t) (ht : t.places = rest)
    (hbase : Base t.tables t.marked rest own' E' D') (hkeep : s.tables.Keeps t.tables)
    (hless : 13 * (elements E').ncard + 2 * t.negFailsStack.length <
      13 * (elements E).ncard + place.weight + 2 * s.negFailsStack.length) : Progress k s E := by
  refine .of_calls t [] hs hexec ht hbase hkeep ?_ ?_ (by simpa using hless)
  · exact fun p hp => absurd hp (Option.not_mem_none p)
  · exact fun p hp => absurd hp not_mem_nil

section Places

variable (h : Good s own E D) (hs : s.places = place :: rest)

include h hs

theorem Good.base_rest : Base s.tables s.marked rest own E D := by
  have hbase := h.base
  rwa [hs] at hbase

theorem Good.ready_place : place.Ready s.tables E D := by
  apply h.ready
  rw [hs]
  rfl

/-- The body of a loop takes the element of an entry away. -/
theorem Good.removeDe {o : Owner} {p : Nat} (hp : p ∈ own o) (hwaits : place.Waits s.tables)
    (hexec : { s with places := rest }.exec k place =
      { s with places := rest }.removeDe o p place) : Progress k s E := by
  have hbase := h.base_rest hs
  obtain ⟨left, t, own', E', heq, hOK, hchild, hmem, hempty⟩ := hbase.ok.simplifyDe hp
  obtain ⟨hde, -, -⟩ := hbase.ok.uses.element o p hp
  obtain ⟨leaf, hdl⟩ := hbase.ok.inList _ _ hde
  have hkeep : s.tables.Keeps t := .of_eq hchild
  have hbase' := hbase.change hOK hkeep fun leaf hnull => by rwa [hchild]
  have hless : (elements E').ncard < (elements E).ncard := by
    apply Set.ncard_lt_ncard _ hbase.ok.finite
    constructor
    · rintro de ⟨dl, hde'⟩
      exact ⟨dl, ((hmem dl de).mp hde').1⟩
    · intro hsub
      obtain ⟨dl, hde'⟩ := hsub ⟨_, hde⟩
      exact ((hmem dl _).mp hde').2 rfl
  have hweight : 0 < place.weight := by
    cases place with
    | negFailsLoop popped => cases popped <;> exact Nat.succ_pos _
    | _ => exact Nat.succ_pos _
  cases left with
  | true =>
    refine .of_calls { s with tables := t, places := rest } [place] hs ?_ rfl
      hbase' hkeep ?_ ?_ ?_
    · exact hexec.trans (Simplifying.removeDe_eq (s := { s with places := rest }) heq place)
    · rintro p ⟨⟩
      exact (hwaits.keep hkeep).ready
    · exact fun p hp => absurd hp not_mem_nil
    · show 13 * _ + (place.weight + 0) + 2 * s.negFailsStack.length < _
      omega
  | false =>
    refine .of_calls { s with tables := t, places := rest }
      [.handleEmptyDlCreation (s.tables.pndes.dl p), place] hs ?_ rfl hbase' hkeep ?_ ?_ ?_
    · exact hexec.trans (Simplifying.removeDe_eq (s := { s with places := rest }) heq place)
    · rintro p' ⟨⟩
      exact ⟨⟨leaf, hdl⟩, hempty rfl⟩
    · intro p' hp'
      rw [mem_singleton.mp hp']
      exact hwaits.keep hkeep
    · show 13 * _ + (9 + (place.weight + 0)) + 2 * s.negFailsStack.length < _
      omega

/-- The answer of a delay list is valid and has delay information. -/
theorem Good.valid {dl : Nat} (hdl : dl ∈ D leaf) :
    s.isValidNode leaf ∧ s.tables.child leaf ≠ .null := by
  have hbase := h.base_rest hs
  have hasi := hbase.ok.conditional leaf _ hdl
  have hmarked : s.marked leaf = false := by
    rw [← Bool.not_eq_true]
    intro hmarked
    exact Child.noConfusion (hasi.symm.trans (hbase.marked leaf hmarked))
  simp [Simplifying.isValidNode, hmarked, hasi]

/-- The body of a loop takes the delay list of an entry away. -/
theorem Good.removeDl {o : Owner} {p : Nat} (hp : p ∈ own o) (hwaits : place.Waits s.tables)
    (hexec : { s with places := rest }.exec k place =
      { s with places := rest }.removeDl p place) : Progress k s E := by
  have hbase := h.base_rest hs
  obtain ⟨hde, -, -⟩ := hbase.ok.uses.element o p hp
  obtain ⟨leaf, hdl⟩ := hbase.ok.inList _ _ hde
  obtain ⟨left, t, own', E', D', heq, hOK, hchild, hmem, hempty, -, -⟩ := hbase.ok.simplifyDl hdl
  have hasi := hbase.ok.conditional leaf _ hdl
  have hvalid := h.valid hs hdl
  have hkeep : s.tables.Keeps t := .of_eq hchild
  have hbase' := hbase.change hOK hkeep fun leaf hnull => by rwa [hchild]
  have hless : (elements E').ncard < (elements E).ncard := by
    apply Set.ncard_lt_ncard _ hbase.ok.finite
    constructor
    · rintro de ⟨dl, hde'⟩
      exact ⟨dl, ((hmem dl de).mp hde').1⟩
    · intro hsub
      obtain ⟨dl, hde'⟩ := hsub ⟨_, hde⟩
      obtain ⟨hde', hne⟩ := (hmem dl _).mp hde'
      exact hne (hbase.ok.uses.dl_unique hde' hde)
  have hweight : 0 < place.weight := by
    cases place with
    | negFailsLoop popped => cases popped <;> exact Nat.succ_pos _
    | _ => exact Nat.succ_pos _
  have hstep := Simplifying.removeDl_eq (s := { s with places := rest }) (hbase.ok.asl leaf _ hdl)
    hvalid heq place
  cases left with
  | true =>
    refine .of_calls { s with tables := t, places := rest } [place] hs
      (hexec.trans hstep) rfl hbase' hkeep ?_ ?_ ?_
    · rintro p ⟨⟩
      exact (hwaits.keep hkeep).ready
    · exact fun p hp => absurd hp not_mem_nil
    · show 13 * _ + (place.weight + 0) + 2 * s.negFailsStack.length < _
      omega
  | false =>
    refine .of_calls { s with tables := t, places := rest }
      [.handleUnsupportedAnswerSubst leaf, place] hs (hexec.trans hstep) rfl hbase' hkeep
      ?_ ?_ ?_
    · rintro p' ⟨⟩
      exact ⟨(congrFun hchild leaf).trans hasi, hempty rfl⟩
    · intro p' hp'
      rw [mem_singleton.mp hp']
      exact hwaits.keep hkeep
    · show 13 * _ + (12 + (place.weight + 0)) + 2 * s.negFailsStack.length < _
      omega

end Places

/-- The test at the start of a simplification. -/
theorem Simplifying.enter_eq (s : Simplifying) :
    s.enter = .ok { s with depth := s.depth + 1 } ∨ s.enter = .error .tooManyNested := by
  unfold Simplifying.enter
  split
  next => exact Or.inr rfl
  next => exact Or.inl rfl

theorem Progress.of_error (hs : s.places = place :: rest)
    (hexec : { s with places := rest }.exec k place = .error .tooManyNested) : Progress k s E := by
  right
  rw [Simplifying.step, hs]
  exact hexec

/-- A place that makes calls and changes neither tables nor marks. -/
theorem Good.of_calls (h : Good s own E D) (t : Simplifying) (calls : List Place)
    (hs : s.places = place :: rest) (hexec : { s with places := rest }.exec k place = .ok
    (t.call calls))
    (ht : t.places = rest ∧ t.tables = s.tables ∧ t.marked = s.marked)
    (hcalls : ∀ p ∈ calls, p.Waits s.tables)
    (hless : (calls.map Place.weight).sum + 2 * t.negFailsStack.length <
      place.weight + 2 * s.negFailsStack.length) : Progress k s E := by
  obtain ⟨hrest, htables, hmarked⟩ := ht
  have hbase : Base t.tables t.marked rest own E D := by
    rw [htables, hmarked]
    exact h.base_rest hs
  refine .of_calls t calls hs hexec hrest hbase ?_ ?_ ?_ (by omega)
  · rw [htables]
    exact .of_eq rfl
  · intro p hp
    rw [htables]
    exact (hcalls p (mem_of_mem_head? hp)).ready
  · intro p hp
    rw [htables]
    exact hcalls p (mem_of_mem_tail hp)

section Functions

variable (h : Good s own E D)

include h

variable {asLeaf subgoal : Nat}

theorem Good.simplifyPosUnconditional
    (hs : s.places = .simplifyPosUnconditional asLeaf :: rest) : Progress k s E := by
  have hbase := h.base_rest hs
  have hchild : s.tables.child asLeaf = .asi := h.ready_place hs
  obtain ⟨t, own', E', D', heq, hOK, hsame, hsub⟩ :=
    hbase.ok.releaseAllDls hchild (show Child.unconditional ≠ .asi from Child.noConfusion)
      Child.noConfusion
  have hupdate : (t.setChild asLeaf .unconditional).child =
      update s.tables.child asLeaf .unconditional := by
    rw [← hsame]
    rfl
  have hkeep : s.tables.Keeps (t.setChild asLeaf .unconditional) := .of_update hchild hupdate
  rcases { s with places := rest }.enter_eq with henter | henter
  case inr =>
    refine .of_error hs ?_
    rw [Simplifying.exec, henter]
    rfl
  refine .of_calls { s with
      tables := t.setChild asLeaf .unconditional
      depth := s.depth + 1
      places := rest } [.posUnconditionalLoop asLeaf] hs ?_ rfl
    (hbase.change hOK hkeep ?_) hkeep ?_ ?_ ?_
  · rw [Simplifying.exec, henter]
    simp only [bind, Except.bind, heq, Simplifying.get]
  · intro leaf hnull
    have hne : leaf ≠ asLeaf := by
      rintro rfl
      exact Child.noConfusion (hnull.symm.trans hchild)
    rw [hupdate, update_of_ne hne]
    exact hnull
  · rintro p ⟨⟩
    show (update t.child asLeaf .unconditional asLeaf).isConditional = false
    rw [update_self]
    rfl
  · exact fun p hp => absurd hp not_mem_nil
  · have hle : (elements E').ncard ≤ (elements E).ncard := by
      apply Set.ncard_le_ncard _ hbase.ok.finite
      rintro de ⟨dl, hde⟩
      exact ⟨dl, hsub dl de hde⟩
    show 13 * _ + (1 + 0) + 2 * s.negFailsStack.length < 13 * _ + 2 + 2 * s.negFailsStack.length
    omega

theorem Good.posUnconditionalLoop
    (hs : s.places = .posUnconditionalLoop asLeaf :: rest) : Progress k s E := by
  have hbase := h.base_rest hs
  have hwaits : (s.tables.child asLeaf).isConditional = false := h.ready_place hs
  cases hhead : s.tables.pndes.head (.answer asLeaf) with
  | some pde =>
    have hp : pde ∈ own (.answer asLeaf) := by
      rw [hbase.ok.uses.head] at hhead
      exact mem_of_mem_head? hhead
    refine h.removeDe hs hp hwaits ?_
    rw [Simplifying.exec, hhead]
  | none =>
    have hown : own (.answer asLeaf) = [] := by
      rw [hbase.ok.uses.head] at hhead
      exact List.head?_eq_none_iff.mp hhead
    have hD : D asLeaf = [] := by
      rw [eq_nil_iff_forall_not_mem]
      intro dl hdl
      rw [hbase.ok.conditional asLeaf dl hdl] at hwaits
      cases hwaits
    have hOK := hbase.ok.setChild (c := .null) hD Child.noConfusion fun _ => hown
    have hkeep : s.tables.Keeps (s.tables.setChild asLeaf .null) := by
      intro leaf hleaf
      show (update s.tables.child asLeaf .null leaf).isConditional = false
      rcases eq_or_ne leaf asLeaf with rfl | hne
      · rw [update_self]
        rfl
      · rwa [update_of_ne hne]
    have hchange := hbase.change hOK hkeep fun leaf hnull => by
      show update s.tables.child asLeaf .null leaf = .null
      rcases eq_or_ne leaf asLeaf with rfl | hne
      · exact update_self ..
      · rwa [update_of_ne hne]
    have hfree : ({ s with places := rest }.freeAsi asLeaf).tables =
        s.tables.setChild asLeaf .null ∧
        ({ s with places := rest }.freeAsi asLeaf).marked = s.marked ∧
        ({ s with places := rest }.freeAsi asLeaf).negFailsStack = s.negFailsStack := by
      unfold Simplifying.freeAsi
      dsimp only
      split <;> exact ⟨rfl, rfl, rfl⟩
    have hbase' : Base ({ s with places := rest }.freeAsi asLeaf).tables
        ({ s with places := rest }.freeAsi asLeaf).marked rest own E D := by
      rw [hfree.1, hfree.2.1]
      exact hchange
    refine .of_return ({ s with places := rest }.freeAsi asLeaf).leave hs ?_
      (Simplifying.freeAsi_places ..) hbase' ?_ ?_
    · rw [Simplifying.exec, hhead]
    · show s.tables.Keeps ({ s with places := rest }.freeAsi asLeaf).tables
      rw [hfree.1]
      exact hkeep
    · show 13 * _ + 2 * ({ s with places := rest }.freeAsi asLeaf).negFailsStack.length <
        13 * _ + 1 + 2 * s.negFailsStack.length
      rw [hfree.2.2]
      omega

theorem Good.simplifyNegFails
    (hs : s.places = .simplifyNegFails subgoal :: rest) : Progress k s E := by
  rcases { s with places := rest }.enter_eq with henter | henter
  case inr =>
    refine .of_error hs ?_
    rw [Simplifying.exec, henter]
    rfl
  cases hin : s.inSimplifyNegFails with
  | true =>
    refine h.of_calls { s with
        depth := s.depth + 1
        negFailsStack := subgoal :: s.negFailsStack
        places := rest } [] hs ?_ ⟨rfl, rfl, rfl⟩ ?_ ?_
    · rw [Simplifying.exec, henter]
      simp only [bind, Except.bind, hin, if_true]
      rfl
    · exact fun p hp => absurd hp not_mem_nil
    · show 0 + 2 * (s.negFailsStack.length + 1) < 4 + 2 * s.negFailsStack.length
      omega
  | false =>
    refine h.of_calls { s with
        depth := s.depth + 1
        negFailsStack := subgoal :: s.negFailsStack
        inSimplifyNegFails := true
        answersTag := update s.answersTag subgoal .noAnswers
        answerCompleted := update s.answerCompleted subgoal true
        places := rest } [.negFailsLoop none] hs ?_ ⟨rfl, rfl, rfl⟩ ?_ ?_
    · rw [Simplifying.exec, henter]
      simp only [bind, Except.bind, hin, Bool.false_eq_true, if_false]
    · intro p hp
      rw [mem_singleton.mp hp]
      trivial
    · show (1 + 0) + 2 * (s.negFailsStack.length + 1) < 4 + 2 * s.negFailsStack.length
      omega

theorem Good.negFailsLoop {popped : Option Nat} (hs : s.places = .negFailsLoop popped :: rest) :
    Progress k s E := by
  have hbase := h.base_rest hs
  cases popped with
  | none =>
    cases hstack : s.negFailsStack with
    | nil =>
      refine h.of_calls { s with
          inSimplifyNegFails := false
          depth := s.depth - 1
          places := rest } [] hs ?_ ⟨rfl, rfl, rfl⟩ ?_ ?_
      · rw [Simplifying.exec, hstack]
        rfl
      · exact fun p hp => absurd hp not_mem_nil
      · show 0 + 2 * s.negFailsStack.length < 1 + 2 * s.negFailsStack.length
        omega
    | cons subgoal stack =>
      refine h.of_calls { s with negFailsStack := stack, places := rest }
        [.negFailsLoop (some subgoal)] hs ?_ ⟨rfl, rfl, rfl⟩ ?_ ?_
      · rw [Simplifying.exec, hstack]
      · intro p hp
        rw [mem_singleton.mp hp]
        trivial
      · rw [hstack]
        show (2 + 0) + 2 * stack.length < 1 + 2 * (stack.length + 1)
        omega
  | some subgoal =>
    cases hhead : s.tables.pndes.head (.subgoal subgoal) with
    | some nde =>
      have hp : nde ∈ own (.subgoal subgoal) := by
        rw [hbase.ok.uses.head] at hhead
        exact mem_of_mem_head? hhead
      refine h.removeDe hs hp trivial ?_
      rw [Simplifying.exec, hhead]
    | none =>
      refine h.of_calls { s with places := rest } [.negFailsLoop none] hs ?_
        ⟨rfl, rfl, rfl⟩ ?_ ?_
      · rw [Simplifying.exec, hhead]
      · intro p hp
        rw [mem_singleton.mp hp]
        trivial
      · show (1 + 0) + 2 * s.negFailsStack.length < 2 + 2 * s.negFailsStack.length
        omega

theorem Good.simplifyNegSucceeds
    (hs : s.places = .simplifyNegSucceeds subgoal :: rest) : Progress k s E := by
  rcases { s with places := rest }.enter_eq with henter | henter
  case inr =>
    refine .of_error hs ?_
    rw [Simplifying.exec, henter]
    rfl
  refine h.of_calls { s with
      depth := s.depth + 1
      answerCompleted := update s.answerCompleted subgoal true
      places := rest } [.negSucceedsLoop subgoal] hs ?_ ⟨rfl, rfl, rfl⟩ ?_ ?_
  · rw [Simplifying.exec, henter]
    rfl
  · intro p hp
    rw [mem_singleton.mp hp]
    trivial
  · show (1 + 0) + 2 * s.negFailsStack.length < 2 + 2 * s.negFailsStack.length
    omega

theorem Good.negSucceedsLoop (hs : s.places = .negSucceedsLoop subgoal :: rest) :
    Progress k s E := by
  have hbase := h.base_rest hs
  cases hhead : s.tables.pndes.head (.subgoal subgoal) with
  | some nde =>
    have hp : nde ∈ own (.subgoal subgoal) := by
      rw [hbase.ok.uses.head] at hhead
      exact mem_of_mem_head? hhead
    refine h.removeDl hs hp trivial ?_
    rw [Simplifying.exec, hhead]
  | none =>
    refine h.of_calls { s with depth := s.depth - 1, places := rest } [] hs ?_
      ⟨rfl, rfl, rfl⟩ ?_ ?_
    · rw [Simplifying.exec, hhead]
      rfl
    · exact fun p hp => absurd hp not_mem_nil
    · show 0 + 2 * s.negFailsStack.length < 1 + 2 * s.negFailsStack.length
      omega

theorem Good.simplifyPosUnsupported
    (hs : s.places = .simplifyPosUnsupported asLeaf :: rest) : Progress k s E := by
  rcases { s with places := rest }.enter_eq with henter | henter
  case inr =>
    refine .of_error hs ?_
    rw [Simplifying.exec, henter]
    rfl
  refine h.of_calls { s with depth := s.depth + 1, places := rest }
    [.posUnsupportedLoop asLeaf] hs ?_ ⟨rfl, rfl, rfl⟩ ?_ ?_
  · rw [Simplifying.exec, henter]
    rfl
  · intro p hp
    rw [mem_singleton.mp hp]
    trivial
  · show (1 + 0) + 2 * s.negFailsStack.length < 2 + 2 * s.negFailsStack.length
    omega

theorem Good.posUnsupportedLoop
    (hs : s.places = .posUnsupportedLoop asLeaf :: rest) : Progress k s E := by
  have hbase := h.base_rest hs
  cases hhead : s.tables.pndes.head (.answer asLeaf) with
  | some pde =>
    have hp : pde ∈ own (.answer asLeaf) := by
      rw [hbase.ok.uses.head] at hhead
      exact mem_of_mem_head? hhead
    refine h.removeDl hs hp trivial ?_
    rw [Simplifying.exec, hhead]
  | none =>
    refine h.of_calls { s with depth := s.depth - 1, places := rest } [] hs ?_
      ⟨rfl, rfl, rfl⟩ ?_ ?_
    · rw [Simplifying.exec, hhead]
      rfl
    · exact fun p hp => absurd hp not_mem_nil
    · show 0 + 2 * s.negFailsStack.length < 1 + 2 * s.negFailsStack.length
      omega

theorem Good.handleEmptyDlCreation {dl : Nat}
    (hs : s.places = .handleEmptyDlCreation dl :: rest) : Progress k s E := by
  have hbase := h.base_rest hs
  obtain ⟨⟨leaf, hdl⟩, hempty⟩ : (∃ leaf, dl ∈ D leaf) ∧ E dl = [] := h.ready_place hs
  have hchild := hbase.ok.conditional leaf dl hdl
  obtain ⟨left, t, D', heq, hOK, hsame⟩ := hbase.ok.removeDl hdl hempty
  have hkeep : s.tables.Keeps t := .of_eq hsame
  have hbase' := hbase.change hOK hkeep fun leaf' hnull => by rwa [hsame]
  refine .of_calls { s with tables := t, places := rest } [.simplifyPosUnconditional leaf,
    .emptyDlConsumer leaf (s.asiSubgoal leaf), .emptyDlProducer leaf (s.asiSubgoal leaf)] hs ?_ rfl
    hbase' hkeep ?_ ?_ ?_
  · rw [Simplifying.exec]
    simp only [hbase.ok.asl leaf dl hdl, Simplifying.get, bind, Except.bind]
    rw [if_pos (by rw [hchild]; rfl), heq]
  · rintro p ⟨⟩
    exact (congrFun hsame leaf).trans hchild
  · intro p hp
    rcases mem_pair.mp hp with rfl | rfl <;> trivial
  · show 13 * _ + (2 + (3 + (3 + 0))) + 2 * s.negFailsStack.length < 13 * _ + 9 + _
    omega

theorem Good.emptyDlConsumer
    (hs : s.places = .emptyDlConsumer asLeaf subgoal :: rest) : Progress k s E := by
  cases hconsumer : k.consumer asLeaf with
  | some consumer =>
    refine h.of_calls { s with
        completed := update s.completed consumer true
        places := rest } [.simplifyNegSucceeds consumer] hs ?_ ⟨rfl, rfl, rfl⟩ ?_ ?_
    · rw [Simplifying.exec, hconsumer]
    · intro p hp
      rw [mem_singleton.mp hp]
      trivial
    · show (2 + 0) + 2 * s.negFailsStack.length < 3 + 2 * s.negFailsStack.length
      omega
  | none =>
    refine h.of_calls { s with places := rest } [] hs ?_ ⟨rfl, rfl, rfl⟩ ?_ ?_
    · rw [Simplifying.exec, hconsumer]
      rfl
    · exact fun p hp => absurd hp not_mem_nil
    · show 0 + 2 * s.negFailsStack.length < 3 + 2 * s.negFailsStack.length
      omega

theorem Good.emptyDlProducer
    (hs : s.places = .emptyDlProducer asLeaf subgoal :: rest) : Progress k s E := by
  refine h.of_calls { s with
      completed := update s.completed subgoal
        (s.completed subgoal || k.mostGeneral asLeaf)
      places := rest } [.simplifyNegSucceeds subgoal] hs rfl ⟨rfl, rfl, rfl⟩ ?_ ?_
  · intro p hp
    rw [mem_singleton.mp hp]
    trivial
  · show (2 + 0) + 2 * s.negFailsStack.length < 3 + 2 * s.negFailsStack.length
    omega

theorem Good.handleUnsupportedAnswerSubst
    (hs : s.places = .handleUnsupportedAnswerSubst asLeaf :: rest) : Progress k s E := by
  have hbase := h.base_rest hs
  obtain ⟨hchild, hD⟩ : s.tables.child asLeaf = .asi ∧ D asLeaf = [] := h.ready_place hs
  have hOK := hbase.ok.setChild (c := .deleted) hD Child.noConfusion
    fun hnull => Child.noConfusion hnull
  have hne : ∀ leaf, s.tables.child leaf ≠ .asi →
      (s.tables.setChild asLeaf .deleted).child leaf = s.tables.child leaf := by
    intro leaf hleaf
    have hne : leaf ≠ asLeaf := by
      rintro rfl
      exact hleaf hchild
    exact update_of_ne hne ..
  have hkeep : s.tables.Keeps (s.tables.setChild asLeaf .deleted) := by
    intro leaf hleaf
    rw [hne leaf]
    · exact hleaf
    · intro hasi
      rw [hasi] at hleaf
      cases hleaf
  have hbase' := hbase.change hOK hkeep fun leaf hnull => by
    rw [hne leaf (by rw [hnull]; exact Child.noConfusion)]
    exact hnull
  refine .of_calls { s with
      tables := s.tables.setChild asLeaf .deleted
      leaves := update s.leaves (s.ansRoot (s.asiSubgoal asLeaf))
        ((s.leaves (s.ansRoot (s.asiSubgoal asLeaf))).erase asLeaf)
      places := rest } [.simplifyPosUnsupported asLeaf,
        .unsupportedFails asLeaf (s.asiSubgoal asLeaf)] hs rfl rfl hbase' hkeep ?_ ?_ ?_
  · rintro p ⟨⟩
    trivial
  · intro p hp
    rw [mem_singleton.mp hp]
    trivial
  · show 13 * _ + (2 + (9 + 0)) + 2 * s.negFailsStack.length < 13 * _ + 12 + _
    omega

theorem Good.unsupportedFails
    (hs : s.places = .unsupportedFails asLeaf subgoal :: rest) : Progress k s E := by
  by_cases hcompleted : s.completed subgoal
  case neg =>
    refine h.of_calls { s with places := rest } [] hs ?_ ⟨rfl, rfl, rfl⟩ ?_ ?_
    · rw [Simplifying.exec, if_neg hcompleted]
      rfl
    · exact fun p hp => absurd hp not_mem_nil
    · show 0 + 2 * s.negFailsStack.length < 9 + 2 * s.negFailsStack.length
      omega
  refine h.of_calls { s with places := rest } _ hs (by rw [Simplifying.exec, if_pos hcompleted])
    ⟨rfl, rfl, rfl⟩ ?_ ?_
  · intro p hp
    rcases mem_append.mp hp with hp | hp
    · split at hp
      next => rw [mem_singleton.mp hp]; trivial
      next => exact absurd hp not_mem_nil
    · obtain ⟨consumer, -, rfl⟩ := mem_map.mp hp
      trivial
  · -- at most two simplifications are called
    have hconsumer : ((((k.consumer asLeaf).filter (· ≠ subgoal)).toList.map
        Place.simplifyNegFails).map Place.weight).sum ≤ 4 := by
      cases (k.consumer asLeaf).filter (· ≠ subgoal) with
      | none => exact Nat.zero_le 4
      | some consumer => exact le_rfl
    rw [map_append, sum_append]
    show _ < 9 + 2 * s.negFailsStack.length
    have hproducer : ((if ({ s with places := rest } : Simplifying).subgoalFails subgoal then
        [Place.simplifyNegFails subgoal] else []).map Place.weight).sum ≤ 4 := by
      split
      next => exact le_rfl
      next => exact Nat.zero_le 4
    show _ + _ + 2 * s.negFailsStack.length < _
    omega

theorem Good.markSubgoalFailed
    (hs : s.places = .markSubgoalFailed subgoal :: rest) : Progress k s E := by
  refine h.of_calls { s with
      leaves := update s.leaves (s.ansRoot subgoal) []
      places := rest } [.simplifyNegFails subgoal] hs rfl ⟨rfl, rfl, rfl⟩ ?_ ?_
  · intro p hp
    rw [mem_singleton.mp hp]
    trivial
  · show (4 + 0) + 2 * s.negFailsStack.length < 5 + 2 * s.negFailsStack.length
    omega

theorem Good.derivedUnconditional
    (hs : s.places = .derivedUnconditional asLeaf subgoal :: rest) : Progress k s E := by
  by_cases hcond : (s.tables.child asLeaf).isConditional = false ∧
    s.tables.pndes.head (.subgoal subgoal) ≠ none
  case pos =>
    refine h.of_calls { s with places := rest } [.simplifyNegSucceeds subgoal] hs
      (by rw [Simplifying.exec, if_pos hcond]) ⟨rfl, rfl, rfl⟩ ?_ ?_
    · intro p hp
      rw [mem_singleton.mp hp]
      trivial
    · show (2 + 0) + 2 * s.negFailsStack.length < 3 + 2 * s.negFailsStack.length
      omega
  case neg =>
    refine h.of_calls { s with places := rest } [] hs ?_ ⟨rfl, rfl, rfl⟩ ?_ ?_
    · rw [Simplifying.exec, if_neg hcond]
      rfl
    · exact fun p hp => absurd hp not_mem_nil
    · show 0 + 2 * s.negFailsStack.length < 3 + 2 * s.negFailsStack.length
      omega

/-- Each place makes progress. -/
theorem Good.progress (hs : s.places ≠ []) : Progress k s E := by
  obtain ⟨place, rest, hplaces⟩ := exists_cons_of_ne_nil hs
  cases place with
  | simplifyPosUnconditional => exact h.simplifyPosUnconditional hplaces
  | posUnconditionalLoop => exact h.posUnconditionalLoop hplaces
  | simplifyNegFails => exact h.simplifyNegFails hplaces
  | negFailsLoop => exact h.negFailsLoop hplaces
  | simplifyNegSucceeds => exact h.simplifyNegSucceeds hplaces
  | negSucceedsLoop => exact h.negSucceedsLoop hplaces
  | simplifyPosUnsupported => exact h.simplifyPosUnsupported hplaces
  | posUnsupportedLoop => exact h.posUnsupportedLoop hplaces
  | handleEmptyDlCreation => exact h.handleEmptyDlCreation hplaces
  | emptyDlConsumer => exact h.emptyDlConsumer hplaces
  | emptyDlProducer => exact h.emptyDlProducer hplaces
  | handleUnsupportedAnswerSubst => exact h.handleUnsupportedAnswerSubst hplaces
  | unsupportedFails => exact h.unsupportedFails hplaces
  | markSubgoalFailed => exact h.markSubgoalFailed hplaces
  | derivedUnconditional => exact h.derivedUnconditional hplaces

/-- The open calls return, unless too many of them are nested. -/
theorem Good.ends : (simplification k).Ends s
    (fun s' => (∃ own' E' D', Good s' own' E' D') ∧ s.tables.Keeps s'.tables)
    (· = .tooManyNested) := by
  refine Machine.ends_of_measure (J := fun s' n => ∃ own' E' D', Good s' own' E' D' ∧
    s.tables.Keeps s'.tables ∧ s'.measure E' = n) ?_ ?_ ⟨own, E, D, h, .of_eq rfl, rfl⟩
  · rintro s1 n ⟨own1, E1, D1, h1, hkeep, rfl⟩ hhalted
    rcases h1.progress (isEmpty_eq_false_iff.mp hhalted) with
      ⟨s2, own2, E2, D2, hstep, h2, hkeep2, hless⟩ | herror
    · refine Or.inl ⟨s2, _, hstep, ⟨own2, E2, D2, h2, fun leaf hleaf => ?_, rfl⟩, hless⟩
      exact hkeep2 leaf (hkeep leaf hleaf)
    · exact Or.inr ⟨_, herror, rfl⟩
  · rintro s1 n ⟨own1, E1, D1, h1, hkeep, -⟩ -
    exact ⟨⟨own1, E1, D1, h1⟩, hkeep⟩

end Functions

end XSBEngine.Delay
