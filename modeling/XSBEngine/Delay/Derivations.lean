import XSBEngine.Delay.Termination

/-!
# Runs of derivations and simplifications

Answers are derived, tables are completed and recomputed, and the simplifications that this starts
run until they return.
-/

namespace XSBEngine.Delay

open Function Library List Option

variable {own own' : Owner → List Nat} {E E' D D' : Nat → List Nat} {k : Answers}
  {s s' : Simplifying} {failed succeeded : Nat → Bool} {asLeaf subgoal leaf : Nat}
  {sfExists : Bool} {delayreg : List (Nat × Option Nat)}

/-- What happens to the tables: an answer is derived, a table is completed, simplification of a
consumer of a subsumptive table, the truth value of an answer is forced, a completed incremental
table is called again after a change, where it gets a new subgoal frame, and a step of the open
calls. -/
inductive SimplifyingEvent where
  | newAnswer (failed succeeded : Nat → Bool) (asLeaf subgoal : Nat)
      (delayreg : List (Nat × Option Nat))
  | complete (subgoal : Nat)
  | simplifyNegFails (consumer : Nat)
  | forceAnswerTrue (asLeaf : Nat)
  | forceAnswerFalse (asLeaf : Nat)
  | recompute (old new : Nat)
  | step

namespace Simplifying

/-- `neg_simplif_possible`. -/
def negSimplifPossible (s : Simplifying) (subgoal : Nat) : Bool :=
  s.subgoalFails subgoal && (s.tables.pndes.head (.subgoal subgoal)).isSome

/-- What an event does, up to the calls that it makes. -/
def run (k : Answers) (s : Simplifying) : SimplifyingEvent → Option Simplifying
  | .newAnswer failed succeeded asLeaf subgoal delayreg =>
    s.newAnswer failed succeeded asLeaf subgoal delayreg
  | .complete subgoal =>
    some ({ s with completed := update s.completed subgoal true }.call
      (if s.negSimplifPossible subgoal then [.simplifyNegFails subgoal] else []))
  | .simplifyNegFails consumer => some (s.call [.simplifyNegFails consumer])
  | .forceAnswerTrue asLeaf =>
    if (s.tables.child asLeaf).isConditional then
      some (s.call [.simplifyPosUnconditional asLeaf, .simplifyNegSucceeds (s.asiSubgoal asLeaf)])
    else some s
  | .forceAnswerFalse asLeaf =>
    if (s.tables.child asLeaf).isConditional then do
      let subgoal := s.asiSubgoal asLeaf
      let root := s.ansRoot subgoal
      let tables ← s.tables.releaseAllDls asLeaf
      some ({ s with
        tables := tables.setChild asLeaf .deleted
        leaves := update s.leaves root ((s.leaves root).erase asLeaf) }.call
          [.simplifyPosUnsupported asLeaf, .markSubgoalFailed subgoal])
    else some s
  | .recompute old new =>
    -- all answers are marked by `safe_delete_branch`, and stay in the trie
    some { s with
      marked := fun leaf => s.marked leaf || (s.leaves (s.ansRoot old)).contains leaf
      ansRoot := update s.ansRoot new (s.ansRoot old)
      completed := update s.completed new false }
  | .step => (s.step k).toOption

/-- When an event can happen. -/
def Allowed (s : Simplifying) : SimplifyingEvent → Prop
  | .newAnswer _ _ asLeaf subgoal _ =>
    -- a new leaf has no child, and a deleted one is not in the trie
    s.places = [] ∧ (asLeaf ∉ s.leaves (s.ansRoot subgoal) → s.tables.child asLeaf = .null) ∧
      s.tables.child asLeaf ≠ .deleted
  | .complete _ | .simplifyNegFails _ => s.places = []
  | .forceAnswerTrue asLeaf | .forceAnswerFalse asLeaf =>
    s.places = [] ∧ s.tables.child asLeaf ≠ .deleted
  | .recompute old _ => s.places = [] ∧ s.completed old
  | .step => s.places ≠ []

/-- No answer of a table that is recomputed has delay information. -/
def RecomputesUnconditional (s : Simplifying) : SimplifyingEvent → Prop
  | .recompute old _ => ∀ leaf ∈ s.leaves (s.ansRoot old), s.tables.child leaf = .null
  | _ => True

end Simplifying

/-- Runs from empty tables. -/
def simplifications (k : Answers) : System Simplifying SimplifyingEvent where
  init s := s.tables.Initial ∧ (∀ leaf, s.marked leaf = false) ∧ s.places = []
  step s e s' := s.Allowed e ∧ s.run k e = some s'

/-! ### Derivations -/

theorem internDes_none (t : DelayTables) (failed : Nat → Bool) (delayreg : List (Nat × Option Nat))
    (head : Option Nat) (e : DeTable) :
    (t.internDes failed delayreg head e).1 = none ↔
      head = none ∧ t.remaining failed delayreg = [] := by
  induction delayreg generalizing head e with
  | nil => simp [DelayTables.internDes, DelayTables.remaining]
  | cons elem delayreg ih =>
    rw [DelayTables.internDes]
    split
    next hsimplifiable =>
      rw [ih]
      simp [DelayTables.remaining, hsimplifiable]
    next hsimplifiable =>
      rw [ih]
      simp [DelayTables.remaining, hsimplifiable]

/-- No delay list is made if no element is left. -/
theorem internDelayList_none (t : DelayTables) (failed : Nat → Bool)
    (delayreg : List (Nat × Option Nat)) :
    (t.internDelayList failed delayreg).1 = none ↔ t.remaining failed delayreg = [] := by
  have hnone := internDes_none t failed delayreg none t.des
  unfold DelayTables.internDelayList
  split
  next des heq =>
    rw [heq] at hnone
    simpa using hnone
  next head des heq =>
    rw [heq] at hnone
    simpa using hnone

/-- The invariant between the simplifications. -/
theorem Good.of_idle {t : DelayTables} (hOK : t.OK own E D)
    (hmarked : ∀ leaf, s.marked leaf → t.child leaf = .null) (hs : s.places = [])
    (ht : s.tables = t) : Good s own E D := by
  subst ht
  constructor
  case base =>
    refine ⟨hOK, hmarked, fun p hp => ?_⟩
    rw [hs] at hp
    exact absurd hp not_mem_nil
  case ready =>
    intro p hp
    rw [hs] at hp
    exact absurd hp (not_mem_none p)

/-- Calls are made while no other is open. -/
theorem Good.call (h : Good s own E D) (hs : s.places = []) (calls : List Place)
    (hhead : ∀ p ∈ calls.head?, p.Ready s.tables E D) (htail : ∀ p ∈ calls.tail, p.Waits s.tables) :
    Good (s.call calls) own E D := by
  have hplaces : (s.call calls).places = calls := by
    rw [Simplifying.call, hs]
    exact append_nil calls
  constructor
  case base =>
    refine ⟨h.base.ok, h.base.marked, ?_⟩
    rw [hplaces]
    exact htail
  case ready =>
    rw [hplaces]
    exact hhead

/-- What `do_delay_stuff_shared` makes of the tables, and what it calls. -/
theorem Simplifying.doDelayStuff_eq {t : DelayTables}
    (ht : s.tables.doDelayStuff failed asLeaf sfExists delayreg = some t) (subgoal : Nat) :
    ∃ asiSubgoal, s.doDelayStuff failed asLeaf subgoal sfExists delayreg =
      some (Simplifying.call { s with tables := t, asiSubgoal := asiSubgoal, depth := 0 }
        ((if sfExists && (t.child asLeaf).isConditional &&
            (s.tables.remaining failed delayreg).isEmpty then
          [Place.simplifyPosUnconditional asLeaf] else []) ++
            [Place.derivedUnconditional asLeaf subgoal])) := by
  cases delayreg with
  | nil =>
    have heq : s.tables.doDelayStuff failed asLeaf sfExists [] = some s.tables := by
      unfold DelayTables.doDelayStuff
      split <;> rfl
    obtain rfl : s.tables = t := some.inj (heq.symm.trans ht)
    refine ⟨s.asiSubgoal, ?_⟩
    simp [Simplifying.doDelayStuff, DelayTables.remaining]
  | cons elem delayreg =>
    cases hcond : (!sfExists || (s.tables.child asLeaf).isConditional) with
    | false =>
      have heq : s.tables.doDelayStuff failed asLeaf sfExists (elem :: delayreg) =
          some s.tables := by
        rw [DelayTables.doDelayStuff, hcond]
        rfl
      obtain rfl : s.tables = t := some.inj (heq.symm.trans ht)
      obtain ⟨hexists, hnot⟩ := Bool.or_eq_false_iff.mp hcond
      obtain rfl : sfExists = true := by simpa using hexists
      refine ⟨s.asiSubgoal, ?_⟩
      simp [Simplifying.doDelayStuff, heq, hnot]
    | true =>
      cases hdl : (s.tables.internDelayList failed (elem :: delayreg)).1 with
      | none =>
        have hnone := (internDelayList_none ..).mp hdl
        refine ⟨s.asiSubgoal, ?_⟩
        simp [Simplifying.doDelayStuff, ht, hcond, hdl, hnone]
      | some dl =>
        have hsome : s.tables.remaining failed (elem :: delayreg) ≠ [] := by
          intro hnone
          rw [(internDelayList_none ..).mpr hnone] at hdl
          cases hdl
        refine ⟨if s.tables.child asLeaf = Child.null then
          update s.asiSubgoal asLeaf subgoal else s.asiSubgoal, ?_⟩
        simp [Simplifying.doDelayStuff, ht, hcond, hdl, hsome]

/-- An answer is derived that is new, or was derived before. -/
theorem Good.doDelayStuff (h : Good s own E D) (hs : s.places = [])
    (hmarked : s.marked asLeaf = false) (hexists : sfExists = false → s.tables.child asLeaf = .null)
    (hvalid : s.tables.child asLeaf ≠ .deleted) (failed : Nat → Bool) (subgoal : Nat)
    (delayreg : List (Nat × Option Nat)) :
    ∃ s' own' E' D', s.doDelayStuff failed asLeaf subgoal sfExists delayreg = some s' ∧
      Good s' own' E' D' ∧ (s'.leaves = s.leaves ∧ s'.marked = s.marked ∧ s'.ansRoot = s.ansRoot) ∧
      if (!sfExists || (s.tables.child asLeaf).isConditional) ∧
          s.tables.remaining failed delayreg ≠ [] then
        s'.places = [.derivedUnconditional asLeaf subgoal] ∧
          s'.tables.child = update s.tables.child asLeaf .asi ∧
          s'.tables.contents E' D' asLeaf =
            s.tables.remaining failed delayreg :: s.tables.contents E D asLeaf
      else s'.tables.child = s.tables.child ∧
        s'.tables.contents E' D' asLeaf = s.tables.contents E D asLeaf ∧
        s'.places = (if sfExists && (s.tables.child asLeaf).isConditional then
          [.simplifyPosUnconditional asLeaf] else []) ++
            [.derivedUnconditional asLeaf subgoal] := by
  obtain ⟨t, own', E', D', heq, hOK, hadds⟩ :=
    h.base.ok.doDelayStuff failed delayreg hexists hvalid
  obtain ⟨asiSubgoal, hstuff⟩ := Simplifying.doDelayStuff_eq heq subgoal
  set cond := (!sfExists || (s.tables.child asLeaf).isConditional) with hcond
  set left := s.tables.remaining failed delayreg
  -- the other answers are as before
  have hchild : ∀ leaf, leaf ≠ asLeaf → t.child leaf = s.tables.child leaf := by
    intro leaf hne
    split at hadds
    next =>
      rw [hadds.1]
      exact update_of_ne hne ..
    next => rw [hadds.1]
  have hidle : Good { s with tables := t, asiSubgoal := asiSubgoal, depth := 0 } own' E' D' := by
    refine .of_idle hOK (fun leaf hleaf => ?_) hs rfl
    have hne : leaf ≠ asLeaf := by
      rintro rfl
      cases hmarked.symm.trans hleaf
    rw [hchild leaf hne]
    exact h.base.marked leaf hleaf
  refine ⟨_, own', E', D', hstuff, hidle.call hs _ ?_ ?_, ⟨rfl, rfl, rfl⟩, ?_⟩
  · intro p hp
    split at hp
    next hcalls =>
      obtain rfl : Place.simplifyPosUnconditional asLeaf = p := some.inj hp
      simp only [Bool.and_eq_true] at hcalls
      obtain ⟨⟨hsf, hconditional⟩, hnone⟩ := hcalls
      split at hadds
      next hboth => exact absurd (isEmpty_iff.mp hnone) hboth.2
      next =>
        show t.child asLeaf = .asi
        rw [hadds.1] at hconditional ⊢
        cases hc : s.tables.child asLeaf with
        | asi => rfl
        | deleted => exact absurd hc hvalid
        | null | unconditional => rw [hc] at hconditional; cases hconditional
    next =>
      obtain rfl : Place.derivedUnconditional asLeaf subgoal = p := some.inj hp
      trivial
  · intro p hp
    split at hp
    next =>
      rw [mem_singleton.mp hp]
      trivial
    next => exact absurd hp not_mem_nil
  · split at hadds
    next hboth =>
      rw [if_pos hboth]
      have hnone : left.isEmpty = false := isEmpty_eq_false_iff.mpr hboth.2
      refine ⟨?_, hadds⟩
      show _ ++ s.places = _
      rw [hs, hnone, Bool.and_false]
      rfl
    next hboth =>
      rw [if_neg hboth]
      refine ⟨hadds.1, hadds.2, ?_⟩
      show _ ++ s.places = _
      rw [hs, append_nil, hadds.1]
      by_cases hcalls : sfExists && (s.tables.child asLeaf).isConditional
      · have hcond' : cond = true := by
          rw [hcond, (Bool.and_eq_true_iff.mp hcalls).2, Bool.or_true]
        have hnone : left = [] := by
          by_contra hne
          exact hboth ⟨hcond', hne⟩
        rw [hcalls, hnone]
        rfl
      · rw [Bool.not_eq_true] at hcalls
        rw [hcalls]
        rfl

/-- `table_answer_search` for an answer that is new, is there already, or is derived again without
delay information. -/
theorem Simplifying.tableAnswerSearch_eq (hmarked : s.marked asLeaf → s.tables.child asLeaf = .null)
    (failed : Nat → Bool) (subgoal : Nat) (delayreg : List (Nat × Option Nat)) :
    ∃ leaves marked sfExists, marked asLeaf = false ∧ (∀ leaf, marked leaf → s.marked leaf) ∧
      asLeaf ∈ leaves (s.ansRoot subgoal) ∧
      (sfExists = false → asLeaf ∈ s.leaves (s.ansRoot subgoal) → s.tables.child asLeaf = .null) ∧
      (sfExists = true ↔ asLeaf ∈ s.leaves (s.ansRoot subgoal) ∧ s.marked asLeaf = false) ∧
      s.tableAnswerSearch failed asLeaf subgoal delayreg =
        Simplifying.doDelayStuff { s with leaves := leaves, marked := marked } failed asLeaf subgoal
          sfExists delayreg := by
  have hupdate : ∀ leaf, update s.marked asLeaf false leaf → s.marked leaf := by
    intro leaf hleaf
    rcases eq_or_ne leaf asLeaf with rfl | hne
    · rw [update_self] at hleaf
      cases hleaf
    · rwa [update_of_ne hne] at hleaf
  by_cases hmem : asLeaf ∈ s.leaves (s.ansRoot subgoal)
  case neg =>
    refine ⟨update s.leaves (s.ansRoot subgoal) (asLeaf :: s.leaves (s.ansRoot subgoal)),
      update s.marked asLeaf false, false, update_self .., hupdate, ?_,
      fun _ h => absurd h hmem, by simp [hmem], ?_⟩
    · rw [update_self]
      exact mem_cons_self
    · simp only [tableAnswerSearch, hmem, not_false_eq_true, if_true]
  case pos =>
    cases hm : s.marked asLeaf with
    | false =>
      refine ⟨s.leaves, s.marked, true, hm, fun _ h => h, hmem, nofun,
        by simp [hmem], ?_⟩
      simp [tableAnswerSearch, hmem, hm]
    | true =>
      have hnull := hmarked hm
      refine ⟨s.leaves, update s.marked asLeaf false, false, update_self ..,
        hupdate, hmem, fun _ _ => hnull, by simp, ?_⟩
      simp [tableAnswerSearch, hmem, hm, hnull, Child.isConditional]

/-- An answer is derived, or not because its delays are not supported. -/
theorem Good.newAnswer (h : Good s own E D) (hs : s.places = [])
    (hnew : asLeaf ∉ s.leaves (s.ansRoot subgoal) → s.tables.child asLeaf = .null)
    (hvalid : s.tables.child asLeaf ≠ .deleted) (failed succeeded : Nat → Bool)
    (delayreg : List (Nat × Option Nat)) :
    ∃ s' own' E' D', s.newAnswer failed succeeded asLeaf subgoal delayreg = some s' ∧
      Good s' own' E' D' := by
  unfold Simplifying.newAnswer
  split
  next => exact ⟨s, own, E, D, rfl, h⟩
  next =>
    obtain ⟨leaves, marked, sfExists, hmarked, hsub, -, hexists, -, heq⟩ :=
      Simplifying.tableAnswerSearch_eq (h.base.marked asLeaf) failed subgoal delayreg
    have hgood : Good { s with leaves := leaves, marked := marked } own E D :=
      .of_idle h.base.ok (fun leaf hleaf => h.base.marked leaf (hsub leaf hleaf)) hs rfl
    have hnull : sfExists = false → s.tables.child asLeaf = .null := by
      intro hsf
      by_cases hmem : asLeaf ∈ s.leaves (s.ansRoot subgoal)
      · exact hexists hsf hmem
      · exact hnew hmem
    obtain ⟨s', own', E', D', hstuff, hgood', -⟩ :=
      hgood.doDelayStuff hs hmarked hnull hvalid failed subgoal delayreg
    exact ⟨s', own', E', D', heq.trans hstuff, hgood'⟩

/-- The truth value of an answer is forced to be false. -/
theorem Good.forceAnswerFalse (h : Good s own E D) (hs : s.places = [])
    (hchild : s.tables.child asLeaf = .asi) :
    ∃ s' own' E' D', s.run k (.forceAnswerFalse asLeaf) = some s' ∧ Good s' own' E' D' := by
  obtain ⟨t, own', E', D', heq, hOK, hsame, -⟩ :=
    h.base.ok.releaseAllDls hchild (show Child.deleted ≠ .asi from Child.noConfusion)
      Child.noConfusion
  have hgood : Good { s with
      tables := t.setChild asLeaf .deleted
      leaves := update s.leaves (s.ansRoot (s.asiSubgoal asLeaf))
        ((s.leaves (s.ansRoot (s.asiSubgoal asLeaf))).erase asLeaf) } own' E' D' := by
    refine .of_idle hOK (fun leaf hleaf => ?_) hs rfl
    have hnull := h.base.marked leaf hleaf
    have hne : leaf ≠ asLeaf := by
      rintro rfl
      exact Child.noConfusion (hnull.symm.trans hchild)
    show update t.child asLeaf .deleted leaf = .null
    rw [update_of_ne hne, hsame]
    exact hnull
  refine ⟨_, own', E', D', ?_, hgood.call hs
    [.simplifyPosUnsupported asLeaf, .markSubgoalFailed (s.asiSubgoal asLeaf)] ?_ ?_⟩
  · rw [Simplifying.run, hchild, if_pos (show Child.asi.isConditional = true from rfl), heq]
    rfl
  · rintro p ⟨⟩
    trivial
  · intro p hp
    rw [mem_singleton.mp hp]
    trivial

/-- The runs in which no table with delay information is recomputed. -/
abbrev unconditionalRecomputations (k : Answers) : System Simplifying SimplifyingEvent :=
  (simplifications k).restrict Simplifying.RecomputesUnconditional

theorem isConditional_asi {c : Child} (h : c.isConditional) (hvalid : c ≠ .deleted) : c = .asi := by
  cases c with
  | asi => rfl
  | deleted => exact absurd rfl hvalid
  | null | unconditional => cases h

/-- Each event keeps the invariant. -/
theorem Good.event (h : Good s own E D) {e : SimplifyingEvent} (hallowed : s.Allowed e)
    (hok : s.RecomputesUnconditional e) (hrun : s.run k e = some s') :
    ∃ own' E' D', Good s' own' E' D' := by
  cases e with
  | newAnswer failed succeeded asLeaf subgoal delayreg =>
    obtain ⟨hs, hnew, hvalid⟩ := hallowed
    obtain ⟨s1, own', E', D', heq, hgood⟩ := h.newAnswer hs hnew hvalid failed succeeded delayreg
    obtain rfl : s1 = s' := some.inj (heq.symm.trans hrun)
    exact ⟨own', E', D', hgood⟩
  | complete subgoal =>
    obtain rfl := some.inj hrun
    have hgood : Good { s with completed := update s.completed subgoal true } own E D :=
      .of_idle h.base.ok h.base.marked hallowed rfl
    refine ⟨own, E, D, hgood.call hallowed _ ?_ ?_⟩
    · intro p hp
      split at hp
      next =>
        obtain rfl : Place.simplifyNegFails subgoal = p := some.inj hp
        trivial
      next => exact absurd hp (not_mem_none p)
    · intro p hp
      split at hp
      next => exact absurd hp not_mem_nil
      next => exact absurd hp not_mem_nil
  | simplifyNegFails consumer =>
    obtain rfl := some.inj hrun
    refine ⟨own, E, D, h.call hallowed _ ?_ fun p hp => absurd hp not_mem_nil⟩
    rintro p ⟨⟩
    trivial
  | forceAnswerTrue asLeaf =>
    obtain ⟨hs, hvalid⟩ := hallowed
    rw [Simplifying.run] at hrun
    split at hrun
    next hconditional =>
      obtain rfl := some.inj hrun
      refine ⟨own, E, D, h.call hs _ ?_ ?_⟩
      · rintro p ⟨⟩
        exact isConditional_asi hconditional hvalid
      · intro p hp
        rw [mem_singleton.mp hp]
        trivial
    next =>
      obtain rfl := some.inj hrun
      exact ⟨own, E, D, h⟩
  | forceAnswerFalse asLeaf =>
    obtain ⟨hs, hvalid⟩ := hallowed
    by_cases hconditional : (s.tables.child asLeaf).isConditional
    · obtain ⟨s1, own', E', D', heq, hgood⟩ :=
        h.forceAnswerFalse (k := k) hs (isConditional_asi hconditional hvalid)
      obtain rfl : s1 = s' := some.inj (heq.symm.trans hrun)
      exact ⟨own', E', D', hgood⟩
    · rw [Simplifying.run, if_neg hconditional] at hrun
      obtain rfl := some.inj hrun
      exact ⟨own, E, D, h⟩
  | recompute old new =>
    obtain rfl := some.inj hrun
    refine ⟨own, E, D, .of_idle h.base.ok (fun leaf hleaf => ?_) hallowed.1 rfl⟩
    rcases Bool.or_eq_true_iff.mp hleaf with hleaf | hleaf
    · exact h.base.marked leaf hleaf
    · exact hok leaf (contains_iff_mem.mp hleaf)
  | step =>
    rcases h.progress (k := k) hallowed with ⟨s1, own', E', D', hstep, hgood, -⟩ | herror
    · rw [Simplifying.run, hstep] at hrun
      obtain rfl := some.inj hrun
      exact ⟨own', E', D', hgood⟩
    · rw [Simplifying.run, herror] at hrun
      cases hrun

/-- The list that a loop that deletes delay lists reads again and again. -/
def Place.dlOwner : Place → Option Owner
  | .negSucceedsLoop subgoal => some (.subgoal subgoal)
  | .posUnsupportedLoop asLeaf => some (.answer asLeaf)
  | _ => none

/-- Such a loop takes the first entry off its list. -/
theorem Good.removes {place : Place} {rest : List Place} {o : Owner} {p : Nat} (h : Good s own E D)
    (hs : s.places = place :: rest) (ho : place.dlOwner = some o)
    (hhead : s.tables.pndes.head o = some p) :
    ∃ s', s.step k = .ok s' ∧ ¬ OnList s'.tables.pndes.pool.next (s'.tables.pndes.head o) p := by
  have hbase := h.base_rest hs
  have hp : p ∈ own o := by
    rw [hbase.ok.uses.head] at hhead
    exact mem_of_mem_head? hhead
  obtain ⟨hde, -, -⟩ := hbase.ok.uses.element o p hp
  obtain ⟨leaf, hdl⟩ := hbase.ok.inList _ _ hde
  obtain ⟨left, t, own', E', D', heq, hOK, -, hmem, -, hpdl, hpde⟩ := hbase.ok.simplifyDl hdl
  obtain ⟨s1, hstep, rfl⟩ : ∃ s1, { s with places := rest }.removeDl p place = .ok s1 ∧
      s1.tables = t :=
    ⟨_, Simplifying.removeDl_eq (s := { s with places := rest }) (hbase.ok.asl leaf _ hdl)
      (h.valid hs hdl) heq place, rfl⟩
  refine ⟨s1, ?_, ?_⟩
  case refine_1 =>
    have hexec : { s with places := rest }.exec k place = .ok s1 := by
      cases place with
      | negSucceedsLoop subgoal =>
        obtain rfl : Owner.subgoal subgoal = o := some.inj ho
        rw [Simplifying.exec, hhead]
        exact hstep
      | posUnsupportedLoop asLeaf =>
        obtain rfl : Owner.answer asLeaf = o := some.inj ho
        rw [Simplifying.exec, hhead]
        exact hstep
      | _ => cases ho
    rw [Simplifying.step, hs]
    exact hexec
  case refine_2 =>
    rintro ⟨l, hl, hpl⟩
    have hown : l = own' o := hl.unique (hOK.linked_pndes o)
    obtain ⟨hde', -, -⟩ := hOK.uses.element o p (hown ▸ hpl)
    rw [hpdl, hpde] at hde'
    exact ((hmem _ _).mp hde').2 rfl

theorem simplifications_good (k : Answers) :
    (unconditionalRecomputations k).Invariant fun s => ∃ own E D, Good s own E D where
  init s hs := ⟨_, _, _, .of_idle hs.1.ok (fun leaf hleaf =>
    Bool.noConfusion ((hs.2.1 leaf).symm.trans hleaf)) hs.2.2 rfl⟩
  step s e s' := by
    rintro ⟨own, E, D, h⟩ ⟨hok, hallowed, hrun⟩
    exact h.event hallowed hok hrun

/-- In every state the open simplifications return, unless too many of them are nested, and each
pass of a loop that deletes delay lists takes the first entry off the list that it reads again. -/
theorem simplifications_end (k : Answers) {s : Simplifying}
    (hs : (unconditionalRecomputations k).Reachable s) :
    (simplification k).Ends s (fun _ => True) (· = .tooManyNested) ∧
      ∀ place rest o p, s.places = place :: rest → place.dlOwner = some o →
        s.tables.pndes.head o = some p → ∃ s', s.step k = .ok s' ∧
          ¬ OnList s'.tables.pndes.pool.next (s'.tables.pndes.head o) p := by
  obtain ⟨own, E, D, h⟩ := (simplifications_good k).holds hs
  constructor
  case left =>
    obtain ⟨n, hn⟩ := h.ends (k := k)
    refine ⟨n, hn.imp ?_ id⟩
    rintro ⟨s', heq, hhalted, -⟩
    exact ⟨s', heq, hhalted, trivial⟩
  case right => exact fun place rest o p hplaces ho hhead => h.removes hplaces ho hhead

/-- A run of the open calls is a run. -/
theorem reachable_of_reaches {M : System Simplifying SimplifyingEvent}
    (hM : ∀ s s', (simplifications k).step s .step s' → M.step s .step s') (hs : M.Reachable s)
    (h : (simplification k).Reaches s s') : M.Reachable s' := by
  induction h with
  | refl s => exact hs
  | @step s s1 s' hhalted hstep _ ih =>
    refine ih (hs.step (e := SimplifyingEvent.step) (hM s s1
      ⟨isEmpty_eq_false_iff.mp hhalted, ?_⟩))
    have heq : s.step k = .ok s1 := hstep
    rw [Simplifying.run, heq]
    rfl

/-- Without subsumptive tables and early completion. -/
def variantAnswers : Answers := ⟨fun _ => none, fun _ => false⟩

/-- No subgoal has failed or succeeded. -/
def noVerdict (_ : Nat) : Bool := false

/-- The answer 1 depends on the failure of the subgoal 0, which has got an unconditional answer. -/
theorem negation_ends : ∃ s place rest o p,
    (unconditionalRecomputations variantAnswers).Reachable s ∧ s.places = place :: rest ∧
    place.dlOwner = some o ∧ s.tables.pndes.head o = some p ∧
    (simplification variantAnswers).Ends s (fun _ => True) (· = .tooManyNested) ∧
    ∃ s', s.step variantAnswers = .ok s' ∧
      ¬ OnList s'.tables.pndes.pool.next (s'.tables.pndes.head o) p := by
  have h0 : (unconditionalRecomputations variantAnswers).Reachable .start :=
    .init ⟨⟨rfl, rfl, rfl, fun _ => rfl, fun _ => rfl⟩, fun _ => rfl, rfl⟩
  have h₁ := h0.step (e := SimplifyingEvent.newAnswer noVerdict noVerdict 1 1 [(0, none)])
    ⟨trivial, ⟨rfl, fun _ => rfl, Child.noConfusion⟩, rfl⟩
  have h₂ := h₁.step (e := SimplifyingEvent.step) ⟨trivial, cons_ne_nil _ _, rfl⟩
  have h3 := h₂.step (e := SimplifyingEvent.newAnswer noVerdict noVerdict 5 0 [])
    ⟨trivial, ⟨rfl, fun _ => rfl, Child.noConfusion⟩, rfl⟩
  have h4 := h3.step (e := SimplifyingEvent.step) ⟨trivial, cons_ne_nil _ _, rfl⟩
  have h5 := h4.step (e := SimplifyingEvent.step) ⟨trivial, cons_ne_nil _ _, rfl⟩
  obtain ⟨hends, hremoves⟩ := simplifications_end variantAnswers h5
  exact ⟨_, .negSucceedsLoop 0, [], .subgoal 0, 0, h5, rfl, rfl, rfl, hends,
    hremoves _ _ _ _ rfl rfl rfl⟩

/-- The answer 2 depends on the subgoal 3, the answer 1 on the answer 2, and the answer 0 on the
failure of the subgoal 1, that of the answer 1. All are recomputed, and the first is now true. -/
theorem recomputed_reachable : ∃ s, (simplifications variantAnswers).Reachable s ∧
    s.places ≠ [] ∧ s.step variantAnswers = .ok s := by
  have h0 : (simplifications variantAnswers).Reachable .start :=
    .init ⟨⟨rfl, rfl, rfl, fun _ => rfl, fun _ => rfl⟩, fun _ => rfl, rfl⟩
  have h1 := h0.step (e := SimplifyingEvent.newAnswer noVerdict noVerdict 2 2 [(3, none)])
    ⟨⟨rfl, fun _ => rfl, Child.noConfusion⟩, rfl⟩
  have h2 := h1.step (e := SimplifyingEvent.step) ⟨cons_ne_nil _ _, rfl⟩
  have h3 := h2.step (e := SimplifyingEvent.newAnswer noVerdict noVerdict 1 1 [(2, some 2)])
    ⟨⟨rfl, fun _ => rfl, Child.noConfusion⟩, rfl⟩
  have h4 := h3.step (e := SimplifyingEvent.step) ⟨cons_ne_nil _ _, rfl⟩
  have h5 := h4.step (e := SimplifyingEvent.newAnswer noVerdict noVerdict 0 0 [(1, none)])
    ⟨⟨rfl, fun _ => rfl, Child.noConfusion⟩, rfl⟩
  have h6 := h5.step (e := SimplifyingEvent.step) ⟨cons_ne_nil _ _, rfl⟩
  have h7 := h6.step (e := SimplifyingEvent.complete 0) ⟨rfl, rfl⟩
  have h8 := h7.step (e := SimplifyingEvent.complete 1) ⟨rfl, rfl⟩
  have h9 := h8.step (e := SimplifyingEvent.complete 2) ⟨rfl, rfl⟩
  have h10 := h9.step (e := SimplifyingEvent.recompute 0 10) ⟨⟨rfl, rfl⟩, rfl⟩
  have h11 := h10.step (e := SimplifyingEvent.recompute 1 11) ⟨⟨rfl, rfl⟩, rfl⟩
  have h12 := h11.step (e := SimplifyingEvent.recompute 2 12) ⟨⟨rfl, rfl⟩, rfl⟩
  have h13 := h12.step (e := SimplifyingEvent.newAnswer noVerdict noVerdict 2 12 [])
    ⟨⟨rfl, by decide, by decide⟩, rfl⟩
  exact ⟨_, reachable_of_reaches (fun _ _ h => h) h13 (Machine.reaches_of_run (n := 12) rfl),
    cons_ne_nil _ _, rfl⟩

/-- A loop that meets a delay list of a marked answer does not end. -/
theorem recomputation_loops : ¬ ∀ (k : Answers) (s : Simplifying), (simplifications k).Reachable s →
    (simplification k).Ends s (fun _ => True) (· = .tooManyNested) := by
  intro h
  obtain ⟨s, hs, hplaces, hstep⟩ := recomputed_reachable
  exact Machine.not_ends_of_step_self (isEmpty_eq_false_iff.mpr hplaces) hstep
    (h variantAnswers s hs)

end XSBEngine.Delay
