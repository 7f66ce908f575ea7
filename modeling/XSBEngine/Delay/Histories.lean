import XSBEngine.Delay.Depth
import XSBEngine.Delay.Derivations

/-!
# Histories of an answer

An answer is derived again and again, with delays that may be true or false by then. In the end it
is unconditional, or it has one delay list for each of its derivations.
-/

namespace XSBEngine.Delay

open Function Library List

variable {own own' : Owner → List Nat} {E E' D D' : Nat → List Nat} {k : Answers}
  {s s' : Simplifying} {failed succeeded : Nat → Bool} {asLeaf subgoal leaf n : Nat}
  {delayreg : List (Nat × Option Nat)} {place : Place} {rest calls : List Place}

/-! ### An answer that becomes unconditional -/

/-- An answer of a trie that is unconditional, or about to become so, while simplifications run. -/
structure Settling (asLeaf root : Nat) (ansRoot : Nat → Nat) (s : Simplifying) : Prop where
  good : ∃ own E D, Good s own E D
  status : (s.tables.child asLeaf).isConditional →
    s.places.head? = some (.simplifyPosUnconditional asLeaf)
  listed : asLeaf ∈ s.leaves root
  marked : s.marked asLeaf = false
  ansRoot : s.ansRoot = ansRoot
  places : ∀ subgoal, .markSubgoalFailed subgoal ∉ s.places

/-- The first step of `simplify_pos_unconditional` makes the answer unconditional. -/
theorem Simplifying.exec_posUnconditional
    (h : s.exec k (.simplifyPosUnconditional asLeaf) = .ok s') :
    (s'.tables.child asLeaf).isConditional = false := by
  obtain ⟨s1, henter, h⟩ := bind_ok h
  obtain ⟨tables, -, h⟩ := bind_ok h
  obtain rfl := Except.ok.inj h
  show (update tables.child asLeaf .unconditional asLeaf).isConditional = false
  rw [update_self]
  rfl

theorem Settling.step {root : Nat} {ansRoot : Nat → Nat} (h : Settling asLeaf root ansRoot s)
    (hs : s.places ≠ []) (hstep : s.step k = .ok s') : Settling asLeaf root ansRoot s' := by
  obtain ⟨own, E, D, hgood⟩ := h.good
  obtain ⟨place, rest, hplaces⟩ := exists_cons_of_ne_nil hs
  obtain ⟨hgood', hkeep⟩ : (∃ own' E' D', Good s' own' E' D') ∧ s.tables.Keeps s'.tables := by
    rcases hgood.progress (k := k) hs with ⟨s1, own', E', D', heq, h1, hkeep, -⟩ | herror
    · obtain rfl : s1 = s' := Except.ok.inj (heq.symm.trans hstep)
      exact ⟨⟨own', E', D', h1⟩, hkeep⟩
    · rw [herror] at hstep
      cases hstep
  have hexec : { s with places := rest }.exec k place = .ok s' := by
    rw [Simplifying.step, hplaces] at hstep
    exact hstep
  have hleaves := (Simplifying.exec_effect hexec).leaves
  obtain ⟨calls, hcalls, hnone⟩ := hleaves.calls
  have hready := hgood.ready_place hplaces
  refine ⟨hgood', fun hcond => ?_, ?_, ?_, ?_, fun subgoal hmem => ?_⟩
  · exfalso
    by_cases hbefore : (s.tables.child asLeaf).isConditional
    · have hhead := h.status hbefore
      rw [hplaces] at hhead
      obtain rfl : place = .simplifyPosUnconditional asLeaf := Option.some.inj hhead
      rw [Simplifying.exec_posUnconditional hexec] at hcond
      cases hcond
    · rw [Bool.not_eq_true] at hbefore
      rw [hkeep asLeaf hbefore] at hcond
      cases hcond
  · refine hleaves.leaves root asLeaf (fun hremoves => ?_) h.listed
    cases place with
    | handleUnsupportedAnswerSubst leaf =>
      obtain rfl : leaf = asLeaf := hremoves
      obtain ⟨hasi, -⟩ : s.tables.child leaf = .asi ∧ D leaf = [] := hready
      have hhead := h.status (by rw [hasi]; rfl)
      rw [hplaces] at hhead
      exact Place.noConfusion (Option.some.inj hhead)
    | markSubgoalFailed subgoal =>
      apply h.places subgoal
      rw [hplaces]
      exact mem_cons_self
    | _ => exact hremoves
  · rw [hleaves.marked]
    exact h.marked
  · rw [hleaves.ansRoot]
    exact h.ansRoot
  · rw [hcalls] at hmem
    rcases mem_append.mp hmem with hmem | hmem
    · exact hnone subgoal hmem
    · apply h.places subgoal
      rw [hplaces]
      exact mem_cons_of_mem place hmem

theorem Settling.reaches {root : Nat} {ansRoot : Nat → Nat} (h : Settling asLeaf root ansRoot s)
    (hreaches : (simplification k).Reaches s s') : Settling asLeaf root ansRoot s' :=
  hreaches.invariant h fun _ _ hI hhalted hstep =>
    hI.step (isEmpty_eq_false_iff.mp hhalted) hstep

/-! ### Derivations of an answer -/

/-- The delay lists of an answer as they are linked, with the elements as they were in the delay
register. -/
def DelayTables.Lists (t : DelayTables) (leaf : Nat) (lists : List (List (Nat × Option Nat))) :
    Prop :=
  ∃ (dls : List Nat) (des : Nat → List Nat), Linked t.dls.pool.next (t.dlList leaf) dls ∧
    (∀ dl ∈ dls, Linked t.des.pool.next (t.dls.deList dl) (des dl)) ∧
    lists = dls.map fun dl => (des dl).map t.des.elem

theorem DelayTables.OK.lists_iff {t : DelayTables} (h : t.OK own E D) (hchild : t.child leaf = .asi)
    (lists : List (List (Nat × Option Nat))) :
    t.Lists leaf lists ↔ lists = t.contents E D leaf := by
  have hlinked : ∀ dl ∈ D leaf, Linked t.des.pool.next (t.dls.deList dl) (E dl) := by
    intro dl hdl
    rw [h.deList leaf dl hdl]
    exact h.des.linked dl
  constructor
  · rintro ⟨dls, des, hdls, hdes, rfl⟩
    obtain rfl : dls = D leaf := hdls.unique (h.linked_dls hchild)
    exact map_congr_left fun dl hdl => by rw [(hdes dl hdl).unique (hlinked dl hdl)]
  · rintro rfl
    exact ⟨D leaf, E, h.linked_dls hchild, hlinked, rfl⟩

/-- Nothing happens to an answer, whatever happens to the others. -/
structure Undisturbed (asLeaf subgoal : Nat) (s s' : Simplifying) : Prop where
  child : s'.tables.child asLeaf = s.tables.child asLeaf
  lists : s.tables.child asLeaf = .asi →
    ∀ lists, s'.tables.Lists asLeaf lists ↔ s.tables.Lists asLeaf lists
  listed : asLeaf ∈ s'.leaves (s'.ansRoot subgoal) ↔ asLeaf ∈ s.leaves (s.ansRoot subgoal)
  marked : s'.marked asLeaf = s.marked asLeaf

/-- The derivations of an answer in a system, the last one first, with whether a delay of the
derivation was false and with the delays that were left. The answer is new, or one of a table that
is recomputed. In between other things happen. -/
inductive History (M : System Simplifying SimplifyingEvent) (k : Answers) (asLeaf subgoal : Nat) :
    Simplifying → List (Bool × List (Nat × Option Nat)) → Prop where
  | new {s : Simplifying} : M.Reachable s → s.places = [] →
      (asLeaf ∉ s.leaves (s.ansRoot subgoal) → s.tables.child asLeaf = .null) →
      (asLeaf ∈ s.leaves (s.ansRoot subgoal) → s.marked asLeaf) →
      s.tables.child asLeaf ≠ .deleted → History M k asLeaf subgoal s []
  | derived {s s₁ s' : Simplifying} {ds : List (Bool × List (Nat × Option Nat))}
      (failed succeeded : Nat → Bool) (delayreg : List (Nat × Option Nat)) :
      History M k asLeaf subgoal s ds → s.completed subgoal = false →
      s.newAnswer failed succeeded asLeaf subgoal delayreg = some s₁ →
      (simplification k).Reaches s₁ s' → s'.places = [] →
      History M k asLeaf subgoal s'
        ((s.answerIsUnsupported succeeded delayreg, s.tables.remaining failed delayreg) :: ds)
  | elsewhere {s s' : Simplifying} {ds : List (Bool × List (Nat × Option Nat))} :
      History M k asLeaf subgoal s ds → M.Reachable s' → s'.places = [] →
      Undisturbed asLeaf subgoal s s' → History M k asLeaf subgoal s' ds

/-- The delays that were left of the derivations without a false delay. -/
def supported (ds : List (Bool × List (Nat × Option Nat))) : List (List (Nat × Option Nat)) :=
  (ds.filter fun d => !d.1).map Prod.snd

/-- What the tables say about an answer. -/
structure Status (asLeaf subgoal : Nat) (s : Simplifying)
    (lists : List (List (Nat × Option Nat))) : Prop where
  listed : asLeaf ∈ s.leaves (s.ansRoot subgoal) ∧ s.marked asLeaf = false ↔ lists ≠ []
  null : lists = [] → s.tables.child asLeaf = .null
  unconditional : [] ∈ lists → (s.tables.child asLeaf).isConditional = false
  conditional : lists ≠ [] → [] ∉ lists → s.tables.child asLeaf = .asi ∧ s.tables.Lists asLeaf lists

variable {lists : List (List (Nat × Option Nat))}

theorem Status.valid (h : Status asLeaf subgoal s lists) :
    s.tables.child asLeaf ≠ .deleted := by
  intro hdeleted
  rcases eq_or_ne lists [] with hnil | hne
  · exact Child.noConfusion ((h.null hnil).symm.trans hdeleted)
  · by_cases hmem : [] ∈ lists
    · have hcond := h.unconditional hmem
      rw [hdeleted] at hcond
      cases hcond
    · exact Child.noConfusion ((h.conditional hne hmem).1.symm.trans hdeleted)

theorem Status.elsewhere
    (h : Status asLeaf subgoal s lists) (hs : Undisturbed asLeaf subgoal s s') :
    Status asLeaf subgoal s' lists where
  listed := by rw [hs.listed, hs.marked, h.listed]
  null hnil := hs.child.trans (h.null hnil)
  unconditional hmem := by
    rw [hs.child]
    exact h.unconditional hmem
  conditional hne hmem := by
    obtain ⟨hasi, hlists⟩ := h.conditional hne hmem
    exact ⟨hs.child.trans hasi, (hs.lists hasi lists).mpr hlists⟩

theorem reaches_idle (h : (simplification k).Reaches s s') (hs : s.places = []) : s' = s := by
  cases h with
  | refl s => rfl
  | step hhalted =>
    have hne : s.places ≠ [] := isEmpty_eq_false_iff.mp hhalted
    exact absurd hs hne

/-- An answer that got a delay list calls nothing. -/
theorem reaches_conditional (h : (simplification k).Reaches s s')
    (hs : s.places = [.derivedUnconditional asLeaf subgoal])
    (hcond : (s.tables.child asLeaf).isConditional) (hs' : s'.places = []) :
    s' = { s with places := [] } := by
  cases h with
  | refl s => exact absurd (hs.symm.trans hs') (cons_ne_nil _ _)
  | @step s s1 s' hhalted hstep hreaches =>
    have heq : s.step k = .ok s1 := hstep
    rw [Simplifying.step, hs] at heq
    have hexec : Simplifying.exec k { s with places := [] } (.derivedUnconditional asLeaf subgoal) =
        .ok { s with places := [] } := by
      rw [Simplifying.exec, if_neg]
      rintro ⟨hnot, -⟩
      cases hcond.symm.trans hnot
    obtain rfl : { s with places := [] } = s1 := Except.ok.inj (hexec.symm.trans heq)
    exact reaches_idle hreaches rfl

/-- One more derivation of an answer. -/
theorem Status.derived
    (h : Status asLeaf subgoal s lists) (hgood : Good s own E D) (hs : s.places = [])
    (hsupported : s.answerIsUnsupported succeeded delayreg = false)
    (hcompleted : s.completed subgoal = false) (failed : Nat → Bool) :
    ∃ s1, s.newAnswer failed succeeded asLeaf subgoal delayreg = some s1 ∧
      (∃ own' E' D', Good s1 own' E' D') ∧
      ∀ s', (simplification k).Reaches s1 s' → s'.places = [] →
        Status asLeaf subgoal s' (s.tables.remaining failed delayreg :: lists) := by
  set left := s.tables.remaining failed delayreg with hleft
  obtain ⟨leaves, marked, sfExists, hmarked, hsub, hlisted, hexists, hsf, heq⟩ :=
    Simplifying.tableAnswerSearch_eq (hgood.base.marked asLeaf) failed subgoal delayreg
  have hgood0 : Good { s with leaves := leaves, marked := marked } own E D :=
    .of_idle hgood.base.ok (fun leaf hleaf => hgood.base.marked leaf (hsub leaf hleaf)) hs rfl
  have hsf' : sfExists = true ↔ lists ≠ [] := by
    rw [hsf, h.listed]
  have hnull : sfExists = false → s.tables.child asLeaf = .null := by
    intro hfalse
    apply h.null
    by_contra hne
    cases hfalse.symm.trans (hsf'.mpr hne)
  obtain ⟨s1, own', E', D', hstuff, hgood1, ⟨hleaves1, hmarked1, hroot1⟩, hadds⟩ :=
    hgood0.doDelayStuff hs hmarked hnull h.valid failed subgoal delayreg
  have hnew : s.newAnswer failed succeeded asLeaf subgoal delayreg = some s1 := by
    rw [Simplifying.newAnswer, hcompleted, hsupported, heq, hstuff]
    rfl
  have hmem1 : asLeaf ∈ s1.leaves (s1.ansRoot subgoal) := by
    rw [hleaves1, hroot1]
    exact hlisted
  refine ⟨s1, hnew, ⟨own', E', D', hgood1⟩, fun s' hreaches hs' => ?_⟩
  split at hadds
  case isTrue hboth =>
    obtain ⟨hplaces, hchild, hcontents⟩ := hadds
    obtain ⟨hcond, hne⟩ := hboth
    have hasi : s1.tables.child asLeaf = .asi := by
      rw [hchild]
      exact update_self ..
    obtain rfl := reaches_conditional hreaches hplaces (by rw [hasi]; rfl) hs'
    have hlists : s.tables.contents E D asLeaf = lists ∧ [] ∉ lists := by
      rcases eq_or_ne lists [] with rfl | hlists
      · have hD : D asLeaf = [] := by
          rw [eq_nil_iff_forall_not_mem]
          intro dl hdl
          have hasi := hgood.base.ok.conditional asLeaf dl hdl
          exact Child.noConfusion ((h.null rfl).symm.trans hasi)
        rw [DelayTables.contents, hD]
        exact ⟨rfl, not_mem_nil⟩
      · have hnot : [] ∉ lists := by
          intro hmem
          rw [h.unconditional hmem, hsf'.mpr hlists] at hcond
          cases hcond
        obtain ⟨hasi', hl⟩ := h.conditional hlists hnot
        exact ⟨((hgood.base.ok.lists_iff hasi' lists).mp hl).symm, hnot⟩
    refine ⟨iff_of_true ⟨hmem1, ?_⟩ (cons_ne_nil _ _),
      fun hnil => absurd hnil (cons_ne_nil _ _), fun hmem => ?_, fun _ _ => ⟨hasi, ?_⟩⟩
    · show s1.marked asLeaf = false
      rw [hmarked1]
      exact hmarked
    · rcases mem_cons.mp hmem with hnil | hmem
      · exact absurd hnil.symm hne
      · exact absurd hmem hlists.2
    · refine (hgood1.base.ok.lists_iff hasi _).mpr ?_
      rw [hcontents]
      exact congrArg _ hlists.1.symm
  case isFalse hboth =>
    obtain ⟨hchild, -, hplaces⟩ := hadds
    have hnil : [] ∈ left :: lists := by
      by_cases hnil : left = []
      · rw [hnil]
        exact mem_cons_self
      · have hcond : (!sfExists || (s.tables.child asLeaf).isConditional) = false := by
          by_contra hcond
          exact hboth ⟨Bool.not_eq_false _ ▸ hcond, hnil⟩
        obtain ⟨hsfTrue, hnot⟩ := Bool.or_eq_false_iff.mp hcond
        have hne : lists ≠ [] := hsf'.mp (by simpa using hsfTrue)
        by_contra hmem
        have hasi := (h.conditional hne fun hin => hmem (mem_cons_of_mem left hin)).1
        rw [hasi] at hnot
        cases hnot
    have hsettling : Settling asLeaf (s.ansRoot subgoal) s.ansRoot s1 := by
      refine ⟨⟨own', E', D', hgood1⟩, fun hcond => ?_, ?_, ?_, hroot1, fun sg hmem => ?_⟩
      · rw [hchild] at hcond
        have hsfTrue : sfExists = true := by
          by_contra hfalse
          rw [hnull (Bool.not_eq_true _ ▸ hfalse)] at hcond
          cases hcond
        rw [hplaces, hsfTrue, Bool.true_and, if_pos hcond]
        rfl
      · rw [hleaves1]
        exact hlisted
      · rw [hmarked1]
        exact hmarked
      · rw [hplaces] at hmem
        split at hmem <;> simp at hmem
    have hsettled := hsettling.reaches hreaches
    have hnot : (s'.tables.child asLeaf).isConditional = false := by
      rw [← Bool.not_eq_true]
      intro hcond
      have hhead := hsettled.status hcond
      rw [hs'] at hhead
      cases hhead
    refine ⟨iff_of_true ⟨?_, hsettled.marked⟩ (cons_ne_nil _ _),
      fun hnil => absurd hnil (cons_ne_nil _ _), fun _ => hnot,
      fun _ hnotin => absurd hnil hnotin⟩
    rw [hsettled.ansRoot]
    exact hsettled.listed

theorem supported_cons (unsupported : Bool) (left : List (Nat × Option Nat))
    (ds : List (Bool × List (Nat × Option Nat))) :
    supported ((unsupported, left) :: ds) =
      if unsupported then supported ds else left :: supported ds := by
  cases unsupported <;> rfl

/-- An answer that is not there, or is marked in a table without delay information. -/
theorem Status.new (hgood : Good s own E D)
    (hnew : asLeaf ∉ s.leaves (s.ansRoot subgoal) → s.tables.child asLeaf = .null)
    (hold : asLeaf ∈ s.leaves (s.ansRoot subgoal) → s.marked asLeaf) :
    Status asLeaf subgoal s [] where
  listed := by
    refine iff_of_false ?_ fun hne => hne rfl
    rintro ⟨hmem, hmarked⟩
    rw [hold hmem] at hmarked
    cases hmarked
  null _ := by
    by_cases hmem : asLeaf ∈ s.leaves (s.ansRoot subgoal)
    · exact hgood.base.marked asLeaf (hold hmem)
    · exact hnew hmem
  unconditional hmem := absurd hmem not_mem_nil
  conditional hne := absurd rfl hne

/-- When an answer can be derived again. -/
theorem Status.allowed
    (h : Status asLeaf subgoal s lists) (hs : s.places = []) (failed succeeded : Nat → Bool)
    (delayreg : List (Nat × Option Nat)) :
    s.Allowed (.newAnswer failed succeeded asLeaf subgoal delayreg) := by
  refine ⟨hs, fun hmem => h.null ?_, h.valid⟩
  by_contra hne
  exact hmem (h.listed.mpr hne).1

/-- The tables after a derivation of an answer, and after the simplifications that it started. -/
theorem Status.newAnswer {ds : List (Bool × List (Nat × Option Nat))}
    (h : Status asLeaf subgoal s (supported ds)) (hgood : Good s own E D) (hs : s.places = [])
    (hcompleted : s.completed subgoal = false) (failed succeeded : Nat → Bool)
    (delayreg : List (Nat × Option Nat)) :
    ∃ s1, s.newAnswer failed succeeded asLeaf subgoal delayreg = some s1 ∧
      (∃ own' E' D', Good s1 own' E' D') ∧
      ∀ s', (simplification k).Reaches s1 s' → s'.places = [] →
        Status asLeaf subgoal s' (supported
          ((s.answerIsUnsupported succeeded delayreg, s.tables.remaining failed delayreg) ::
            ds)) := by
  rw [supported_cons]
  cases hunsupported : s.answerIsUnsupported succeeded delayreg with
  | true =>
    refine ⟨s, ?_, ⟨own, E, D, hgood⟩, fun s' hreaches _ => ?_⟩
    · rw [Simplifying.newAnswer, hunsupported, Bool.or_true]
      rfl
    · rw [reaches_idle hreaches hs]
      exact h
  | false => exact h.derived hgood hs hunsupported hcompleted failed

theorem History.status {ds : List (Bool × List (Nat × Option Nat))}
    (h : History (unconditionalRecomputations k) k asLeaf subgoal s ds) :
    (unconditionalRecomputations k).Reachable s ∧ s.places = [] ∧
      Status asLeaf subgoal s (supported ds) := by
  induction h with
  | new hreachable hs hnew hold =>
    obtain ⟨own, E, D, hgood⟩ := (simplifications_good k).holds hreachable
    exact ⟨hreachable, hs, .new hgood hnew hold⟩
  | @derived s s1 s' ds failed succeeded delayreg _ hcompleted hanswer hreaches hs' ih =>
    obtain ⟨hreachable, hs, hstatus⟩ := ih
    obtain ⟨own, E, D, hgood⟩ := (simplifications_good k).holds hreachable
    obtain ⟨s2, heq, -, hafter⟩ :=
      hstatus.newAnswer (k := k) hgood hs hcompleted failed succeeded delayreg
    obtain rfl : s2 = s1 := Option.some.inj (heq.symm.trans hanswer)
    have hstep := hreachable.step
      (e := SimplifyingEvent.newAnswer failed succeeded asLeaf subgoal delayreg)
        ⟨trivial, hstatus.allowed hs failed succeeded delayreg, hanswer⟩
    exact ⟨reachable_of_reaches (fun _ _ h => ⟨trivial, h⟩) hstep hreaches, hs',
      hafter s' hreaches hs'⟩
  | elsewhere _ hreachable hs' hsame ih => exact ⟨hreachable, hs', ih.2.2.elsewhere hsame⟩

/-- An answer is there if one of its derivations has no false delay. Then it is unconditional if all
delays of such a derivation were true, and otherwise its delay lists are those of the derivations
without a false delay, with the delays that were left. -/
def Simplifying.Records (s : Simplifying) (asLeaf subgoal : Nat)
    (ds : List (Bool × List (Nat × Option Nat))) : Prop :=
  (asLeaf ∈ s.leaves (s.ansRoot subgoal) ∧ s.marked asLeaf = false ↔ supported ds ≠ []) ∧
    ([] ∈ supported ds → (s.tables.child asLeaf).isConditional = false) ∧
    (supported ds ≠ [] → [] ∉ supported ds →
      (s.tables.child asLeaf).isConditional = true ∧ s.tables.Lists asLeaf (supported ds))

/-- Any derivations of an answer are recorded, and the next derivation ends as well, unless too many
simplifications are nested. -/
theorem history_status {ds : List (Bool × List (Nat × Option Nat))}
    (h : History (unconditionalRecomputations k) k asLeaf subgoal s ds) :
    s.Records asLeaf subgoal ds ∧
      (s.completed subgoal = false → ∀ failed succeeded delayreg, ∃ s₁,
        s.newAnswer failed succeeded asLeaf subgoal delayreg = some s₁ ∧
        (simplification k).Ends s₁ (fun s' =>
          History (unconditionalRecomputations k) k asLeaf subgoal s'
            ((s.answerIsUnsupported succeeded delayreg, s.tables.remaining failed delayreg) :: ds))
          (· = .tooManyNested)) := by
  obtain ⟨hreachable, hs, hstatus⟩ := h.status
  refine ⟨⟨hstatus.listed, hstatus.unconditional, fun hne hmem => ?_⟩,
    fun hcompleted failed succeeded delayreg => ?_⟩
  · obtain ⟨hasi, hlists⟩ := hstatus.conditional hne hmem
    rw [hasi]
    exact ⟨rfl, hlists⟩
  · obtain ⟨own, E, D, hgood⟩ := (simplifications_good k).holds hreachable
    obtain ⟨s₁, heq, ⟨own', E', D', hgood1⟩, -⟩ :=
      hstatus.newAnswer (k := k) hgood hs hcompleted failed succeeded delayreg
    obtain ⟨n, hn⟩ := hgood1.ends (k := k)
    refine ⟨s₁, heq, n, hn.imp ?_ id⟩
    rintro ⟨s', hrun, hhalted, -⟩
    exact ⟨s', hrun, hhalted, h.derived failed succeeded delayreg hcompleted heq
      (Machine.reaches_of_run hrun)
      (isEmpty_iff.mp hhalted)⟩

/-- The subgoal 4 has failed. -/
def failedFour (subgoal : Nat) : Bool := subgoal == 4

/-- The answer 2 is derived with the failure of the subgoal 3, and then also with that of 5. -/
theorem two_derivations : ∃ s ds,
    History (unconditionalRecomputations variantAnswers) variantAnswers 2 2 s ds ∧
      s.tables.Lists 2 [[(5, none)], [(3, none)]] ∧ (s.tables.child 2).isConditional = true := by
  have h0 : History (unconditionalRecomputations variantAnswers) variantAnswers 2 2 .start [] :=
    .new (.init ⟨⟨rfl, rfl, rfl, fun _ => rfl, fun _ => rfl⟩, fun _ => rfl, rfl⟩) rfl (fun _ => rfl)
      (fun h => absurd h not_mem_nil) Child.noConfusion
  have h₁ := h0.derived failedFour noVerdict [(3, none), (4, none)] rfl rfl
    (Machine.reaches_of_run (n := 1) rfl) rfl
  have h₂ := h₁.derived failedFour noVerdict [(5, none)]
    rfl rfl (Machine.reaches_of_run (n := 1) rfl) rfl
  obtain ⟨⟨-, -, hconditional⟩, -⟩ := history_status h₂
  have hlists := hconditional (by decide) (by decide)
  exact ⟨_, _, h₂, hlists.2, hlists.1⟩

/-- An answer of a table that is recomputed stays conditional, without a delay list, if it is
derived with delays that are all true. -/
theorem recomputed_conditional : ¬ ∀ (k : Answers) (asLeaf subgoal : Nat) (s : Simplifying)
    (ds : List (Bool × List (Nat × Option Nat))),
    History (simplifications k) k asLeaf subgoal s ds → s.Records asLeaf subgoal ds := by
  intro h
  have h0 : (simplifications variantAnswers).Reachable .start :=
    .init ⟨⟨rfl, rfl, rfl, fun _ => rfl, fun _ => rfl⟩, fun _ => rfl, rfl⟩
  have h₁ := h0.step (e := SimplifyingEvent.newAnswer noVerdict noVerdict 2 2 [(3, none)])
    ⟨⟨rfl, fun _ => rfl, Child.noConfusion⟩, rfl⟩
  have h₂ := h₁.step (e := SimplifyingEvent.step) ⟨cons_ne_nil _ _, rfl⟩
  have h3 := h₂.step (e := SimplifyingEvent.complete 2) ⟨rfl, rfl⟩
  have h4 := h3.step (e := SimplifyingEvent.recompute 2 12) ⟨⟨rfl, rfl⟩, rfl⟩
  have h5 : History (simplifications variantAnswers) variantAnswers 2 12 _ [] :=
    .new h4 rfl (fun hmem => absurd (by decide) hmem) (fun _ => by decide) (by decide)
  have h6 := h5.derived failedFour noVerdict [(4, none)]
    rfl rfl (Machine.reaches_of_run (n := 1) rfl) rfl
  cases (h variantAnswers 2 12 _ _ h6).2.1 (by decide)

end XSBEngine.Delay
