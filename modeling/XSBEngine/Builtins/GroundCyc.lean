import XSBEngine.Builtins.Cyclic

/-!
# Ground terms

When `ground_cyc` tells whether a term has variables and whether it has a cycle.
-/

namespace XSBEngine.Builtins.CycleTrail

open Bool List

open Heap (CString Psc Cell deref getStrPsc)
open Library

variable {v : Visits} {mem : Nat → Cell} {n d i : Nat} {nodes : Finset Cell} {p : List Cell}
  {c w x term : Cell} {σ : List Nat} {e : Encounter} {isinternstrReally : Cell → Bool}
  {action : CycleAction}

/-- A term is no variable and has none. -/
def IsGround (mem : Nat → Cell) (n : Nat) (term : Cell) : Prop :=
  ∀ c, derefCell mem n term = .ok c →
    isVariable c = false ∧ (isCompound c → ¬ VariableIn mem n c)

/-- What `ground_cyc` is to return. With `CYCLIC_SUCCEED` this is not said of terms with cycles. -/
def GroundResult (mem : Nat → Cell) (n : Nat) (term : Cell) : CycleAction → Option Bool → Prop
  | .cyclicSucceed, result =>
    ¬ Cyclic mem n term → (result = some true ↔ IsGround mem n term)
  | .cyclicFail, result =>
    result = some true ↔ IsGround mem n term ∧ ¬ Cyclic mem n term

/-- `ground_cyc` ends with either action, returns what it is to return, which is what `ground`
returns for terms without cycles, and leaves the heap as it was and the cycle trail empty. -/
def GroundCycRight (isinternstrReally : Cell → Bool) (mem : Nat → Cell) (n : Nat) (term : Cell) :
    Prop :=
  ∀ action, ∃ s, groundCyc mem (n + 1) term = .ok s ∧
    (loop (groundVisits action) (n + 1)).Ends s
      (fun s' => s'.mem = mem ∧ s'.trail = [] ∧ GroundResult mem n term action s'.result ∧
        (¬ Cyclic mem n term → ∃ d b,
          ground isinternstrReally mem (n + 1) d term = .ok b ∧ s'.result = some b))
      fun _ => False

/-- What a traversal meets first in a term without cycles is a variable if there is one, and nothing
otherwise, and in a term with a cycle it is anything but the end of a wide structure. -/
def GroundSeen (mem : Nat → Cell) (n : Nat) (term : Cell) : Prop :=
  ∀ c, derefCell mem n term = .ok c → isCompound c →
    (CyclicFrom mem n c → ∃ σ e, e ≠ .wide ∧
      MeetsFirst (turns (groundVisits .cyclicFail) mem n) [c] σ e) ∧
    (¬ CyclicFrom mem n c → VariableIn mem n c →
      ∃ σ, MeetsFirst (turns (groundVisits .cyclicFail) mem n) [c] σ .leaf) ∧
    (¬ CyclicFrom mem n c → ¬ VariableIn mem n c →
      ∀ σ e, ¬ Meets (turns (groundVisits .cyclicFail) mem n) [c] σ e)

/-! ### `ground` -/

theorem isGround_iff (hx : derefCell mem n x = .ok w) : IsGround mem n x ↔
    isVariable w = false ∧ (isCompound w → ¬ VariableIn mem n w) := by
  constructor
  · exact fun hground => hground w hx
  · intro hw c hc
    cases hx.symm.trans hc
    exact hw

/-- A compound term has a variable if an argument is one or has one. -/
theorem not_variableIn_iff :
    ¬ VariableIn mem n c ↔ ∀ x ∈ args mem c, IsGround mem n x := by
  constructor
  · intro hnone x hx w hw
    constructor
    · by_contra hvar
      exact hnone ⟨c, .refl, x, hx, w, hw, by simpa using hvar⟩
    · rintro hcomp ⟨u, hreach, hvar⟩
      exact hnone ⟨u, .head ⟨hcomp, x, hx, hw⟩ hreach, hvar⟩
  · rintro hall ⟨u, hreach, x, hx, y, hy, hvar⟩
    rcases hreach.cases_head with rfl | ⟨w, ⟨hcomp, x', hx', hw⟩, hrest⟩
    · have hnot := (hall x hx y hy).1
      exact false_ne_true (hnot.symm.trans hvar)
    · exact (hall x' hx' w hw).2 hcomp ⟨u, hrest, x, hx, y, hy, hvar⟩

/-- The loop of `ground`. -/
theorem groundArgs_eq {f : Cell → Except Stuck Bool} {P : Cell → Prop} {xs : List Cell}
    (h : ∀ x ∈ xs, ∃ b, f x = .ok b ∧ (b ↔ P x)) :
    ∃ b, groundArgs f xs = .ok b ∧ (b ↔ ∀ x ∈ xs, P x) := by
  induction xs with
  | nil => exact ⟨true, rfl, by simp⟩
  | cons x xs ih =>
    obtain ⟨b, hb, hP⟩ := h x mem_cons_self
    obtain ⟨b', hb', hall⟩ := ih fun y hy => h y (mem_cons_of_mem x hy)
    cases b with
    | false =>
      have hnot : ¬ P x := fun hx => false_ne_true (hP.mpr hx)
      refine ⟨false, by rw [groundArgs, hb], ?_⟩
      rw [forall_mem_cons]
      exact iff_of_false false_ne_true fun hxs => hnot hxs.1
    | true =>
      refine ⟨b', by rw [groundArgs, hb]; exact hb', ?_⟩
      rw [hall, forall_mem_cons]
      exact ⟨fun hxs => ⟨hP.mp rfl, hxs⟩, And.right⟩

/-- A round of `ground` at a compound term. -/
theorem ground_compound (h : HeapTerm mem n nodes term) (hc : c ∈ nodes)
    (hx : derefCell mem n x = .ok c) :
    ground isinternstrReally mem (n + 1) (d + 1) x =
      if isinternstrReally c then .ok true
      else groundArgs (ground isinternstrReally mem (n + 1) d) (args mem c) := by
  rw [ground, derefCell_succ hx]
  rcases eq_list_or_cs (h.compound c hc) with ⟨a, rfl⟩ | ⟨a, rfl⟩
  · rfl
  · obtain ⟨psc, hpsc, -⟩ := h.getStrPsc_eq hc
    simp only [args, hpsc]

theorem ground_leaf (hx : derefCell mem n x = .ok w) (hcomp : isCompound w = false) :
    ground isinternstrReally mem (n + 1) (d + 1) x = .ok (!isVariable w) := by
  rw [ground, derefCell_succ hx]
  cases w with
  | list a | cs a => cases hcomp
  | ref a | attv a | int i | float f | string s | functor psc => rfl

theorem isGround_node (hx : derefCell mem n x = .ok c) (hcomp : isCompound c) :
    IsGround mem n x ↔ ¬ VariableIn mem n c := by
  have hvar : isVariable c = false := by
    rcases eq_list_or_cs hcomp with ⟨a, rfl⟩ | ⟨a, rfl⟩ <;> rfl
  rw [isGround_iff hx]
  exact ⟨fun hboth => hboth.2 hcomp, fun hnone => ⟨hvar, fun _ => hnone⟩⟩

theorem isGround_leaf (hx : derefCell mem n x = .ok w) (hcomp : isCompound w = false) :
    (!isVariable w) = true ↔ IsGround mem n x := by
  rw [isGround_iff hx, hcomp]
  simp

/-- `ground` is right on terms without cycles. -/
theorem ground_eq (h : HeapTerm mem n nodes term)
    (hinterns : InternsOK isinternstrReally mem n nodes) (hp : PathOK nodes (c :: p))
    (hwalk : ∀ u ∈ c :: p, Relation.ReflTransGen (Edge mem n) u c)
    (hacyclic : ¬ CyclicFrom mem n c) (hx : derefCell mem n x = .ok c)
    (hd : nodes.card ≤ d + p.length) :
    ∃ b, ground isinternstrReally mem (n + 1) (d + 1) x = .ok b ∧ (b ↔ IsGround mem n x) := by
  induction d generalizing c p x with
  | zero =>
    have hlength := hp.length_le
    simp only [length_cons] at hlength
    omega
  | succ d ih =>
    rw [ground_compound h hp.head_mem hx, isGround_node hx (h.compound c hp.head_mem)]
    by_cases hintern : isinternstrReally c
    case pos =>
      rw [if_pos hintern]
      exact ⟨true, rfl, iff_of_true rfl (hinterns c hp.head_mem hintern).2⟩
    case neg =>
      rw [if_neg hintern, not_variableIn_iff]
      apply groundArgs_eq
      intro y hy
      obtain ⟨w, hw, hnode⟩ := h.args c hp.head_mem y hy
      by_cases hcompw : isCompound w
      case neg =>
        have hleaf : isCompound w = false := by simpa using hcompw
        exact ⟨_, ground_leaf hw hleaf, isGround_leaf hw hleaf⟩
      case pos =>
        have hedge : Edge mem n c w := ⟨hcompw, y, hy, hw⟩
        -- an argument that is on the path would be on a cycle
        have hnot : clrefVal w ∉ addrs (c :: p) := by
          intro hin
          obtain ⟨u, hu, heq⟩ := mem_map.mp hin
          obtain rfl := h.clrefVal_inj (hp.sub u hu) (hnode hcompw) heq
          exact hacyclic ⟨u, .single hedge, .tail' (hwalk u hu) hedge⟩
        refine ih (hp.cons (hnode hcompw) hnot) (fun u hu => ?_) ?_ hw ?_
        · rcases mem_cons.mp hu with rfl | hu
          · exact .refl
          · exact (hwalk u hu).tail hedge
        · rintro ⟨u, hreach, hcycle⟩
          exact hacyclic ⟨u, .head hedge hreach, hcycle⟩
        · simp only [length_cons]
          omega

/-- What `ground` returns for a term without cycles. -/
theorem ground_root (h : HeapTerm mem n nodes term)
    (hinterns : InternsOK isinternstrReally mem n nodes) (hacyclic : ¬ Cyclic mem n term) :
    ∃ d b, ground isinternstrReally mem (n + 1) d term = .ok b ∧ (b ↔ IsGround mem n term) := by
  obtain ⟨c, hc, hnode⟩ := h.root
  by_cases hcomp : isCompound c
  case pos =>
    have hwalk : ∀ u ∈ [c], Relation.ReflTransGen (Edge mem n) u c := by
      intro u hu
      rw [mem_singleton.mp hu]
    rw [cyclic_iff hc hcomp] at hacyclic
    exact ⟨nodes.card + 1,
      ground_eq h hinterns (.singleton (hnode hcomp)) hwalk hacyclic hc (Nat.le_refl _)⟩
  case neg =>
    have hleaf : isCompound c = false := by simpa using hcomp
    exact ⟨1, _, ground_leaf hc hleaf, isGround_leaf hc hleaf⟩

/-! ### `ground_cyc` -/

theorem groundResult_acyclic (action : CycleAction) (hacyclic : ¬ Cyclic mem n term) (b : Bool) :
    GroundResult mem n term action (some b) ↔ (b ↔ IsGround mem n term) := by
  cases action with
  | cyclicSucceed =>
    rw [GroundResult, Option.some.injEq]
    exact ⟨fun himp => himp hacyclic, fun hiff _ => hiff⟩
  | cyclicFail =>
    rw [GroundResult, Option.some.injEq, and_iff_left hacyclic]

theorem groundResult_cyclic (action : CycleAction) (hcyclic : Cyclic mem n term) (b : Bool) :
    GroundResult mem n term action (some b) ↔ (action = .cyclicFail → b = false) := by
  cases action with
  | cyclicSucceed => exact iff_of_true (fun hnot => absurd hcyclic hnot) nofun
  | cyclicFail =>
    rw [GroundResult, Option.some.injEq]
    constructor
    · intro hiff _
      exact eq_false_iff.mpr fun hb => (hiff.mp hb).2 hcyclic
    · intro hfalse
      rw [hfalse rfl]
      exact iff_of_false false_ne_true fun hboth => hboth.2 hcyclic

/-- The right results are those of `ground`. -/
theorem groundResult_agrees (h : HeapTerm mem n nodes term)
    (hinterns : InternsOK isinternstrReally mem n nodes) (b : Bool) :
    (GroundResult mem n term action (some b) ∧ (¬ Cyclic mem n term → ∃ d b',
      ground isinternstrReally mem (n + 1) d term = .ok b' ∧ some b = some b')) ↔
        GroundResult mem n term action (some b) := by
  apply and_iff_left_of_imp
  intro hresult hacyclic
  obtain ⟨d, b', hground, hiff⟩ := ground_root h hinterns hacyclic
  have heq : b = b' :=
    eq_iff_iff.mpr (((groundResult_acyclic _ hacyclic b).mp hresult).trans hiff.symm)
  exact ⟨d, b', hground, congrArg some heq⟩

/-- The first encounter has the right result. -/
def Returns (mem : Nat → Cell) (n : Nat) (term : Cell) (action : CycleAction) :
    Option Encounter → Prop
  | none => GroundResult mem n term action (some true)
  | some .leaf => GroundResult mem n term action (some false)
  | some .visited => GroundResult mem n term action (some (action = .cyclicSucceed : Bool))
  | some .wide => False

/-- How `ground_cyc` ends on a compound term. -/
theorem groundCyc_right_iff_search (h : HeapTerm mem n nodes term)
    (hinterns : InternsOK isinternstrReally mem n nodes) (hc : derefCell mem n term = .ok c)
    (hcomp : isCompound c) (hmem : c ∈ nodes) :
    GroundCycRight isinternstrReally mem n term ↔ ∀ action, Returns mem n term action
      (search (turns (groundVisits .cyclicFail) mem n) nodes.card [c]) := by
  apply forall_congr'
  intro action
  obtain ⟨s, hpush, hends⟩ := ends_iff (v := groundVisits action) h rfl hmem
    fun s' => s'.mem = mem ∧ s'.trail = [] ∧ GroundResult mem n term action s'.result ∧
      (¬ Cyclic mem n term → ∃ d b,
        ground isinternstrReally mem (n + 1) d term = .ok b ∧ s'.result = some b)
  have hstart : groundCyc mem (n + 1) term = .ok s := by
    simp only [groundCyc, derefCell_succ hc, hcomp, true_eq_false, if_false]
    exact hpush
  -- the heap is as it was and the trail empty whatever the result is
  have hstate : ∀ b, (mem = mem ∧ ([] : List CycleTrailFrame) = [] ∧
      GroundResult mem n term action (some b) ∧ (¬ Cyclic mem n term → ∃ d b',
        ground isinternstrReally mem (n + 1) d term = .ok b' ∧ some b = some b')) ↔
      GroundResult mem n term action (some b) := by
    intro b
    rw [groundResult_agrees h hinterns, and_iff_right rfl, and_iff_right rfl]
  -- the turns do not depend on the action
  have hsame : turns (groundVisits action) mem n = turns (groundVisits .cyclicFail) mem n := rfl
  rw [hsame] at hends
  refine Iff.trans ?_ (hends.trans ?_)
  · constructor
    · rintro ⟨s₁, hs1, hrun⟩
      cases hstart.symm.trans hs1
      exact hrun
    · exact fun hrun => ⟨s, hstart, hrun⟩
  · cases search (turns (groundVisits .cyclicFail) mem n) nodes.card [c] with
    | none => exact hstate true
    | some e =>
      cases e with
      | leaf => exact hstate false
      | visited => exact hstate _
      | wide => exact Iff.rfl

/-- With a cycle only `CYCLIC_FAIL` is to return something. -/
theorem returns_cyclic (h : HeapTerm mem n nodes term) (hmem : c ∈ nodes)
    (hcyclic : Cyclic mem n term) :
    (∀ action, Returns mem n term action
        (search (turns (groundVisits .cyclicFail) mem n) nodes.card [c])) ↔
      ∃ σ e, e ≠ .wide ∧ MeetsFirst (turns (groundVisits .cyclicFail) mem n) [c] σ e := by
  have hres := fun action => groundResult_cyclic action hcyclic
  rcases search_cases (v := groundVisits .cyclicFail) h hmem with
    ⟨hnone, hmeets⟩ | ⟨e, σ, hsome, hfirst⟩
  · rw [hnone]
    apply iff_of_false
    · intro hall
      cases (hres .cyclicFail true).mp (hall .cyclicFail) rfl
    · rintro ⟨σ, e, -, hfirst⟩
      exact hmeets σ e hfirst.1
  · rw [hsome]
    cases e with
    | leaf =>
      apply iff_of_true
      · intro action
        exact (hres action false).mpr fun _ => rfl
      · exact ⟨σ, .leaf, nofun, hfirst⟩
    | visited =>
      apply iff_of_true
      · intro action
        apply (hres action _).mpr
        rintro rfl
        rfl
      · exact ⟨σ, .visited, nofun, hfirst⟩
    | wide =>
      apply iff_of_false
      · exact fun hall => hall .cyclicFail
      · rintro ⟨τ, e, hne, hfirst'⟩
        exact hne (hfirst'.unique turns_numbered hfirst)

/-- Without cycles both actions are to return whether there is no variable. -/
theorem returns_acyclic (h : HeapTerm mem n nodes term) (hmem : c ∈ nodes)
    (hacyclic : ¬ Cyclic mem n term) (hground : IsGround mem n term ↔ ¬ VariableIn mem n c) :
    (∀ action, Returns mem n term action
        (search (turns (groundVisits .cyclicFail) mem n) nodes.card [c])) ↔
      (VariableIn mem n c →
        ∃ σ, MeetsFirst (turns (groundVisits .cyclicFail) mem n) [c] σ .leaf) ∧
      (¬ VariableIn mem n c →
        ∀ σ e, ¬ Meets (turns (groundVisits .cyclicFail) mem n) [c] σ e) := by
  have hres := fun action b => (groundResult_acyclic action hacyclic b).trans
    (iff_congr Iff.rfl hground)
  rcases search_cases (v := groundVisits .cyclicFail) h hmem with
    ⟨hnone, hmeets⟩ | ⟨e, σ, hsome, hfirst⟩
  · rw [hnone]
    constructor
    · intro hall
      have hnot := ((hres .cyclicFail true).mp (hall .cyclicFail)).mp rfl
      exact ⟨fun hvar => absurd hvar hnot, fun _ => hmeets⟩
    · rintro ⟨hvar, -⟩ action
      refine (hres action true).mpr (iff_of_true rfl fun hin => ?_)
      obtain ⟨σ, hfirst⟩ := hvar hin
      exact hmeets σ _ hfirst.1
  · rw [hsome]
    -- a term that is left before its end is not taken for a ground one
    have hunseen : e ≠ .leaf → ¬ ((VariableIn mem n c →
          ∃ σ, MeetsFirst (turns (groundVisits .cyclicFail) mem n) [c] σ .leaf) ∧
        (¬ VariableIn mem n c →
          ∀ σ e, ¬ Meets (turns (groundVisits .cyclicFail) mem n) [c] σ e)) := by
      rintro hne ⟨hvar, hnothing⟩
      by_cases hin : VariableIn mem n c
      · obtain ⟨τ, hfirst'⟩ := hvar hin
        exact hne (hfirst.unique turns_numbered hfirst')
      · exact hnothing hin σ _ hfirst.1
    cases e with
    | leaf =>
      constructor
      · intro hall
        have hiff := (hres .cyclicFail false).mp (hall .cyclicFail)
        exact ⟨fun _ => ⟨σ, hfirst⟩, fun hnot => absurd (hiff.mpr hnot) false_ne_true⟩
      · rintro ⟨-, hnothing⟩ action
        refine (hres action false).mpr (iff_of_false false_ne_true fun hnot => ?_)
        exact hnothing hnot σ _ hfirst.1
    | visited =>
      apply iff_of_false _ (hunseen nofun)
      intro hall
      have hnot := ((hres .cyclicSucceed _).mp (hall .cyclicSucceed)).mp rfl
      cases ((hres .cyclicFail _).mp (hall .cyclicFail)).mpr hnot
    | wide => exact iff_of_false (fun hall => hall .cyclicFail) (hunseen nofun)

/-- `ground_cyc` is right just for the terms whose variables and cycles it sees. -/
theorem groundCyc_right_iff (h : HeapTerm mem n nodes term)
    (hinterns : InternsOK isinternstrReally mem n nodes) :
    GroundCycRight isinternstrReally mem n term ↔ GroundSeen mem n term := by
  obtain ⟨c, hc, hnode⟩ := h.root
  by_cases hcomp : isCompound c
  case neg =>
    have hleaf : isCompound c = false := by simpa using hcomp
    have hacyclic : ¬ Cyclic mem n term := by
      rintro ⟨c1, hc1, hcomp1, -⟩
      cases hc.symm.trans hc1
      exact hcomp hcomp1
    constructor
    · intro _ c1 hc1 hcomp1
      cases hc.symm.trans hc1
      exact absurd hcomp1 hcomp
    · intro _ action
      refine ⟨⟨mem, [], some (!isVariable c)⟩, ?_, 0, Or.inl ⟨_, rfl, rfl, rfl, rfl, ?_⟩⟩
      · simp only [groundCyc, derefCell_succ hc, hleaf, if_true]
      · apply (groundResult_agrees h hinterns (!isVariable c)).mpr
        exact (groundResult_acyclic _ hacyclic _).mpr (isGround_leaf hc hleaf)
  case pos =>
    have hmem := hnode hcomp
    have hcyc := cyclic_iff hc hcomp
    have hseen : GroundSeen mem n term ↔
        (CyclicFrom mem n c → ∃ σ e, e ≠ .wide ∧
          MeetsFirst (turns (groundVisits .cyclicFail) mem n) [c] σ e) ∧
        (¬ CyclicFrom mem n c → VariableIn mem n c →
          ∃ σ, MeetsFirst (turns (groundVisits .cyclicFail) mem n) [c] σ .leaf) ∧
        (¬ CyclicFrom mem n c → ¬ VariableIn mem n c →
          ∀ σ e, ¬ Meets (turns (groundVisits .cyclicFail) mem n) [c] σ e) := by
      constructor
      · exact fun hall => hall c hc hcomp
      · intro hall c1 hc1 _
        cases hc.symm.trans hc1
        exact hall
    rw [groundCyc_right_iff_search h hinterns hc hcomp hmem, hseen]
    by_cases hcyclic : CyclicFrom mem n c
    case pos =>
      rw [returns_cyclic h hmem (hcyc.mpr hcyclic)]
      exact ⟨fun hmet => ⟨fun _ => hmet, fun hnot => absurd hcyclic hnot,
        fun hnot => absurd hcyclic hnot⟩, fun hall => hall.1 hcyclic⟩
    case neg =>
      rw [returns_acyclic h hmem (fun hcycle => hcyclic (hcyc.mp hcycle)) (isGround_node hc hcomp)]
      exact ⟨fun hboth => ⟨fun hcycle => absurd hcycle hcyclic, fun _ => hboth.1, fun _ => hboth.2⟩,
        fun hall => ⟨hall.2.1 hcyclic, hall.2.2 hcyclic⟩⟩

/-! ### Lists -/

theorem twoAtoms_ground (atom : CString) : ¬ VariableIn (twoAtoms atom) 1 (.list 0) := by
  rintro ⟨w, hreach, x, hx, y, hy, hvar⟩
  rcases twoAtoms_reach atom hreach with rfl | rfl
  · rcases mem_cons.mp hx with rfl | hx
    · cases hy
      cases hvar
    · rw [mem_singleton.mp hx] at hy
      cases hy
      cases hvar
  · rcases mem_cons.mp hx with rfl | hx
    · cases hy
      cases hvar
    · rw [mem_singleton.mp hx] at hy
      cases hy
      cases hvar

/-- `[a,b]` is ground, and `ground_cyc` tells so. -/
theorem groundCyc_right_twoAtoms :
    GroundCycRight (fun _ => false) (twoAtoms ⟨[98], by decide⟩) 1 (.list 0) := by
  have hterm := twoAtoms_term ⟨[98], by decide⟩
  apply (groundCyc_right_iff hterm (twoAtoms_interns ⟨[98], by decide⟩)).mpr
  intro c hc _
  cases hc
  have hacyclic := twoAtoms_acyclic ⟨[98], by decide⟩
  refine ⟨fun hcyclic => absurd hcyclic hacyclic, fun _ hvar => ?_, fun _ _ => ?_⟩
  · exact absurd hvar (twoAtoms_ground _)
  · rcases search_cases (v := groundVisits .cyclicFail) hterm (c := .list 0) (by decide) with
      ⟨-, hnone⟩ | ⟨e, σ, hsome, -⟩
    · exact hnone
    · cases hsome

/-- `[X]`, where the variable is in the first cell of the list. -/
def oneVariable : Nat → Cell
  | 0 => .ref 0
  | _ => .string nilName

theorem oneVariable_term : HeapTerm oneVariable 1 {.list 0} (.list 0) where
  root := ⟨.list 0, rfl, fun _ => Finset.mem_singleton_self _⟩
  compound c hc := by
    rw [Finset.mem_singleton.mp hc]
    rfl
  functor a ha := nomatch Finset.mem_singleton.mp ha
  args c hc x hx := by
    rw [Finset.mem_singleton.mp hc] at hx
    rcases mem_cons.mp hx with rfl | hx
    · exact ⟨.ref 0, rfl, nofun⟩
    · rw [mem_singleton.mp hx]
      exact ⟨_, rfl, nofun⟩

/-- `[X]` is not ground, but `ground_cyc` returns `TRUE`. -/
theorem head_variable_ground :
    HeapTerm oneVariable 1 {.list 0} (.list 0) ∧
      ¬ GroundCycRight (fun _ => false) oneVariable 1 (.list 0) := by
  refine ⟨oneVariable_term, fun hright => ?_⟩
  obtain ⟨s, hs, hends⟩ := hright .cyclicFail
  have hrun : ∃ s₁, (loop (groundVisits .cyclicFail) 2).run 10 s = .ok s₁ ∧
      s₁.result = some true := by
    cases hs
    exact ⟨_, rfl, rfl⟩
  obtain ⟨s₁, hs1, hresult⟩ := hrun
  obtain ⟨-, -, hiff, -⟩ := (hends.reaches (Machine.reaches_of_run hs1)).of_halted
    (by show s₁.result.isSome; rw [hresult]; rfl)
  have hvar : VariableIn oneVariable 1 (.list 0) :=
    ⟨_, .refl, .ref 0, mem_cons_self, .ref 0, rfl, rfl⟩
  exact ((hiff.mp hresult).1 (.list 0) rfl).2 rfl hvar

end XSBEngine.Builtins.CycleTrail
