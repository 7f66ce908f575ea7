import XSBEngine.Delay.Cascade

/-!
# The depth of simplifications

`simplification_depth_gl` counts the simplifications that are running, unless `simplify_neg_fails`
is entered again while it runs.
-/

namespace XSBEngine.Delay

open Function Library List

/-- A computation that succeeds has done its first part. -/
theorem bind_ok {ε α β : Type} {x : Except ε α} {f : α → Except ε β} {b : β}
    (h : x >>= f = .ok b) : ∃ a, x = .ok a ∧ f a = .ok b := by
  cases x with
  | error e => cases h
  | ok a => exact ⟨a, rfl, h⟩

/-- The place is in the loop of a simplification, which is running then. -/
def Place.isLoop : Place → Bool
  | .posUnconditionalLoop _ | .negFailsLoop _ | .negSucceedsLoop _ | .posUnsupportedLoop _ => true
  | _ => false

/-- The place of a function that takes an answer out of its trie. -/
def Place.Removes (leaf : Nat) : Place → Prop
  | .handleUnsupportedAnswerSubst asLeaf => asLeaf = leaf
  | .markSubgoalFailed _ => True
  | _ => False

/-- The four simplifications. -/
inductive Call where
  | simplifyPosUnconditional (asLeaf : Nat)
  | simplifyNegFails (subgoal : Nat)
  | simplifyNegSucceeds (subgoal : Nat)
  | simplifyPosUnsupported (asLeaf : Nat)
deriving Repr, DecidableEq

/-- The start of a simplification. -/
def Call.place : Call → Place
  | .simplifyPosUnconditional asLeaf => .simplifyPosUnconditional asLeaf
  | .simplifyNegFails subgoal => .simplifyNegFails subgoal
  | .simplifyNegSucceeds subgoal => .simplifyNegSucceeds subgoal
  | .simplifyPosUnsupported asLeaf => .simplifyPosUnsupported asLeaf

namespace Simplifying

variable {k : Answers} {s s' : Simplifying} {place : Place} {rest : List Place}

/-- An outermost call. -/
def outermost (s : Simplifying) (c : Call) : Simplifying := { s with places := [c.place] }

/-- The number of simplifications that are running. -/
def active (s : Simplifying) : Nat := s.places.countP Place.isLoop

/-- `simplify_neg_fails` is entered while it runs. -/
def Reenters (s : Simplifying) : Prop :=
  ∃ subgoal rest, s.places = .simplifyNegFails subgoal :: rest ∧ s.inSimplifyNegFails ∧
    s.depth ≤ maxSimplificationDepth

/-- What the depth is more than it has to be. -/
def excess (s : Simplifying) : Int := s.depth - s.active

theorem enter_ok (h : s.enter = .ok s') :
    s.depth ≤ maxSimplificationDepth ∧ s' = { s with depth := s.depth + 1 } := by
  unfold enter at h
  split at h
  next => cases h
  next hdepth => exact ⟨not_lt.mp hdepth, (Except.ok.inj h).symm⟩

/-- What a place does to the depth: each call of a loop that it leaves on the stack is counted, and
it is not counted any more itself. -/
structure Counts (s s' : Simplifying) (place : Place) (extra : Int) : Prop where
  counts : ∃ calls, s'.places = calls ++ s.places ∧
    s'.depth - calls.countP Place.isLoop = s.depth - [place].countP Place.isLoop + extra

/-- What a place keeps of the marks and of the tries. -/
structure Leaves (s s' : Simplifying) (place : Place) : Prop where
  marked : s'.marked = s.marked
  ansRoot : s'.ansRoot = s.ansRoot
  leaves : ∀ root leaf, ¬ place.Removes leaf → leaf ∈ s.leaves root → leaf ∈ s'.leaves root
  calls : ∃ calls, s'.places = calls ++ s.places ∧ ∀ subgoal, .markSubgoalFailed subgoal ∉ calls

/-- What a place does to the depth, to the marks and to the tries. -/
structure Effect (s s' : Simplifying) (place : Place) (extra : Int) : Prop where
  counts : Counts s s' place extra
  leaves : Leaves s s' place

/-- A place that keeps the marks and the tries. -/
theorem Effect.of_calls {extra : Int} (calls : List Place)
    (ht : s'.marked = s.marked ∧ s'.ansRoot = s.ansRoot ∧ s'.leaves = s.leaves ∧
      s'.places = calls ++ s.places)
    (hdepth : s'.depth - calls.countP Place.isLoop = s.depth - [place].countP Place.isLoop + extra)
    (hcalls : ∀ subgoal, .markSubgoalFailed subgoal ∉ calls) : Effect s s' place extra := by
  obtain ⟨hmarked, hroot, hleaves, hplaces⟩ := ht
  exact ⟨⟨calls, hplaces, hdepth⟩, hmarked, hroot, fun root leaf _ h => hleaves ▸ h, calls, hplaces,
    hcalls⟩

theorem ne_markSubgoalFailed (hplace : place.isLoop) (subgoal : Nat) :
    .markSubgoalFailed subgoal ≠ place := by
  rintro rfl
  cases hplace

/-- The body of a loop goes back to the loop, and makes at most one call before. -/
theorem removeDe_effect {o : Owner} {pnde : Nat} (hplace : place.isLoop)
    (h : s.removeDe o pnde place = .ok s') : Effect s s' place 0 := by
  obtain ⟨⟨left, tables⟩, -, h⟩ := bind_ok h
  obtain rfl := Except.ok.inj h
  have hne := ne_markSubgoalFailed hplace
  cases left with
  | true => exact .of_calls [place] ⟨rfl, rfl, rfl, rfl⟩ (by simp [call]) (by simpa using hne)
  | false =>
    exact .of_calls [_, place] ⟨rfl, rfl, rfl, rfl⟩ (by simp [call, Place.isLoop])
      (by simpa using hne)

theorem removeDl_effect {pnde : Nat} (hplace : place.isLoop)
    (h : s.removeDl pnde place = .ok s') : Effect s s' place 0 := by
  obtain ⟨usedAsLeaf, -, h⟩ := bind_ok h
  have hne := ne_markSubgoalFailed hplace
  split at h
  next =>
    obtain ⟨⟨left, tables⟩, -, h⟩ := bind_ok h
    obtain rfl := Except.ok.inj h
    cases left with
    | true => exact .of_calls [place] ⟨rfl, rfl, rfl, rfl⟩ (by simp [call]) (by simpa using hne)
    | false =>
      exact .of_calls [_, place] ⟨rfl, rfl, rfl, rfl⟩ (by simp [call, Place.isLoop])
        (by simpa using hne)
  next =>
    obtain rfl := Except.ok.inj h
    exact .of_calls [place] ⟨rfl, rfl, rfl, rfl⟩ (by simp [call]) (by simpa using hne)

/-- What a simplification that returns at once leaves of the depth. -/
def leak (s : Simplifying) : Place → Int
  | .simplifyNegFails _ => if s.inSimplifyNegFails then 1 else 0
  | _ => 0

/-- A place that has been taken off the stack is executed. Only a simplification that returns at
once leaves the depth greater than it was. Marks are kept, and only answers that are not supported
are taken out of their tries. -/
theorem exec_effect (h : s.exec k place = .ok s') : Effect s s' place (s.leak place) := by
  -- a place that makes no calls and leaves everything but the depth alone
  have hnone : ∀ {t : Simplifying}, t.marked = s.marked ∧ t.ansRoot = s.ansRoot ∧
      t.leaves = s.leaves ∧ t.places = s.places →
      t.depth = s.depth - [place].countP Place.isLoop + s.leak place →
      Effect s t place (s.leak place) := by
    intro t ht hdepth
    exact .of_calls [] ht (by simpa using hdepth) (by simp)
  cases place with
  | simplifyPosUnconditional asLeaf =>
    obtain ⟨s1, henter, h⟩ := bind_ok h
    obtain ⟨tables, -, h⟩ := bind_ok h
    rw [(enter_ok henter).2] at h
    obtain rfl := Except.ok.inj h
    exact .of_calls [.posUnconditionalLoop asLeaf] ⟨rfl, rfl, rfl, rfl⟩
      (by simp [call, Place.isLoop, leak]) (by simp)
  | posUnconditionalLoop asLeaf =>
    rw [exec] at h
    split at h
    next => exact removeDe_effect rfl h
    next =>
      obtain rfl := Except.ok.inj h
      apply hnone
      · simp only [leave, freeAsi]
        split <;> exact ⟨rfl, rfl, rfl, rfl⟩
      · simp [leave, Place.isLoop, leak]
  | simplifyNegFails subgoal =>
    obtain ⟨s1, henter, h⟩ := bind_ok h
    rw [(enter_ok henter).2] at h
    dsimp only at h
    split at h
    next hin =>
      obtain rfl := Except.ok.inj h
      exact hnone ⟨rfl, rfl, rfl, rfl⟩ (by simp [Place.isLoop, leak, hin])
    next hin =>
      obtain rfl := Except.ok.inj h
      exact .of_calls [.negFailsLoop none] ⟨rfl, rfl, rfl, rfl⟩
        (by simp [call, Place.isLoop, leak, hin]) (by simp)
  | negFailsLoop popped =>
    cases popped with
    | none =>
      rw [exec] at h
      split at h
      next =>
        obtain rfl := Except.ok.inj h
        exact hnone ⟨rfl, rfl, rfl, rfl⟩ (by simp [leave, Place.isLoop, leak])
      next subgoal _ _ =>
        obtain rfl := Except.ok.inj h
        exact .of_calls [.negFailsLoop (some subgoal)] ⟨rfl, rfl, rfl, rfl⟩
          (by simp [call, Place.isLoop, leak]) (by simp)
    | some subgoal =>
      rw [exec] at h
      split at h
      next => exact removeDe_effect rfl h
      next =>
        obtain rfl := Except.ok.inj h
        exact .of_calls [.negFailsLoop none] ⟨rfl, rfl, rfl, rfl⟩
          (by simp [call, Place.isLoop, leak]) (by simp)
  | simplifyNegSucceeds subgoal =>
    obtain ⟨s1, henter, h⟩ := bind_ok h
    rw [(enter_ok henter).2] at h
    obtain rfl := Except.ok.inj h
    exact .of_calls [.negSucceedsLoop subgoal] ⟨rfl, rfl, rfl, rfl⟩
      (by simp [call, Place.isLoop, leak]) (by simp)
  | negSucceedsLoop subgoal =>
    rw [exec] at h
    split at h
    next => exact removeDl_effect rfl h
    next =>
      obtain rfl := Except.ok.inj h
      exact hnone ⟨rfl, rfl, rfl, rfl⟩ (by simp [leave, Place.isLoop, leak])
  | simplifyPosUnsupported asLeaf =>
    obtain ⟨s1, henter, h⟩ := bind_ok h
    rw [(enter_ok henter).2] at h
    obtain rfl := Except.ok.inj h
    exact .of_calls [.posUnsupportedLoop asLeaf] ⟨rfl, rfl, rfl, rfl⟩
      (by simp [call, Place.isLoop, leak]) (by simp)
  | posUnsupportedLoop asLeaf =>
    rw [exec] at h
    split at h
    next => exact removeDl_effect rfl h
    next =>
      obtain rfl := Except.ok.inj h
      exact hnone ⟨rfl, rfl, rfl, rfl⟩ (by simp [leave, Place.isLoop, leak])
  | handleEmptyDlCreation dl =>
    obtain ⟨asLeaf, -, h⟩ := bind_ok h
    dsimp only at h
    split at h
    next =>
      obtain ⟨⟨left, tables⟩, -, h⟩ := bind_ok h
      obtain rfl := Except.ok.inj h
      exact .of_calls [_, _, _] ⟨rfl, rfl, rfl, rfl⟩ (by simp [call, Place.isLoop, leak]) (by simp)
    next =>
      obtain rfl := Except.ok.inj h
      exact hnone ⟨rfl, rfl, rfl, rfl⟩ (by simp [Place.isLoop, leak])
  | emptyDlConsumer asLeaf subgoal =>
    rw [exec] at h
    split at h
    next =>
      obtain rfl := Except.ok.inj h
      exact .of_calls [_] ⟨rfl, rfl, rfl, rfl⟩ (by simp [call, Place.isLoop, leak]) (by simp)
    next =>
      obtain rfl := Except.ok.inj h
      exact hnone ⟨rfl, rfl, rfl, rfl⟩ (by simp [Place.isLoop, leak])
  | emptyDlProducer asLeaf subgoal =>
    obtain rfl := Except.ok.inj h
    exact .of_calls [_] ⟨rfl, rfl, rfl, rfl⟩ (by simp [call, Place.isLoop, leak]) (by simp)
  | handleUnsupportedAnswerSubst asLeaf =>
    obtain rfl := Except.ok.inj h
    refine ⟨⟨[_, _], rfl, by simp [call, Place.isLoop, leak]⟩, rfl, rfl,
      fun root leaf hremoves hleaf => ?_, [_, _], rfl, by simp⟩
    show leaf ∈ update s.leaves _ _ root
    rcases eq_or_ne root (s.ansRoot (s.asiSubgoal asLeaf)) with rfl | hne
    · rw [update_self]
      exact (mem_erase_of_ne fun heq => hremoves heq.symm).mpr hleaf
    · rwa [update_of_ne hne]
  | unsupportedFails asLeaf subgoal =>
    rw [exec] at h
    split at h
    next =>
      have hcalls : ∀ l : List Nat, (l.map Place.simplifyNegFails).countP Place.isLoop = 0 := by
        intro l
        rw [countP_eq_zero]
        intro p hp
        obtain ⟨n, -, rfl⟩ := mem_map.mp hp
        exact Bool.false_ne_true
      obtain rfl := Except.ok.inj h
      refine .of_calls _ ⟨rfl, rfl, rfl, rfl⟩ ?_ fun sg hmem => ?_
      · rw [countP_append, hcalls]
        split <;> simp [call, Place.isLoop, leak]
      · rcases mem_append.mp hmem with hmem | hmem
        · split at hmem <;> simp at hmem
        · simp at hmem
    next =>
      obtain rfl := Except.ok.inj h
      exact hnone ⟨rfl, rfl, rfl, rfl⟩ (by simp [Place.isLoop, leak])
  | markSubgoalFailed subgoal =>
    obtain rfl := Except.ok.inj h
    exact ⟨⟨[_], rfl, by simp [call, Place.isLoop, leak]⟩, rfl, rfl,
      fun _ _ hremoves => absurd trivial hremoves, [_], rfl, by simp⟩
  | derivedUnconditional asLeaf subgoal =>
    rw [exec] at h
    split at h
    next =>
      obtain rfl := Except.ok.inj h
      exact .of_calls [_] ⟨rfl, rfl, rfl, rfl⟩ (by simp [call, Place.isLoop, leak]) (by simp)
    next =>
      obtain rfl := Except.ok.inj h
      exact hnone ⟨rfl, rfl, rfl, rfl⟩ (by simp [Place.isLoop, leak])

/-- A step keeps the excess, unless `simplify_neg_fails` is entered while it runs. -/
theorem step_excess (hs : s.places ≠ []) (h : s.step k = .ok s') :
    s'.excess = s.excess ∧ ¬ s.Reenters ∨ s'.excess = s.excess + 1 ∧ s.Reenters := by
  obtain ⟨place, rest, hplaces⟩ := exists_cons_of_ne_nil hs
  rw [step, hplaces] at h
  obtain ⟨calls, hcalls, hdepth⟩ := (exec_effect h).counts.counts
  have hactive : s.active = [place].countP Place.isLoop + rest.countP Place.isLoop := by
    rw [active, hplaces, ← countP_append]
    rfl
  have hactive' : s'.active = calls.countP Place.isLoop + rest.countP Place.isLoop := by
    rw [active, hcalls, countP_append]
  have hreenters : s.Reenters ↔ (∃ subgoal, place = .simplifyNegFails subgoal) ∧
      s.inSimplifyNegFails := by
    constructor
    · rintro ⟨subgoal, rest', hp, hin, -⟩
      exact ⟨⟨subgoal, (List.cons.inj (hplaces.symm.trans hp)).1⟩, hin⟩
    · rintro ⟨⟨subgoal, rfl⟩, hin⟩
      obtain ⟨s1, henter, -⟩ := bind_ok h
      exact ⟨subgoal, rest, hplaces, hin, (enter_ok henter).1⟩
  have hleak : s'.excess = s.excess + s.leak place := by
    rw [excess, excess, hactive, hactive']
    have hdepth' : s'.depth - calls.countP Place.isLoop =
        s.depth - [place].countP Place.isLoop + s.leak place := hdepth
    push_cast
    omega
  rw [hreenters, hleak]
  cases place with
  | simplifyNegFails subgoal =>
    cases hin : s.inSimplifyNegFails with
    | true => exact Or.inr ⟨by simp [leak, hin], ⟨subgoal, rfl⟩, rfl⟩
    | false => exact Or.inl ⟨by simp [leak, hin], fun h => Bool.false_ne_true h.2⟩
  | _ => exact Or.inl ⟨by simp [leak], fun h => Place.noConfusion h.1.choose_spec⟩

/-- The excess does not get smaller in a run. -/
theorem excess_le (h : (simplification k).Reaches s s') : s.excess ≤ s'.excess := by
  induction h with
  | refl s => exact le_rfl
  | step hhalted hstep _ ih =>
    have hplaces := isEmpty_eq_false_iff.mp hhalted
    have hle := step_excess hplaces hstep
    omega

/-- The excess is the same in a run in which `simplify_neg_fails` is not entered again. -/
theorem excess_eq (h : (simplification k).Reaches s s')
    (hreenters : ∀ s1, (simplification k).Reaches s s1 → ¬ s1.Reenters) :
    s'.excess = s.excess := by
  induction h with
  | refl s => rfl
  | @step s0 s1 s2 hhalted hstep h ih =>
    have hplaces := isEmpty_eq_false_iff.mp hhalted
    rcases step_excess hplaces hstep with ⟨heq, -⟩ | ⟨-, hre⟩
    · rw [ih fun s3 h3 => hreenters s3 (.step hhalted hstep h3), heq]
    · exact absurd hre (hreenters s0 (.refl s0))

theorem outermost_excess (s : Simplifying) (c : Call) : (s.outermost c).excess = s.depth := by
  cases c <;> simp [excess, active, outermost, Call.place, Place.isLoop]

/-- A simplification that is entered while it runs makes a step. -/
theorem Reenters.step_ok (h : s.Reenters) : ∃ s', s.step k = .ok s' := by
  obtain ⟨subgoal, rest, hplaces, hin, hdepth⟩ := h
  refine ⟨{ s with
    depth := s.depth + 1
    negFailsStack := subgoal :: s.negFailsStack
    places := rest }, ?_⟩
  rw [step, hplaces]
  simp only [exec, enter, if_neg (not_lt.mpr hdepth), hin]
  rfl

end Simplifying

open Simplifying

/-- The answer 1 depends on the failure of the subgoal 0, and the answer 2 of the completed subgoal
2 on that of the subgoal 1. -/
def negations : Option Simplifying := do
  let s ← Simplifying.start.newAnswer (fun _ => false) (fun _ => false) 1 1 [(0, none)]
  let s ← { s with places := [] }.newAnswer (fun _ => false) (fun _ => false) 2 2 [(1, none)]
  some { s with completed := (· == 2), places := [] }

end XSBEngine.Delay
