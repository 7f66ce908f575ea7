import XSBEngine.Builtins.CycleSearch
import XSBEngine.Builtins.Terms

/-!
# Cyclic terms

When `is_cyclic` tells whether a term has a cycle.
-/

namespace XSBEngine.Builtins.CycleTrail

open List

open Heap (CString Psc Cell)
open Library

variable {v : Visits} {mem : Nat → Cell} {n i : Nat} {nodes : Finset Cell} {p : List Cell}
  {c w x term : Cell} {σ : List Nat} {e : Encounter} {isinternstr : Cell → Bool}

/-- A cycle is reached in a term. -/
def Cyclic (mem : Nat → Cell) (n : Nat) (term : Cell) : Prop :=
  ∃ c, derefCell mem n term = .ok c ∧ isCompound c ∧ CyclicFrom mem n c

/-- `is_cyclic` ends, tells whether a cycle is reached, and leaves the heap as it was and the cycle
trail empty. -/
def IsCyclicRight (isinternstr : Cell → Bool) (mem : Nat → Cell) (n : Nat) (term : Cell) : Prop :=
  ∃ s, isCyclic isinternstr mem (n + 1) term = .ok s ∧
    (loop (cyclicVisits isinternstr) (n + 1)).Ends s
      (fun s' => s'.mem = mem ∧ s'.trail = [] ∧ (s'.result = some true ↔ Cyclic mem n term))
      fun _ => False

/-- If a cycle is reached, then what a traversal meets first is a compound term that is on its path
or begins with the atom `_$visited`, and otherwise nothing is met. -/
def CycleSeen (isinternstr : Cell → Bool) (mem : Nat → Cell) (n : Nat) (term : Cell) : Prop :=
  ∀ c, derefCell mem n term = .ok c → isCompound c → isinternstr c = false →
    (CyclicFrom mem n c → ∃ σ, MeetsFirst (turns (cyclicVisits isinternstr) mem n) [c] σ .visited) ∧
    (¬ CyclicFrom mem n c → ∀ σ e, ¬ Meets (turns (cyclicVisits isinternstr) mem n) [c] σ e)

theorem cyclic_iff (hc : derefCell mem n term = .ok c) (hcomp : isCompound c) :
    Cyclic mem n term ↔ CyclicFrom mem n c := by
  constructor
  · rintro ⟨c', hc', -, hcyclic⟩
    cases hc.symm.trans hc'
    exact hcyclic
  · exact fun hcyclic => ⟨c, hc, hcomp, hcyclic⟩

/-- Variables are only met by traversals that fail at them. -/
theorem not_meets_leaf (hfails : ∀ w, v.fails w = false) : ¬ Meets (turns v mem n) p σ .leaf := by
  intro hmeets
  generalize hleaf : Encounter.leaf = e at hmeets
  induction hmeets with
  | @stop p i e hturn =>
    subst hleaf
    cases p with
    | nil => cases hturn
    | cons c p =>
      rcases mem_turns.mp hturn with ⟨-, -, hat⟩ | ⟨-, -, heq⟩
      · obtain ⟨w, -, ⟨-, -, hw⟩ | ⟨hfalse, -⟩⟩ := turnAt_stop hat
        · exact Bool.false_ne_true ((hfails w).symm.trans hw)
        · cases hfalse
      · cases heq
  | down _ _ ih => exact ih hleaf

/-- `is_cyclic` is right just for the terms whose cycles it sees. -/
theorem isCyclic_right_iff (h : HeapTerm mem n nodes term)
    (hinterns : InternsOK isinternstr mem n nodes) :
    IsCyclicRight isinternstr mem n term ↔ CycleSeen isinternstr mem n term := by
  obtain ⟨c, hc, hnode⟩ := h.root
  have hc' := derefCell_succ hc
  by_cases hleave : isCompound c = false ∨ isinternstr c
  case pos =>
    have hnot : ¬ Cyclic mem n term := by
      rintro ⟨c1, hc1, hcomp, hcyclic⟩
      cases hc.symm.trans hc1
      rcases hleave with hfalse | hintern
      · exact Bool.false_ne_true (hfalse.symm.trans hcomp)
      · exact (hinterns c (hnode hcomp) hintern).1 hcyclic
    constructor
    · intro _ c1 hc1 hcomp hintern
      cases hc.symm.trans hc1
      rcases hleave with hfalse | htrue
      · exact absurd (hfalse.symm.trans hcomp) Bool.false_ne_true
      · exact absurd (hintern.symm.trans htrue) Bool.false_ne_true
    · intro _
      refine ⟨⟨mem, [], some false⟩, ?_, 0, Or.inl ⟨_, rfl, rfl, rfl, rfl, ?_⟩⟩
      · simp only [isCyclic, hc', if_pos hleave]
      · exact iff_of_false (by simp) hnot
  case neg =>
    obtain ⟨hcomp, hintern⟩ := not_or.mp hleave
    have hcomp' : isCompound c = true := by simpa using hcomp
    have hintern' : isinternstr c = false := by simpa using hintern
    have hmem := hnode hcomp'
    have hstart : ∀ s, isCyclic isinternstr mem (n + 1) term = .ok s ↔
        State.push ⟨mem, [], none⟩ c = .ok s := by
      intro s
      simp only [isCyclic, hc', if_neg hleave]
    obtain ⟨s, hpush, hends⟩ := ends_iff (v := cyclicVisits isinternstr) h rfl hmem
      fun s' => s'.mem = mem ∧ s'.trail = [] ∧ (s'.result = some true ↔ Cyclic mem n term)
    have hright : IsCyclicRight isinternstr mem n term ↔
        (loop (cyclicVisits isinternstr) (n + 1)).Ends s
          (fun s' => s'.mem = mem ∧ s'.trail = [] ∧ (s'.result = some true ↔ Cyclic mem n term))
          fun _ => False := by
      constructor
      · rintro ⟨s₁, hs1, hrun⟩
        cases hpush.symm.trans ((hstart s₁).mp hs1)
        exact hrun
      · exact fun hrun => ⟨s, (hstart s).mpr hpush, hrun⟩
    have hseen : CycleSeen isinternstr mem n term ↔
        (CyclicFrom mem n c → ∃ σ,
          MeetsFirst (turns (cyclicVisits isinternstr) mem n) [c] σ .visited) ∧
        (¬ CyclicFrom mem n c →
          ∀ σ e, ¬ Meets (turns (cyclicVisits isinternstr) mem n) [c] σ e) := by
      constructor
      · exact fun hall => hall c hc hcomp' hintern'
      · intro hboth c1 hc1 _ _
        cases hc.symm.trans hc1
        exact hboth
    rw [hright, hends, hseen, cyclic_iff hc hcomp']
    rcases search_cases (v := cyclicVisits isinternstr) h hmem with
      ⟨hnone, hmeets⟩ | ⟨e, σ, hsome, hfirst⟩
    · rw [hnone]
      constructor
      · rintro ⟨-, -, hiff⟩
        have hnot : ¬ CyclicFrom mem n c := fun hcyclic => nomatch hiff.mpr hcyclic
        exact ⟨fun hcyclic => absurd hcyclic hnot, fun _ => hmeets⟩
      · rintro ⟨hcycle, -⟩
        refine ⟨rfl, rfl, iff_of_false nofun fun hcyclic => ?_⟩
        obtain ⟨σ, hfirst⟩ := hcycle hcyclic
        exact hmeets σ _ hfirst.1
    · rw [hsome]
      cases e with
      | leaf => exact absurd hfirst.1 (not_meets_leaf fun _ => rfl)
      | visited =>
        constructor
        · rintro ⟨-, -, hiff⟩
          have hcyclic : CyclicFrom mem n c := hiff.mp rfl
          exact ⟨fun _ => ⟨σ, hfirst⟩, fun hnot => absurd hcyclic hnot⟩
        · rintro ⟨-, hnothing⟩
          refine ⟨rfl, rfl, iff_of_true rfl ?_⟩
          by_contra hnot
          exact hnothing hnot σ _ hfirst.1
      | wide =>
        constructor
        · exact False.elim
        · rintro ⟨hcycle, hnothing⟩
          by_cases hcyclic : CyclicFrom mem n c
          · obtain ⟨τ, hfirst'⟩ := hcycle hcyclic
            cases hfirst.unique turns_numbered hfirst'
          · exact hnothing hcyclic σ _ hfirst.1

/-! ### Lists -/

/-- The list of an atom and another one: `[a,A]`. -/
def twoAtoms (atom : CString) : Nat → Cell
  | 0 => .string ⟨[97], by decide⟩
  | 1 => .list 2
  | 2 => .string atom
  | _ => .string nilName

section

variable (atom : CString)
include atom

theorem twoAtoms_term :
    HeapTerm (twoAtoms atom) 1 {.list 0, .list 2} (.list 0) where
  root := ⟨.list 0, rfl, fun _ => by simp⟩
  compound c hc := by
    rcases Finset.mem_insert.mp hc with rfl | hc
    · rfl
    · rw [Finset.mem_singleton.mp hc]
      rfl
  functor a ha := by simp at ha
  args c hc x hx := by
    rcases Finset.mem_insert.mp hc with rfl | hc
    · rcases mem_cons.mp hx with rfl | hx
      · exact ⟨_, rfl, nofun⟩
      · rw [mem_singleton.mp hx]
        exact ⟨.list 2, rfl, fun _ => by simp⟩
    · rw [Finset.mem_singleton.mp hc] at hx
      rcases mem_cons.mp hx with rfl | hx
      · exact ⟨_, rfl, nofun⟩
      · rw [mem_singleton.mp hx]
        exact ⟨_, rfl, nofun⟩

theorem twoAtoms_edge (h : Edge (twoAtoms atom) 1 c w) :
    (c = .list 0 → w = .list 2) ∧ c ≠ .list 2 := by
  obtain ⟨hcomp, x, hx, hw⟩ := h
  constructor
  · rintro rfl
    rcases mem_cons.mp hx with rfl | hx
    · cases hw
      cases hcomp
    · rw [mem_singleton.mp hx] at hw
      cases hw
      rfl
  · rintro rfl
    rcases mem_cons.mp hx with rfl | hx
    · cases hw
      cases hcomp
    · rw [mem_singleton.mp hx] at hw
      cases hw
      cases hcomp

theorem twoAtoms_reach (h : Relation.ReflTransGen (Edge (twoAtoms atom) 1) (.list 0) c) :
    c = .list 0 ∨ c = .list 2 := by
  induction h with
  | refl => exact Or.inl rfl
  | tail _ hedge ih =>
    rcases ih with rfl | rfl
    · exact Or.inr ((twoAtoms_edge atom hedge).1 rfl)
    · exact absurd rfl (twoAtoms_edge atom hedge).2

theorem twoAtoms_acyclic : ¬ CyclicFrom (twoAtoms atom) 1 (.list 0) := by
  rintro ⟨w, hreach, hcycle⟩
  obtain ⟨u, hedge, hrest⟩ := Relation.TransGen.head'_iff.mp hcycle
  rcases twoAtoms_reach atom hreach with rfl | rfl
  · cases (twoAtoms_edge atom hedge).1 rfl
    rcases hrest.cases_head with heq | ⟨u, hedge', -⟩
    · cases heq
    · exact (twoAtoms_edge atom hedge').2 rfl
  · exact (twoAtoms_edge atom hedge).2 rfl

theorem twoAtoms_interns :
    InternsOK (fun _ => false) (twoAtoms atom) 1 {.list 0, .list 2} :=
  fun _ _ hfalse => absurd hfalse Bool.false_ne_true

end

/-- `[a,b]` has no cycle, and `is_cyclic` tells so. -/
theorem isCyclic_right_twoAtoms :
    IsCyclicRight (fun _ => false) (twoAtoms ⟨[98], by decide⟩) 1 (.list 0) := by
  have hterm := twoAtoms_term ⟨[98], by decide⟩
  apply (isCyclic_right_iff hterm (twoAtoms_interns ⟨[98], by decide⟩)).mpr
  intro c hc _ _
  cases hc
  refine ⟨fun hcyclic => absurd hcyclic (twoAtoms_acyclic _), fun _ => ?_⟩
  -- nothing is met in the list
  rcases search_cases (v := cyclicVisits fun _ => false) hterm (c := .list 0) (by decide) with
    ⟨-, hnone⟩ | ⟨e, σ, hsome, -⟩
  · exact hnone
  · cases hsome

/-- `[a,'_$visited']` has no cycle, but `is_cyclic` returns `TRUE`. -/
theorem visited_atom_cyclic :
    HeapTerm (twoAtoms visitedName) 1 {.list 0, .list 2} (.list 0) ∧
      ¬ IsCyclicRight (fun _ => false) (twoAtoms visitedName) 1 (.list 0) := by
  refine ⟨twoAtoms_term visitedName, ?_⟩
  rintro ⟨s, hs, hends⟩
  have hrun : ∃ s₁, (loop (cyclicVisits fun _ => false) 2).run 10 s = .ok s₁ ∧
      s₁.result = some true := by
    cases hs
    exact ⟨_, rfl, rfl⟩
  obtain ⟨s₁, hs1, hresult⟩ := hrun
  obtain ⟨-, -, hiff⟩ := (hends.reaches (Machine.reaches_of_run hs1)).of_halted
    (by show s₁.result.isSome; rw [hresult]; rfl)
  rw [cyclic_iff (c := .list 0) rfl rfl] at hiff
  exact twoAtoms_acyclic visitedName (hiff.mp hresult)

end XSBEngine.Builtins.CycleTrail
