import Mathlib

/-!
# Searches through the unfolding of a graph

A depth-first search that only remembers the path that it is on goes through all paths in the order
of the turns that they take, up to the first one that comes to a stop.
-/

namespace XSBEngine.Library

open List

variable {ν ε : Type*}

/-- Where a path may go on, or what it meets. -/
inductive Turn (ν ε : Type*) where
  | down (w : ν)
  | stop (e : ε)

/-- A turn that leads down is followed. -/
def Turn.follow (next : ν → Option ε) : Turn ν ε → Option ε
  | .down w => next w
  | .stop e => some e

/-- From a path, which begins with its last node, the numbers of turns lead to something that is
met. -/
inductive Meets (turns : List ν → List (Nat × Turn ν ε)) : List ν → List Nat → ε → Prop where
  | stop {p : List ν} {i : Nat} {e : ε} : (i, .stop e) ∈ turns p → Meets turns p [i] e
  | down {p : List ν} {i : Nat} {w : ν} {σ : List Nat} {e : ε} : (i, .down w) ∈ turns p →
      Meets turns (w :: p) σ e → Meets turns p (i :: σ) e

/-- What is met first, in the order of the turns. -/
def MeetsFirst (turns : List ν → List (Nat × Turn ν ε)) (p : List ν) (σ : List Nat) (e : ε) :
    Prop :=
  Meets turns p σ e ∧ ∀ τ e', Meets turns p τ e' → ¬ τ < σ

/-- The search, up to a depth. -/
def search (turns : List ν → List (Nat × Turn ν ε)) : Nat → List ν → Option ε
  | 0, _ => none
  | d + 1, p => (turns p).findSome? fun t => t.2.follow fun w => search turns d (w :: p)

variable {turns : List ν → List (Nat × Turn ν ε)} {p : List ν} {σ τ : List Nat} {e e' : ε}
  {d i j : Nat} {t u : Turn ν ε} {w : ν}

/-- The turns of a path have different numbers, in ascending order. -/
def Numbered (turns : List ν → List (Nat × Turn ν ε)) : Prop :=
  ∀ p, (turns p).Pairwise fun t u => t.1 < u.1

theorem Numbered.unique (h : Numbered turns) (ht : (i, t) ∈ turns p) (hu : (i, u) ∈ turns p) :
    t = u := by
  have hnodup : ((turns p).map Prod.fst).Nodup :=
    pairwise_map.mpr ((h p).imp Nat.ne_of_lt)
  exact congrArg Prod.snd (inj_on_of_nodup_map hnodup ht hu rfl)

/-- What is met is told by the numbers of the turns. -/
theorem Meets.unique (hnum : Numbered turns) (h : Meets turns p σ e) (h' : Meets turns p σ e') :
    e = e' := by
  induction h with
  | stop hmem =>
    cases h' with
    | stop hmem' => exact Turn.stop.inj (hnum.unique hmem hmem')
    | down _ hrest => cases hrest
  | down hmem hrest ih =>
    cases h' with
    | stop _ => cases hrest
    | down hmem' hrest' =>
      obtain rfl := Turn.down.inj (hnum.unique hmem hmem')
      exact ih hrest'

theorem MeetsFirst.unique (hnum : Numbered turns) (h : MeetsFirst turns p σ e)
    (h' : MeetsFirst turns p τ e') : e = e' := by
  obtain rfl : σ = τ := le_antisymm (not_lt.mp (h.2 τ e' h'.1)) (not_lt.mp (h'.2 σ e h.1))
  exact h.1.unique hnum h'.1

/-- Paths that a number bounds have that many turns left at most. -/
theorem Meets.length_le (good : List ν → Prop) (left : List ν → Nat)
    (hdown : ∀ p i w, good p → (i, .down w) ∈ turns p → good (w :: p) ∧ left (w :: p) < left p)
    (h : Meets turns p σ e) (hp : good p) : σ.length ≤ left p + 1 := by
  induction h with
  | stop _ =>
    rw [length_singleton]
    omega
  | down hmem _ ih =>
    obtain ⟨hgood, hlt⟩ := hdown _ _ _ hp hmem
    have hlength := ih hgood
    rw [length_cons]
    omega

/-- A search that finds nothing has been everywhere. -/
theorem search_none (hdepth : ∀ σ e, Meets turns p σ e → σ.length ≤ d)
    (h : search turns d p = none) : ¬ Meets turns p σ e := by
  induction d generalizing p σ with
  | zero =>
    intro hmeets
    have hlength := hdepth σ e hmeets
    cases hmeets <;> cases hlength
  | succ d ih =>
    have hall := List.findSome?_eq_none_iff.mp h
    intro hmeets
    cases hmeets with
    | stop hmem => cases hall _ hmem
    | down hmem hrest =>
      apply ih _ (hall _ hmem) hrest
      intro τ e' hτ
      exact Nat.le_of_succ_le_succ (hdepth _ e' (.down hmem hτ))

/-- A search finds what is met first. -/
theorem search_some (hnum : Numbered turns)
    (hdepth : ∀ σ e, Meets turns p σ e → σ.length ≤ d) (h : search turns d p = some e) :
    ∃ σ, MeetsFirst turns p σ e := by
  induction d generalizing p with
  | zero => cases h
  | succ d ih =>
    have hbelow : ∀ {i w}, (i, Turn.down w) ∈ turns p →
        ∀ σ e, Meets turns (w :: p) σ e → σ.length ≤ d :=
      fun hmem σ e' hσ => Nat.le_of_succ_le_succ (hdepth _ e' (.down hmem hσ))
    obtain ⟨before, ⟨i, t⟩, after, hsplit, hfound, hnone⟩ := List.findSome?_eq_some_iff.mp h
    have hmem : (i, t) ∈ turns p := by
      rw [hsplit]
      exact mem_append_right before mem_cons_self
    -- nothing is met at an earlier turn
    have hearlier : ∀ j τ e', Meets turns p (j :: τ) e' → i ≤ j := by
      intro j τ e' hτ
      by_contra hlt
      have hbefore : ∀ u, (j, u) ∈ turns p → (j, u) ∈ before := by
        intro u hu
        have hpair := hnum p
        rw [hsplit] at hu hpair
        refine (mem_append.mp hu).resolve_right fun hu => ?_
        rcases mem_cons.mp hu with heq | hu
        · exact hlt (congrArg Prod.fst heq).symm.le
        · have hij := (pairwise_cons.mp (pairwise_append.mp hpair).2.1).1 _ hu
          exact hlt (Nat.le_of_lt hij)
      cases hτ with
      | stop hj => cases hnone _ (hbefore _ hj)
      | down hj hrest => exact search_none (hbelow hj) (hnone _ (hbefore _ hj)) hrest
    cases t with
    | stop e1 =>
      cases hfound
      refine ⟨[i], .stop hmem, fun τ e' hτ hlt => ?_⟩
      cases τ with
      | nil => cases hτ
      | cons j τ =>
        have hle := hearlier j τ e' hτ
        rcases cons_lt_cons_iff.mp hlt with hji | ⟨-, hnil⟩
        · omega
        · exact not_lt_nil τ hnil
    | down w =>
      obtain ⟨σ, hσ, hfirst⟩ := ih (hbelow hmem) hfound
      refine ⟨i :: σ, .down hmem hσ, fun τ e' hτ hlt => ?_⟩
      cases τ with
      | nil => cases hτ
      | cons j τ =>
        have hle := hearlier j τ e' hτ
        rcases cons_lt_cons_iff.mp hlt with hji | ⟨rfl, hless⟩
        · omega
        · cases hτ with
          | stop hj => cases hnum.unique hmem hj
          | down hj hrest =>
            obtain rfl := Turn.down.inj (hnum.unique hmem hj)
            exact hfirst τ e' hrest hless

end XSBEngine.Library
