import Mathlib
import XSBEngine.Builtins.CycleTrail
import XSBEngine.Library.Unfolding

/-!
# What the cycle trail sees

The traversals of the cycle trail as searches through the unfolding of a term, in a heap that does
not change.
-/

namespace XSBEngine.Builtins.CycleTrail

open Function List

open Heap (CString Psc Cell deref getStrPsc)
open Library

/-! ### Terms -/

/-- The cells of the arguments. -/
def args (mem : Nat → Cell) : Cell → List Cell
  | .list a => [mem a, mem (a + 1)]
  | .cs a =>
    match getStrPsc mem a with
    | some psc => (List.range psc.arity).map fun j => mem (a + 1 + j)
    | none => []
  | _ => []

/-- A compound term is an argument of another one. -/
def Edge (mem : Nat → Cell) (n : Nat) (c w : Cell) : Prop :=
  isCompound w ∧ ∃ x ∈ args mem c, derefCell mem n x = .ok w

/-- A term of the heap, with its compound subterms: no chain of references is longer than the
number, and none leads to a word that is no cell of a term. -/
structure HeapTerm (mem : Nat → Cell) (n : Nat) (nodes : Finset Cell) (term : Cell) : Prop where
  root : ∃ c, derefCell mem n term = .ok c ∧ (isCompound c → c ∈ nodes)
  compound : ∀ c ∈ nodes, isCompound c
  functor : ∀ a, Cell.cs a ∈ nodes → ∃ psc, mem a = .functor psc
  args : ∀ c ∈ nodes, ∀ x ∈ args mem c,
    ∃ w, derefCell mem n x = .ok w ∧ (isCompound w → w ∈ nodes)

/-- A cycle is reached from a compound term. -/
def CyclicFrom (mem : Nat → Cell) (n : Nat) (c : Cell) : Prop :=
  ∃ w, Relation.ReflTransGen (Edge mem n) c w ∧ Relation.TransGen (Edge mem n) w w

/-- A variable occurs in a compound term. -/
def VariableIn (mem : Nat → Cell) (n : Nat) (c : Cell) : Prop :=
  ∃ w, Relation.ReflTransGen (Edge mem n) c w ∧
    ∃ x ∈ args mem w, ∃ v, derefCell mem n x = .ok v ∧ isVariable v

/-- Interned terms are ground and have no cycles. -/
def InternsOK (isinternstr : Cell → Bool) (mem : Nat → Cell) (n : Nat) (nodes : Finset Cell) :
    Prop :=
  ∀ c ∈ nodes, isinternstr c → ¬ CyclicFrom mem n c ∧ ¬ VariableIn mem n c

/-! ### Turns -/

/-- The addresses that `XSB_Deref` reads. -/
def refCells (mem : Nat → Cell) : Nat → Cell → List Nat
  | 0, _ => []
  | n + 1, .ref a => a :: if mem a = .ref a then [] else refCells mem n (mem a)
  | n + 1, .attv a => a :: if mem a = .ref a then [] else refCells mem n (mem a)
  | _ + 1, _ => []

/-- The addresses that are read for an argument. The first cell of a list is in the frame. -/
def argCells (mem : Nat → Cell) (n : Nat) (c : Cell) (i : Nat) : List Nat :=
  if i = 0 then refCells mem n (mem (clrefVal c))
  else (clrefVal c + i) :: refCells mem n (mem (clrefVal c + i))

/-- What a traversal comes to: a variable that makes it fail, a compound term that is on the path
or begins with the atom `_$visited`, and the end of a structure whose number of arguments is 255
as a byte, behind which the counter is 0 again. -/
inductive Encounter where
  | leaf
  | visited
  | wide
deriving DecidableEq

/-- The first cells of the compound terms of a path. -/
def addrs (p : List Cell) : List Nat := p.map clrefVal

/-- Where an argument of a compound term leads, seen from a path. References through the first
cell of a compound term of the path lead nowhere. -/
def turnAt (v : Visits) (mem : Nat → Cell) (n : Nat) (p : List Cell) (c : Cell) (i : Nat) :
    Option (Turn Cell Encounter) :=
  if ∃ a ∈ argCells mem n c i, a ∈ addrs p then none
  else
    match derefCell mem n (mem (clrefVal c + i)) with
    | .error _ => none
    | .ok w =>
      if isCompound w then
        if v.skips w then none
        else if clrefVal w ∈ addrs p ∨ mem (clrefVal w) = visitedString then some (.stop .visited)
        else some (.down w)
      else if v.fails w then some (.stop .leaf)
      else none

/-- The number of the first argument. -/
def firstArg : Cell → Nat
  | .list _ => 0
  | _ => 1

/-- The number of the last argument that is seen: that of the tail of a list, and the arity of a
structure as a byte. -/
def lastArg (mem : Nat → Cell) : Cell → Nat
  | .cs a =>
    match getStrPsc mem a with
    | some psc => psc.arity % 256
    | none => 0
  | _ => 1

/-- The turns at the arguments from a number on. -/
def turnsFrom (v : Visits) (mem : Nat → Cell) (n : Nat) (c : Cell) (p : List Cell) (i : Nat) :
    List (Nat × Turn Cell Encounter) :=
  (List.range' i (lastArg mem c + 1 - i)).filterMap
      (fun i => (turnAt v mem n (c :: p) c i).map fun t => (i, t)) ++
    if lastArg mem c = 255 then [(256, .stop .wide)] else []

/-- The turns from a path. -/
def turns (v : Visits) (mem : Nat → Cell) (n : Nat) : List Cell → List (Nat × Turn Cell Encounter)
  | [] => []
  | c :: p => turnsFrom v mem n c p (firstArg c)

variable {v : Visits} {mem : Nat → Cell} {n d i : Nat} {nodes : Finset Cell} {p : List Cell}
  {c w x term : Cell} {fr : List CycleTrailFrame} {s s' back : State} {r : Option Encounter}
  {σ : List Nat} {e : Encounter} {t : Turn Cell Encounter}

theorem lastArg_le (mem : Nat → Cell) (c : Cell) : lastArg mem c ≤ 255 := by
  unfold lastArg
  split
  · split <;> omega
  · omega

theorem turns_numbered : Numbered (turns v mem n) := by
  intro p
  cases p with
  | nil => exact .nil
  | cons c p =>
    refine pairwise_append.mpr ⟨?_, ?_, ?_⟩
    · apply List.Pairwise.filterMap _ _ (pairwise_lt_range' 1 Nat.one_pos)
      intro i j hij t ht u hu
      obtain ⟨t', -, rfl⟩ := Option.map_eq_some_iff.mp ht
      obtain ⟨u', -, rfl⟩ := Option.map_eq_some_iff.mp hu
      exact hij
    · split
      · exact pairwise_singleton _ _
      · exact .nil
    · intro t ht u hu
      obtain ⟨i, hi, hit⟩ := mem_filterMap.mp ht
      obtain ⟨t', -, rfl⟩ := Option.map_eq_some_iff.mp hit
      have hrange := mem_range'_1.mp hi
      have hlast := lastArg_le mem c
      split at hu
      · rw [mem_singleton.mp hu]
        show i < 256
        omega
      · cases hu

/-! ### The marked heap -/

/-- The heap in which the first cells of the compound terms of a path are marked. -/
def markedHeap (mem : Nat → Cell) (p : List Cell) (a : Nat) : Cell :=
  if a ∈ addrs p then visitedString else mem a

theorem markedHeap_nil : markedHeap mem [] = mem := rfl

theorem markedHeap_cons :
    update (markedHeap mem p) (clrefVal c) visitedString = markedHeap mem (c :: p) := by
  funext a
  by_cases ha : a = clrefVal c
  · have hmem : clrefVal c ∈ addrs (c :: p) := mem_cons_self
    rw [ha, update_self, markedHeap, if_pos hmem]
  · rw [update_of_ne ha, markedHeap, markedHeap]
    congr 1
    exact propext ⟨mem_cons_of_mem _, fun h => (mem_cons.mp h).resolve_left ha⟩

theorem markedHeap_restore (hc : clrefVal c ∉ addrs p) :
    update (markedHeap mem (c :: p)) (clrefVal c) (mem (clrefVal c)) =
      markedHeap mem p := by
  funext a
  by_cases ha : a = clrefVal c
  · rw [ha, update_self, markedHeap, if_neg hc]
  · rw [update_of_ne ha, ← markedHeap_cons, update_of_ne ha]

/-- A chain of references through a marked cell ends there. -/
theorem deref_markedHeap (h : deref mem n x = some w) :
    deref (markedHeap mem p) (n + 1) x =
      some (if ∃ a ∈ refCells mem n x, a ∈ addrs p then visitedString else w) := by
  induction n generalizing x with
  | zero => cases h
  | succ n ih =>
    -- the cell that a reference or an attributed variable leads to
    have hfollow : ∀ a y, (if mem a = .ref a then some y else deref mem n (mem a)) = some w →
        (if markedHeap mem p a = .ref a then some y
          else deref (markedHeap mem p) (n + 1) (markedHeap mem p a)) =
        some (if ∃ b ∈ a :: if mem a = .ref a then [] else refCells mem n (mem a), b ∈ addrs p
          then visitedString else w) := by
      intro a y hy
      by_cases ha : a ∈ addrs p
      · have hmark : markedHeap mem p a = visitedString := if_pos ha
        rw [hmark, if_neg nofun, if_pos ⟨a, mem_cons_self, ha⟩]
        rfl
      · have hsame : markedHeap mem p a = mem a := if_neg ha
        rw [hsame]
        split at hy
        next hself =>
          rw [if_pos hself, if_pos hself, if_neg]
          · exact hy
          · rintro ⟨b, hb, hbp⟩
            exact ha (mem_singleton.mp hb ▸ hbp)
        next hself =>
          rw [if_neg hself, if_neg hself, ih hy]
          congr 2
          refine propext ⟨fun ⟨b, hb, hbp⟩ => ⟨b, mem_cons_of_mem a hb, hbp⟩, ?_⟩
          rintro ⟨b, hb, hbp⟩
          rcases mem_cons.mp hb with rfl | hb
          · exact absurd hbp ha
          · exact ⟨b, hb, hbp⟩
    cases x with
    | ref a | attv a => exact hfollow a _ h
    | int i | float f | string s | list a | cs a | functor psc => simpa [deref, refCells] using h

theorem derefCell_eq (h : derefCell mem n x = .ok w) :
    deref mem n x = some w ∧ ∀ psc, w ≠ .functor psc := by
  rw [derefCell] at h
  split at h
  next => cases h
  next => cases h
  next term hpsc hterm =>
    cases h
    exact ⟨hterm, hpsc⟩

theorem derefCell_of_deref (h : deref mem n x = some w) (hpsc : ∀ psc, w ≠ .functor psc) :
    derefCell mem n x = .ok w := by
  rw [derefCell, h]
  split
  next heq => cases heq
  next psc heq => exact absurd (Option.some.inj heq) (hpsc psc)
  next term _ heq => rw [Option.some.inj heq]

/-- An argument in the marked heap. -/
theorem derefCell_markedHeap (h : derefCell mem n x = .ok w) :
    derefCell (markedHeap mem p) (n + 1) x =
      .ok (if ∃ a ∈ refCells mem n x, a ∈ addrs p then visitedString else w) := by
  obtain ⟨hderef, hpsc⟩ := derefCell_eq h
  apply derefCell_of_deref (deref_markedHeap hderef)
  intro psc
  split
  next => exact nofun
  next => exact hpsc psc

/-- A larger bound gives the same result. -/
theorem derefCell_succ (h : derefCell mem n x = .ok w) : derefCell mem (n + 1) x = .ok w := by
  have hnil := derefCell_markedHeap (p := []) h
  rw [markedHeap_nil, if_neg fun ⟨a, _, ha⟩ => not_mem_nil ha] at hnil
  exact hnil

/-! ### Nodes -/

theorem eq_list_or_cs (h : isCompound c) : (∃ a, c = .list a) ∨ ∃ a, c = .cs a := by
  cases c with
  | list a => exact Or.inl ⟨a, rfl⟩
  | cs a => exact Or.inr ⟨a, rfl⟩
  | ref a | attv a | int i | float f | string s | functor psc => cases h

namespace HeapTerm

section

variable (h : HeapTerm mem n nodes term)
include h

theorem getStrPsc_eq {a : Nat} (ha : .cs a ∈ nodes) :
    ∃ psc, getStrPsc mem a = some psc ∧ mem a = .functor psc := by
  obtain ⟨psc, hpsc⟩ := h.functor a ha
  exact ⟨psc, by rw [getStrPsc, hpsc], hpsc⟩

/-- A list does not begin with a PSC record. -/
theorem head_ne_functor {a : Nat} (ha : .list a ∈ nodes) (psc : Heap.Psc) :
    mem a ≠ .functor psc := by
  intro hpsc
  obtain ⟨w, hw, -⟩ := h.args _ ha (mem a) mem_cons_self
  rw [hpsc] at hw
  obtain ⟨hderef, hne⟩ := derefCell_eq hw
  cases n with
  | zero => cases hderef
  | succ n =>
    cases hderef
    exact hne psc rfl

/-- Compound terms that begin with the same cell are the same. -/
theorem clrefVal_inj (hc : c ∈ nodes) (hw : w ∈ nodes)
    (heq : clrefVal c = clrefVal w) : c = w := by
  rcases eq_list_or_cs (h.compound c hc) with ⟨a, rfl⟩ | ⟨a, rfl⟩
  · rcases eq_list_or_cs (h.compound w hw) with ⟨b, rfl⟩ | ⟨b, rfl⟩
    · exact congrArg Cell.list heq
    · obtain rfl : a = b := heq
      obtain ⟨psc, hpsc⟩ := h.functor a hw
      exact absurd hpsc (h.head_ne_functor hc psc)
  · rcases eq_list_or_cs (h.compound w hw) with ⟨b, rfl⟩ | ⟨b, rfl⟩
    · obtain rfl : a = b := heq
      obtain ⟨psc, hpsc⟩ := h.functor a hc
      exact absurd hpsc (h.head_ne_functor hw psc)
    · exact congrArg Cell.cs heq

/-- The arguments that are seen are arguments. -/
theorem mem_args (hc : c ∈ nodes) (hfirst : firstArg c ≤ i)
    (hlast : i ≤ lastArg mem c) : mem (clrefVal c + i) ∈ CycleTrail.args mem c := by
  rcases eq_list_or_cs (h.compound c hc) with ⟨a, rfl⟩ | ⟨a, rfl⟩
  · have hi : i ≤ 1 := hlast
    rcases i with _ | _ | i
    · exact mem_cons_self
    · exact mem_cons_of_mem _ mem_cons_self
    · omega
  · obtain ⟨psc, hpsc, -⟩ := h.getStrPsc_eq hc
    have hfirst' : 1 ≤ i := hfirst
    have hmod : psc.arity % 256 ≤ psc.arity := Nat.mod_le _ _
    simp only [lastArg, hpsc] at hlast
    simp only [CycleTrail.args, hpsc, mem_map, mem_range]
    refine ⟨i - 1, by omega, ?_⟩
    rw [show a + 1 + (i - 1) = clrefVal (.cs a) + i by show _ = a + i; omega]

/-- Where the arguments that are seen lead. -/
theorem argument (hc : c ∈ nodes) (hfirst : firstArg c ≤ i)
    (hlast : i ≤ lastArg mem c) : ∃ w, derefCell mem n (mem (clrefVal c + i)) = .ok w ∧
      (isCompound w → w ∈ nodes) :=
  h.args c hc _ (h.mem_args hc hfirst hlast)

end

end HeapTerm

/-! ### Frames -/

/-- The frame of a compound term whose argument of a number is next. -/
def frameAt (mem : Nat → Cell) (c : Cell) (i : Nat) : CycleTrailFrame where
  cellAddr := clrefVal c
  value := mem (clrefVal c)
  argNum := i % 256
  arity := lastArg mem c
  parent := c

/-- The frames of a path. -/
inductive Frames (mem : Nat → Cell) : List Cell → List CycleTrailFrame → Prop where
  | nil : Frames mem [] []
  | cons {c : Cell} {p : List Cell} {fr : List CycleTrailFrame} (i : Nat) : Frames mem p fr →
      Frames mem (c :: p) (frameAt mem c i :: fr)

/-- A path goes through compound terms that begin with different cells. -/
structure PathOK (nodes : Finset Cell) (p : List Cell) : Prop where
  sub : ∀ c ∈ p, c ∈ nodes
  nodup : (addrs p).Nodup

namespace PathOK

theorem head_mem (h : PathOK nodes (c :: p)) : c ∈ nodes := h.sub c mem_cons_self

theorem head_notMem (h : PathOK nodes (c :: p)) : clrefVal c ∉ addrs p :=
  (nodup_cons.mp h.nodup).1

theorem tail (h : PathOK nodes (c :: p)) : PathOK nodes p where
  sub w hw := h.sub w (mem_cons_of_mem c hw)
  nodup := (nodup_cons.mp h.nodup).2

theorem cons (h : PathOK nodes p) (hc : c ∈ nodes) (hnot : clrefVal c ∉ addrs p) :
    PathOK nodes (c :: p) where
  sub w hw := by
    rcases mem_cons.mp hw with rfl | hw
    · exact hc
    · exact h.sub w hw
  nodup := nodup_cons.mpr ⟨hnot, h.nodup⟩

theorem singleton (hc : c ∈ nodes) : PathOK nodes [c] where
  sub _ hw := mem_singleton.mp hw ▸ hc
  nodup := nodup_singleton _

theorem length_le (h : PathOK nodes p) : p.length ≤ nodes.card := by
  have hnodup : p.Nodup := List.Nodup.of_map clrefVal h.nodup
  classical
  rw [← toFinset_card_of_nodup hnodup]
  apply Finset.card_le_card
  intro c hc
  exact h.sub c (mem_toFinset.mp hc)

end PathOK

/-- Unwinding the trail restores the heap. -/
theorem unwind_markedHeap (hp : PathOK nodes p) (hfr : Frames mem p fr) :
    State.unwind (markedHeap mem p) fr = mem := by
  induction hfr with
  | nil => rfl
  | cons i hfr ih =>
    rw [State.unwind]
    show State.unwind (update _ (clrefVal _) (mem (clrefVal _))) _ = mem
    rw [markedHeap_restore hp.head_notMem]
    exact ih hp.tail

/-! ### Rounds of the loop -/

/-- On a path, an argument of its last compound term is next. -/
def nextArg (mem : Nat → Cell) (c : Cell) (p : List Cell) (fr : List CycleTrailFrame) (i : Nat) :
    State :=
  ⟨markedHeap mem (c :: p), frameAt mem c i :: fr, none⟩

theorem leave_eq (hp : PathOK nodes p) (hfr : Frames mem p fr) (b : Bool) :
    State.leave ⟨markedHeap mem p, fr, none⟩ b = ⟨mem, [], some b⟩ := by
  rw [State.leave, unwind_markedHeap hp hfr]

/-- A compound term is put on the trail. -/
theorem push_eq (h : HeapTerm mem n nodes term) (hc : c ∈ nodes) (hnot : clrefVal c ∉ addrs p) :
    State.push ⟨markedHeap mem p, fr, none⟩ c = .ok (nextArg mem c p fr (firstArg c)) := by
  have hsame : markedHeap mem p (clrefVal c) = mem (clrefVal c) := if_neg hnot
  have hframe : newFrame (markedHeap mem p) c = .ok (frameAt mem c (firstArg c)) := by
    rcases eq_list_or_cs (h.compound c hc) with ⟨a, rfl⟩ | ⟨a, rfl⟩
    · simp only [newFrame, hsame]
      rfl
    · obtain ⟨psc, hpsc, -⟩ := h.getStrPsc_eq hc
      have hsame' : markedHeap mem p a = mem a := hsame
      have hpsc' : getStrPsc (markedHeap mem p) a = some psc := by
        rw [getStrPsc, hsame', ← getStrPsc, hpsc]
      simp only [newFrame, hpsc', hsame', frameAt, lastArg, hpsc]
      rfl
  simp only [State.push, hframe, markedHeap_cons]
  rfl

/-- The cell of an argument, as the loop reads it. -/
theorem derefCell_argument (hw : derefCell mem n (mem (clrefVal c + i)) = .ok w) :
    derefCell (markedHeap mem p) (n + 1)
        (if i = 0 then mem (clrefVal c) else markedHeap mem p (clrefVal c + i)) =
      .ok (if ∃ a ∈ argCells mem n c i, a ∈ addrs p then visitedString else w) := by
  unfold argCells
  split
  next hi =>
    subst hi
    exact derefCell_markedHeap hw
  next hi =>
    by_cases hmark : clrefVal c + i ∈ addrs p
    · rw [markedHeap, if_pos hmark, if_pos ⟨_, mem_cons_self, hmark⟩]
      rfl
    · rw [markedHeap, if_neg hmark, derefCell_markedHeap hw]
      congr 2
      refine propext ⟨fun ⟨b, hb, hbp⟩ => ⟨b, mem_cons_of_mem _ hb, hbp⟩, ?_⟩
      rintro ⟨b, hb, hbp⟩
      rcases mem_cons.mp hb with rfl | hb
      · exact absurd hbp hmark
      · exact ⟨b, hb, hbp⟩

/-- A round of the loop looks at one argument. -/
theorem step_argument (h : HeapTerm mem n nodes term) (hp : PathOK nodes (c :: p))
    (hfr : Frames mem p fr) (hvisited : v.fails visitedString = false) (hfirst : firstArg c ≤ i)
    (hlast : i ≤ lastArg mem c) :
    step v (n + 1) (nextArg mem c p fr i) =
      match turnAt v mem n (c :: p) c i with
      | none => .ok (nextArg mem c p fr (i + 1))
      | some (.down w) =>
        .ok (nextArg mem w (c :: p) (frameAt mem c (i + 1) :: fr) (firstArg w))
      | some (.stop .leaf) => .ok ⟨mem, [], some false⟩
      | some (.stop _) => .ok ⟨mem, [], some v.atVisited⟩ := by
  obtain ⟨w, hw, hnode⟩ := h.argument hp.head_mem hfirst hlast
  have hbyte := lastArg_le mem c
  have hi : i % 256 = i := Nat.mod_eq_of_lt (by omega)
  have hfr' : Frames mem (c :: p) (frameAt mem c (i + 1) :: fr) := .cons (i + 1) hfr
  have hframe : ({ frameAt mem c i with argNum := ((frameAt mem c i).argNum + 1) % 256 } :
      CycleTrailFrame) = frameAt mem c (i + 1) := by
    show frameAt mem c (i % 256 + 1) = frameAt mem c (i + 1)
    rw [hi]
  have hcell : derefCell (markedHeap mem (c :: p)) (n + 1)
      (if (frameAt mem c i).argNum = 0 then (frameAt mem c i).value
        else markedHeap mem (c :: p) (clrefVal (frameAt mem c i).parent +
          (frameAt mem c i).argNum)) =
      .ok (if ∃ a ∈ argCells mem n c i, a ∈ addrs (c :: p) then visitedString else w) := by
    show derefCell (markedHeap mem (c :: p)) (n + 1) (if i % 256 = 0 then mem (clrefVal c)
      else markedHeap mem (c :: p) (clrefVal c + i % 256)) = _
    rw [hi]
    exact derefCell_argument hw
  have harity : ¬ (frameAt mem c i).arity < (frameAt mem c i).argNum := by
    show ¬ lastArg mem c < i % 256
    omega
  rw [step]
  simp only [nextArg, if_neg harity, hframe, hcell, turnAt, hw]
  by_cases hblocked : ∃ a ∈ argCells mem n c i, a ∈ addrs (c :: p)
  case pos =>
    simp only [if_pos hblocked, hvisited]
    rfl
  case neg =>
    simp only [if_neg hblocked]
    by_cases hcomp : isCompound w
    case pos =>
      simp only [hcomp, if_true]
      cases hskip : v.skips w with
      | true => rfl
      | false =>
        have hmark : markedHeap mem (c :: p) (clrefVal w) = visitedString ↔
            clrefVal w ∈ addrs (c :: p) ∨ mem (clrefVal w) = visitedString := by
          rw [markedHeap]
          split
          next hin => simp [hin]
          next hin => simp [hin]
        simp only [hmark, Bool.false_eq_true, if_false]
        by_cases hvis : clrefVal w ∈ addrs (c :: p) ∨ mem (clrefVal w) = visitedString
        case pos =>
          simp only [if_pos hvis]
          rw [leave_eq hp hfr']
        case neg =>
          simp only [if_neg hvis]
          exact push_eq h (hnode hcomp) fun hin => hvis (Or.inl hin)
    case neg =>
      simp only [hcomp, Bool.false_eq_true, if_false]
      cases hfail : v.fails w with
      | true =>
        simp only [if_true]
        rw [leave_eq hp hfr']
      | false => rfl

/-- Behind the last argument the frame is popped, or the counter is 0 again. -/
theorem step_end (h : HeapTerm mem n nodes term) (hp : PathOK nodes (c :: p)) :
    step v (n + 1) (nextArg mem c p fr (lastArg mem c + 1)) =
      if lastArg mem c = 255 then .error .psc else .ok ⟨markedHeap mem p, fr, none⟩ := by
  have hbyte := lastArg_le mem c
  rw [step]
  by_cases hwide : lastArg mem c = 255
  case pos =>
    have harg : (frameAt mem c (lastArg mem c + 1)).argNum = 0 := by
      show (lastArg mem c + 1) % 256 = 0
      rw [hwide]
    rcases eq_list_or_cs (h.compound c hp.head_mem) with ⟨a, rfl⟩ | ⟨a, rfl⟩
    · have hone : lastArg mem (.list a) = 1 := rfl
      omega
    · obtain ⟨psc, hpsc⟩ := h.functor a hp.head_mem
      have hvalue : (frameAt mem (.cs a) (lastArg mem (.cs a) + 1)).value = .functor psc := hpsc
      simp only [nextArg, harg, hvalue, Nat.not_lt_zero, if_false, if_true, if_pos hwide]
      rfl
  case neg =>
    have harity : (frameAt mem c (lastArg mem c + 1)).arity <
        (frameAt mem c (lastArg mem c + 1)).argNum := by
      show lastArg mem c < (lastArg mem c + 1) % 256
      omega
    simp only [nextArg, if_pos harity, if_neg hwide]
    show Except.ok (State.mk (update _ (clrefVal c) (mem (clrefVal c))) fr none) = _
    rw [markedHeap_restore hp.head_notMem]

/-! ### The search -/

/-- What a search below a compound term ends in: back on the path, or where its first encounter
leads. -/
def Comes (v : Visits) (n : Nat) (mem : Nat → Cell) (s back : State) : Option Encounter → Prop
  | none => (loop v n).Reaches s back
  | some .leaf => (loop v n).Reaches s ⟨mem, [], some false⟩
  | some .visited => (loop v n).Reaches s ⟨mem, [], some v.atVisited⟩
  | some .wide => ∃ s', (loop v n).Reaches s s' ∧ s'.result = none ∧ step v n s' = .error .psc

theorem Comes.of_reaches (hr : (loop v n).Reaches s s') (h : Comes v n mem s' back r) :
    Comes v n mem s back r := by
  match r with
  | none => exact hr.trans h
  | some .leaf => exact hr.trans h
  | some .visited => exact hr.trans h
  | some .wide =>
    obtain ⟨s₁, hs1, hresult, hstep⟩ := h
    exact ⟨s₁, hr.trans hs1, hresult, hstep⟩

theorem not_halted (hresult : s.result = none) : (loop v n).halted s = false := by
  show s.result.isSome = false
  rw [hresult]
  rfl

/-- A round that goes on. -/
theorem reaches_step (hresult : s.result = none) (hstep : step v n s = .ok s') :
    (loop v n).Reaches s s' :=
  .step (not_halted hresult) hstep (.refl s')

/-- The turns that lead down. -/
theorem turnAt_down (h : HeapTerm mem n nodes term) (hc : c ∈ nodes) (hfirst : firstArg c ≤ i)
    (hlast : i ≤ lastArg mem c) (hturn : turnAt v mem n p c i = some (.down w)) :
    isCompound w ∧ derefCell mem n (mem (clrefVal c + i)) = .ok w ∧ w ∈ nodes ∧
      clrefVal w ∉ addrs p ∧ v.skips w = false := by
  obtain ⟨w', hw', hnode⟩ := h.argument hc hfirst hlast
  rw [turnAt] at hturn
  split at hturn
  next => cases hturn
  next =>
    rw [hw'] at hturn
    simp only at hturn
    split at hturn
    next hcomp =>
      split at hturn
      next => cases hturn
      next hskip =>
        split at hturn
        next => cases hturn
        next hvis =>
          cases hturn
          exact ⟨hcomp, hw', hnode hcomp, fun hin => hvis (Or.inl hin), by simpa using hskip⟩
    next => split at hturn <;> cases hturn

/-- The turns that stop. -/
theorem turnAt_stop (hturn : turnAt v mem n p c i = some (.stop e)) :
    ∃ w, derefCell mem n (mem (clrefVal c + i)) = .ok w ∧
      (e = .leaf ∧ isCompound w = false ∧ v.fails w ∨
        e = .visited ∧ isCompound w ∧ v.skips w = false ∧
          (clrefVal w ∈ addrs p ∨ mem (clrefVal w) = visitedString)) := by
  rw [turnAt] at hturn
  split at hturn
  next => cases hturn
  next =>
    split at hturn
    next => cases hturn
    next w hw =>
      refine ⟨w, hw, ?_⟩
      split at hturn
      next hcomp =>
        split at hturn
        next => cases hturn
        next hskip =>
          split at hturn
          next hvis =>
            cases hturn
            exact Or.inr ⟨rfl, hcomp, by simpa using hskip, hvis⟩
          next => cases hturn
      next hcomp =>
        split at hturn
        next hfails =>
          cases hturn
          exact Or.inl ⟨rfl, by simpa using hcomp, hfails⟩
        next => cases hturn

theorem turnsFrom_end : turnsFrom v mem n c p (lastArg mem c + 1) =
    if lastArg mem c = 255 then [(256, .stop .wide)] else [] := by
  rw [turnsFrom, Nat.sub_self]
  rfl

theorem turnsFrom_step (hlast : i ≤ lastArg mem c) :
    turnsFrom v mem n c p i = ((turnAt v mem n (c :: p) c i).map fun t => (i, t)).toList ++
      turnsFrom v mem n c p (i + 1) := by
  rw [turnsFrom, turnsFrom, show lastArg mem c + 1 - i = lastArg mem c + 1 - (i + 1) + 1 by omega,
    List.range'_succ, filterMap_cons]
  cases turnAt v mem n (c :: p) c i <;> rfl

/-- The loop, from a compound term that has just been put on the trail. -/
theorem explores (h : HeapTerm mem n nodes term) (hvisited : v.fails visitedString = false)
    (hp : PathOK nodes (c :: p)) (hfr : Frames mem p fr)
    (hd : nodes.card < d + (c :: p).length) :
    Comes v (n + 1) mem (nextArg mem c p fr (firstArg c)) ⟨markedHeap mem p, fr, none⟩
      (search (turns v mem n) d (c :: p)) := by
  induction d generalizing c p fr with
  | zero =>
    have hlength := hp.length_le
    omega
  | succ d ih =>
    -- the arguments from a number on
    have hfrom : ∀ k i, firstArg c ≤ i → lastArg mem c + 1 = i + k →
        Comes v (n + 1) mem (nextArg mem c p fr i) ⟨markedHeap mem p, fr, none⟩
          ((turnsFrom v mem n c p i).findSome? fun t =>
            t.2.follow fun w => search (turns v mem n) d (w :: c :: p)) := by
      intro k
      induction k with
      | zero =>
        intro i _ hi
        obtain rfl : i = lastArg mem c + 1 := hi.symm
        have hend : step v (n + 1) (nextArg mem c p fr (lastArg mem c + 1)) =
            if lastArg mem c = 255 then .error .psc else .ok ⟨markedHeap mem p, fr, none⟩ :=
          step_end h hp
        rw [turnsFrom_end]
        by_cases hwide : lastArg mem c = 255
        case pos =>
          rw [if_pos hwide] at hend ⊢
          exact ⟨_, .refl _, rfl, hend⟩
        case neg =>
          rw [if_neg hwide] at hend ⊢
          exact reaches_step rfl hend
      | succ k ihk =>
        intro i hfirst hi
        have hlast : i ≤ lastArg mem c := by omega
        have hstep := step_argument h hp hfr hvisited hfirst hlast
        have hrest := ihk (i + 1) (by omega) (by omega)
        rw [turnsFrom_step hlast]
        cases hturn : turnAt v mem n (c :: p) c i with
        | none =>
          rw [hturn] at hstep
          exact hrest.of_reaches (reaches_step rfl hstep)
        | some t =>
          rw [hturn] at hstep
          cases t with
          | stop e =>
            cases e with
            | leaf | visited => exact reaches_step rfl hstep
            | wide =>
              obtain ⟨w, -, ⟨hfalse, -⟩ | ⟨hfalse, -⟩⟩ := turnAt_stop hturn
              · cases hfalse
              · cases hfalse
          | down w =>
            obtain ⟨-, -, hnode, hnot, -⟩ := turnAt_down h hp.head_mem hfirst hlast hturn
            have hbelow := ih (hp.cons hnode hnot) (.cons (i + 1) hfr)
              (by simp only [length_cons] at hd ⊢; omega)
            have hdown := reaches_step (s := nextArg mem c p fr i) rfl hstep
            rw [List.findSome?_append]
            show Comes v (n + 1) mem _ _
              (([(i, Turn.down w)].findSome? fun t : Nat × Turn Cell Encounter =>
                t.2.follow fun w => search (turns v mem n) d (w :: c :: p)).or _)
            rw [List.findSome?_singleton, Turn.follow]
            cases hsearch : search (turns v mem n) d (w :: c :: p) with
            | none =>
              rw [hsearch] at hbelow
              exact hrest.of_reaches (hdown.trans hbelow)
            | some e =>
              rw [hsearch] at hbelow
              cases e with
              | leaf | visited => exact hdown.trans hbelow
              | wide => exact hbelow.of_reaches hdown
    have hall := hfrom (lastArg mem c + 1 - firstArg c) (firstArg c) (Nat.le_refl _) (by
      have hfirst : firstArg c ≤ 1 := by unfold firstArg; split <;> omega
      omega)
    exact hall

/-! ### Whole traversals -/

theorem mem_turns : (i, t) ∈ turns v mem n (c :: p) ↔
    (firstArg c ≤ i ∧ i ≤ lastArg mem c ∧ turnAt v mem n (c :: p) c i = some t) ∨
      (lastArg mem c = 255 ∧ i = 256 ∧ t = .stop .wide) := by
  rw [turns, turnsFrom, mem_append]
  apply or_congr
  · rw [mem_filterMap]
    constructor
    · rintro ⟨j, hj, hjt⟩
      obtain ⟨u, hu, heq⟩ := Option.map_eq_some_iff.mp hjt
      cases heq
      have hrange := mem_range'_1.mp hj
      exact ⟨by omega, by omega, hu⟩
    · rintro ⟨hfirst, hlast, hturn⟩
      refine ⟨i, mem_range'_1.mpr (by omega), ?_⟩
      rw [hturn]
      rfl
  · split
    next hwide => simp [hwide]
    next hwide => simp [hwide]

section

variable (h : HeapTerm mem n nodes term)
include h

/-- The turns from a path keep it a path, which gets longer. -/
theorem PathOK.down (hp : PathOK nodes p)
    (hturn : (i, .down w) ∈ turns v mem n p) : PathOK nodes (w :: p) := by
  cases p with
  | nil => cases hturn
  | cons c p =>
    rcases mem_turns.mp hturn with ⟨hfirst, hlast, hat⟩ | ⟨-, -, heq⟩
    · obtain ⟨-, -, hnode, hnot, -⟩ := turnAt_down h hp.head_mem hfirst hlast hat
      exact hp.cons hnode hnot
    · cases heq

/-- Encounters are not deeper than there are compound terms. -/
theorem meets_length_le (hc : c ∈ nodes)
    (hmeets : Meets (turns v mem n) [c] σ e) : σ.length ≤ nodes.card := by
  have hpath : PathOK nodes [c] := .singleton hc
  have hlength := hmeets.length_le (PathOK nodes) (fun p => nodes.card - p.length)
    (fun p i w hp hturn => by
      have hw := PathOK.down h hp hturn
      have hle := hw.length_le
      simp only [length_cons] at hle ⊢
      exact ⟨hw, by omega⟩) hpath
  have hle := hpath.length_le
  simp only [length_singleton] at hlength hle
  omega

/-- How a whole traversal ends is told by its first encounter. -/
theorem ends_iff (hvisited : v.fails visitedString = false)
    (hc : c ∈ nodes) (P : State → Prop) :
    ∃ s, State.push ⟨mem, [], none⟩ c = .ok s ∧
      ((loop v (n + 1)).Ends s P (fun _ => False) ↔
        match search (turns v mem n) nodes.card [c] with
        | none => P ⟨mem, [], some v.atEnd⟩
        | some .leaf => P ⟨mem, [], some false⟩
        | some .visited => P ⟨mem, [], some v.atVisited⟩
        | some .wide => False) := by
  have hpath : PathOK nodes [c] := .singleton hc
  have hcomes := explores (d := nodes.card) h hvisited hpath .nil (by simp)
  have hresult : ∀ {s b}, (loop v (n + 1)).Reaches s ⟨mem, [], some b⟩ →
      ((loop v (n + 1)).Ends s P (fun _ => False) ↔ P ⟨mem, [], some b⟩) := by
    intro s b hreach
    exact ⟨fun hends => (hends.reaches hreach).of_halted rfl, fun hP => hreach.ends rfl hP⟩
  have hpush : State.push ⟨markedHeap mem [], [], none⟩ c = .ok
    (nextArg mem c [] [] (firstArg c)) :=
    push_eq h hc (not_mem_nil (a := clrefVal c))
  rw [markedHeap_nil] at hpush
  refine ⟨nextArg mem c [] [] (firstArg c), hpush, ?_⟩
  cases hsearch : search (turns v mem n) nodes.card [c] with
  | none =>
    rw [hsearch] at hcomes
    have hend : step v (n + 1) ⟨markedHeap mem [], [], none⟩ = .ok ⟨mem, [], some v.atEnd⟩ := rfl
    exact hresult (hcomes.trans (reaches_step rfl hend))
  | some e =>
    rw [hsearch] at hcomes
    cases e with
    | leaf | visited => exact hresult hcomes
    | wide =>
      obtain ⟨s', hreach, hnone, hstep⟩ := hcomes
      constructor
      · intro hends
        exact (hends.reaches hreach).of_error (not_halted hnone) hstep
      · exact False.elim

/-- The first encounter, and none. -/
theorem search_cases (hc : c ∈ nodes) :
    (search (turns v mem n) nodes.card [c] = none ∧
        ∀ σ e, ¬ Meets (turns v mem n) [c] σ e) ∨
      ∃ e σ, search (turns v mem n) nodes.card [c] = some e ∧
        MeetsFirst (turns v mem n) [c] σ e := by
  have hdepth : ∀ σ e, Meets (turns v mem n) [c] σ e → σ.length ≤ nodes.card :=
    fun σ e => meets_length_le h hc
  cases hsearch : search (turns v mem n) nodes.card [c] with
  | none => exact Or.inl ⟨rfl, fun σ e => search_none hdepth hsearch⟩
  | some e =>
    obtain ⟨σ, hfirst⟩ := search_some turns_numbered hdepth hsearch
    exact Or.inr ⟨e, σ, rfl, hfirst⟩

end

end XSBEngine.Builtins.CycleTrail
