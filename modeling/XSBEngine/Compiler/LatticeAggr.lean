import Mathlib
import XSBEngine.Library.Subsumption

/-!
# Tabling with lattice aggregation

`XSB/cmplib/cp_opt.P:376–462, 545–552`. The clause that is generated for a predicate with a lattice
joins the value of a derivation with those of the answers in the table. Derivations are
unconditional, so that the part for undefined ones is left out.
-/

namespace XSBEngine.Compiler

open Subsumption

/-- The terms in the group-by variables of the call, and the aggregated value. -/
structure Return (F L : Type*) where
  vars : List (Term F)
  value : L
deriving DecidableEq

/-- The answers in the table, and the second argument of `ifUndef(XX,YY)`: whether variables have
been seen in group-by values. -/
structure AggrCall (F L : Type*) where
  answers : List (Return F L)
  yy : Bool

section Values

variable {F L : Type*} [DecidableEq F] {ds : List (Return F L)} {d : Return F L}
  {vars : List (Term F)}

/-- The values that have been derived for a tuple, up to variance. -/
def valuesFor (ds : List (Return F L)) (vars : List (Term F)) : List L :=
  (ds.filter fun d => isVariant d.vars vars).map Return.value

theorem valuesFor_cons : valuesFor (d :: ds) vars =
    (if isVariant d.vars vars then [d.value] else []) ++ valuesFor ds vars := by
  rw [valuesFor, List.filter_cons]
  split <;> rfl

theorem valuesFor_append (ds es : List (Return F L)) (vars : List (Term F)) :
    valuesFor (ds ++ es) vars = valuesFor ds vars ++ valuesFor es vars := by
  rw [valuesFor, List.filter_append, List.map_append]
  rfl

/-- A tuple has been derived, and it is not an instance of a more general one. -/
def MostGeneral (ds : List (Return F L)) (vars : List (Term F)) : Prop :=
  (∃ d ∈ ds, Variant d.vars vars) ∧
    ∀ d ∈ ds, Instance vars d.vars → Instance d.vars vars

theorem valuesFor_ne_nil (h : MostGeneral ds vars) : valuesFor ds vars ≠ [] := by
  obtain ⟨d, hd, hvar⟩ := h.1
  refine List.ne_nil_of_mem (List.mem_map.mpr ⟨d, List.mem_filter.mpr ⟨hd, ?_⟩, rfl⟩)
  exact isVariant_iff.mpr hvar

end Values

variable {F L : Type*} [DecidableEq F] [SemilatticeSup L] [DecidableEq L]

namespace AggrCall

/-- A return is added if no variant of it is in the table. -/
def addAnswer (answers : List (Return F L)) (ret : Return F L) : List (Return F L) :=
  if answers.any fun a => isVariant a.vars ret.vars && a.value = ret.value then answers
  else answers ++ [ret]

/-- The path for ground group-by values: the answer for them is replaced by the join. -/
def groundPath (answers : List (Return F L)) (vars : List (Term F)) (var₁ : L) :
    List (Return F L) :=
  match answers.find? fun leaf => subsumesChk leaf.vars vars with
  | some leaf =>
    let var := leaf.value ⊔ var₁
    if var = leaf.value then answers
    else addAnswer (answers.eraseP fun leaf => subsumesChk leaf.vars vars) ⟨vars, var⟩
  | none => addAnswer answers ⟨vars, var₁⟩

/-- The path once variables have been seen. -/
def subsumptionPath (answers : List (Return F L)) (vars : List (Term F)) (var₁ : L) :
    List (Return F L) :=
  if answers.any fun leaf => subsumesChk leaf.vars vars && leaf.value ⊔ var₁ = leaf.value then
    answers -- a subsuming answer is as good or better
  else
    addAnswer (answers.filter fun leaf =>
      !(subsumesChk vars leaf.vars && leaf.value ⊔ var₁ ≠ leaf.value)) ⟨vars, var₁⟩

/-- The body of the clause after one solution of `Pred1Term`. -/
def derive (call : AggrCall F L) (d : Return F L) : AggrCall F L :=
  if !call.yy && groundAll d.vars then ⟨groundPath call.answers d.vars d.value, call.yy⟩
  else ⟨subsumptionPath call.answers d.vars d.value, true⟩

/-- The states of a call after derivations. Answers are enumerated in any order. -/
inductive Run : List (Return F L) → AggrCall F L → Prop
  | nil : Run [] ⟨[], false⟩
  | derive {ds : List (Return F L)} {call : AggrCall F L} (d : Return F L) :
    Run ds call → Run (ds ++ [d]) (call.derive d)
  | perm {ds : List (Return F L)} {call : AggrCall F L} {answers : List (Return F L)} :
    Run ds call → answers.Perm call.answers → Run ds ⟨answers, call.yy⟩

end AggrCall

/-! ### What the table should hold -/

/-- A value is the join of a list of values. -/
def IsJoin (values : List L) (v : L) : Prop := IsLUB {w | w ∈ values} v

/-- There is one answer for a tuple, with the join of its values. -/
def JoinedAnswer (ds answers : List (Return F L)) (vars : List (Term F)) : Prop :=
  ∃ a, answers.filter (fun a => isVariant a.vars vars) = [a] ∧ IsJoin (valuesFor ds vars) a.value

/-- The derivations before the first one with variables. -/
def groundDerivations (ds : List (Return F L)) : List (Return F L) :=
  ds.takeWhile fun d => groundAll d.vars

/-- The derivations from the first one with variables on. -/
def laterDerivations (ds : List (Return F L)) : List (Return F L) :=
  ds.dropWhile fun d => groundAll d.vars

/-- The join of the values for a tuple is the join of the ones before variables have been seen, or
one of those that have been derived later. -/
def JoinKept (ds : List (Return F L)) (vars : List (Term F)) : Prop :=
  ∃ v, IsJoin (valuesFor ds vars) v ∧
    (IsJoin (valuesFor (groundDerivations ds) vars) v ∨ v ∈ valuesFor (laterDerivations ds) vars)

end XSBEngine.Compiler
