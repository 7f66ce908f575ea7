import XSBEngine.Library.Matching
import XSBEngine.Ranges.RangeTree

/-!
# Facts with range indexes

`XSB/lib/range_trees.P:372–540`: a predicate of ground facts with a range tree for each indexed
argument. The handle of a tree is made from the predicate and the position of the argument, so that
for one predicate the position stands for it.
-/

namespace XSBEngine.Ranges

open XSBEngine.Library

/-- A range specification: a variable, `Var:[Low,High]` with a fresh variable, or a constant. -/
inductive IndexArg (κ : Type*)
  | free
  | range (lo hi : κ)
  | value (v : κ)
deriving DecidableEq

/-- The facts of the predicate, its range trees, and the calls that are in the table of
`init_range_tree_if_nec/1`. -/
structure Database (κ : Type*) where
  facts : List (List κ)
  trees : Store Nat κ (List κ)
  tabled : Nat → Bool

/-- What stays the same: the order of facts in tries, the least and the greatest value, and the
positions of the key and of the indexed arguments. -/
structure RangeIndex (κ : Type*) where
  enum : Enumeration κ (List κ)
  minValue : κ
  maxValue : κ
  keyPos : List Nat
  indexPos : List Nat

/-- Why there is no result: the bound on the depth of calls, or an illegal range. -/
inductive Stop
  | bound
  | illegal
deriving DecidableEq

section Positions

variable {α : Type*}

/-- `arg`. -/
def arg : Nat → List α → Option α
  | 0, _ => none
  | i + 1, args => args[i]?

/-- `pos_to_val` and `arg_list`. -/
def posToVal : List Nat → List α → Option (List α)
  | [], _ => some []
  | i :: is, goal =>
    match arg i goal, posToVal is goal with
    | some v, some vs => some (v :: vs)
    | _, _ => none

end Positions

variable {κ : Type*} [LinearOrder κ]

namespace RangeIndex

variable (ri : RangeIndex κ)

/-- `extract_var_ranges`: the bindings, and `Los` with `His`. -/
def extractVarRanges : List (IndexArg κ) → List (Pattern κ) → Bindings κ →
    Except Stop (Option (Bindings κ × List (κ × κ)))
  | [], [], σ => .ok (some (σ, []))
  | .free :: args, _ :: vars, σ =>
    match extractVarRanges args vars σ with
    | .ok (some (τ, ranges)) => .ok (some (τ, (ri.minValue, ri.maxValue) :: ranges))
    | r => r
  | .range lo hi :: args, _ :: vars, σ =>
    if lo ≤ hi then
      match extractVarRanges args vars σ with
      | .ok (some (τ, ranges)) => .ok (some (τ, (lo, hi) :: ranges))
      | r => r
    else .error .illegal
  | .value v :: args, var :: vars, σ =>
    match var.unify v σ with
    | none => .ok none
    | some τ =>
      match extractVarRanges args vars τ with
      | .ok (some (υ, ranges)) => .ok (some (υ, (v, v) :: ranges))
      | r => r
  | [], _ :: _, _ => .ok none
  | _ :: _, [], _ => .ok none

/-- `check_ranges`. -/
def checkRanges : List κ → List (κ × κ) → Bool
  | [], [] => true
  | v :: vs, (lo, hi) :: ranges => lo ≤ v && v ≤ hi && checkRanges vs ranges
  | [], _ :: _ => false
  | _ :: _, [] => false

/-- `init_range_tree_if_nec`, which is tabled. -/
def initRangeTreeIfNec (i : Nat) (db : Database κ) : Database κ :=
  if db.tabled i then db
  else
    { db with
      trees := db.trees.put i (initRangeTree ri.minValue ri.maxValue (db.trees.tree i))
      tabled := Function.update db.tabled i true }

/-- The argument `Key` of `get_from_range_tree`. -/
def keyArg (var : Pattern κ) (σ : Bindings κ) : KeyArg κ :=
  match var.value σ with
  | some k => .ground k
  | none => .pattern fun k => (var.unify k σ).isSome

/-- `get_key_for_range_value`, with all its solutions. -/
def getKeyForRangeValue (n : Nat) (key : List (Pattern κ)) (σ : Bindings κ) :
    List (IndexArg κ) → List Nat → List (Pattern κ) → List (κ × κ) → Database κ →
      Except Stop (Database κ × List (Bindings κ))
  | [], _, _, _, db => .ok (db, [σ])
  | .free :: args, _ :: is, _ :: vars, _ :: ranges, db =>
    getKeyForRangeValue n key σ args is vars ranges db
  | _ :: _, i :: _, var :: _, (lo, hi) :: _, db =>
    let db := ri.initRangeTreeIfNec i db
    match getFromRangeTree ri.enum n lo hi (keyArg var σ) (db.trees.tree i) with
    | none => .error .bound
    | some l => .ok (db, l.filterMap fun (v, k) => (var.unify v σ).bind (unifyAll key k))
  | _, _, _, _, db => .ok (db, [])

/-- The facts that a goal calls and that are in the ranges. -/
def callFacts (goal : List (Pattern κ)) (ranges : List (κ × κ)) (facts : List (List κ))
    (σ : Bindings κ) : List (List κ) :=
  facts.filter fun f => (unifyAll goal f σ).isSome &&
    (posToVal ri.indexPos f).any fun vs => checkRanges vs ranges

/-- `range_call`, with the instances of the goal. -/
def rangeCall (n : Nat) (goal : List (Pattern κ)) (indexArgs : List (IndexArg κ))
    (db : Database κ) : Except Stop (Database κ × List (List κ)) :=
  match posToVal ri.indexPos goal, posToVal ri.keyPos goal with
  | some vars, some key =>
    match ri.extractVarRanges indexArgs vars fun _ => none with
    | .error stop => .error stop
    | .ok none => .ok (db, [])
    | .ok (some (σ, ranges)) =>
      let solutions :=
        if (valueAll σ key).isSome then .ok (db, [σ])
        else ri.getKeyForRangeValue n key σ indexArgs ri.indexPos vars ranges db
      match solutions with
      | .error stop => .error stop
      | .ok (db, σs) => .ok (db, σs.flatMap (ri.callFacts goal ranges db.facts))
  | _, _ => .ok (db, [])

/-- `assert_range_trees`. Where a goal fails, what has been done stays. -/
def assertRangeTrees (n : Nat) (goal : List κ) : List Nat → Database κ → Except Stop (Database κ)
  | [], db => .ok db
  | i :: is, db =>
    match arg i goal, posToVal ri.keyPos goal with
    | some val, some keyArgs =>
      let db := ri.initRangeTreeIfNec i db
      match addToRangeTree ri.enum n .root [] val keyArgs (db.trees.tree i) with
      | .ok t => assertRangeTrees n goal is { db with trees := db.trees.put i t }
      | .error .fails => .ok db
      | .error .bound => .error .bound
    | _, _ => .ok db

/-- `range_assert`. -/
def rangeAssert (n : Nat) (goal : List κ) (db : Database κ) : Except Stop (Database κ) :=
  ri.assertRangeTrees n goal ri.indexPos { db with facts := db.facts ++ [goal] }

/-- What is deleted from the trees for one fact. -/
def deletions (f : List κ) : List (Nat × Op κ (List κ)) :=
  ri.indexPos.filterMap fun i =>
    match arg i f, posToVal ri.keyPos f with
    | some val, some key => some (i, .delete val (some key))
    | _, _ => none

/-- `range_retractall`, for the solutions of the goal. -/
def retractFacts (n : Nat) : List (List κ) → Database κ → Except Stop (Database κ)
  | [], db => .ok db
  | f :: fs, db =>
    match run ri.enum ri.minValue ri.maxValue n (ri.deletions f) db.trees with
    | none => .error .bound
    | some trees =>
      retractFacts n fs { db with facts := db.facts.filter fun g => g ≠ f, trees := trees }

/-- `range_retractall`. -/
def rangeRetractall (n : Nat) (goal : List (Pattern κ)) (indexArgs : List (IndexArg κ))
    (db : Database κ) : Except Stop (Database κ) :=
  if ∀ a ∈ indexArgs, a = .free then
    .ok { db with
      facts := db.facts.filter fun f => (unifyAll goal f fun _ => none).isNone
      trees := ri.indexPos.foldl (fun s i => s.put i (deleteRangeTree (s.tree i))) db.trees }
  else
    match ri.rangeCall n goal indexArgs db with
    | .error stop => .error stop
    | .ok (db, facts) => ri.retractFacts n facts db

end RangeIndex

/-- The goals of a user. -/
inductive FactOp (κ : Type*)
  | assert (fact : List κ)
  | retractall (goal : List (Pattern κ)) (indexArgs : List (IndexArg κ))
  | call (goal : List (Pattern κ)) (indexArgs : List (IndexArg κ))

/-- The database after a goal. An illegal range is an error before anything changes. -/
def FactOp.exec (ri : RangeIndex κ) (n : Nat) (db : Database κ) : FactOp κ → Option (Database κ)
  | assert fact => (ri.rangeAssert n fact db).toOption
  | retractall goal indexArgs =>
    match ri.rangeRetractall n goal indexArgs db with
    | .ok db => some db
    | .error .illegal => some db
    | .error .bound => none
  | call goal indexArgs =>
    match ri.rangeCall n goal indexArgs db with
    | .ok (db, _) => some db
    | .error .illegal => some db
    | .error .bound => none

/-- The databases before and after each of the goals. -/
def states (ri : RangeIndex κ) (n : Nat) : List (FactOp κ) → Database κ →
    Option (List (Database κ))
  | [], db => some [db]
  | op :: ops, db =>
    match op.exec ri n db with
    | none => none
    | some db' => (states ri n ops db').map (db :: ·)

end XSBEngine.Ranges
