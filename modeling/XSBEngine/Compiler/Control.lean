import XSBEngine.Compiler.Preproc
import XSBEngine.Library.Cut

/-!
# Meaning of clauses

What the control constructs of a clause do to answers, before preprocessing with cuts of the ISO
standard, and after it with choice points that are saved and cut back to. The goals of the user are
interpreted by finite sequences of answers.
-/

namespace XSBEngine.Compiler

open Backtracking Function

variable {V G : Type*}

/-- The values of the variables of a clause, and the state of everything else. -/
abbrev Env (V G : Type*) := (VarId → Option V) × G

/-- The meaning of goals, of inline goals and of the unification with an argument of a head. Inline
tests do not change the state, and `inline_neg0` relates complementary ones. -/
structure Interp (V G : Type*) where
  goal : Sym → List Arg → Env V G → List (Env V G)
  inline : String → Nat → List Arg → Env V G → List (Env V G)
  unify : Arg → V → Env V G → Option (Env V G)
  value : Arg → Env V G → V
  true_eq : ∀ args s, inline "true" 0 args s = [s]
  fail_eq : ∀ args s, inline "fail" 0 args s = []
  test_eq : ∀ p n args s, inlineTest p n = true → inline p n args s = [] ∨ inline p n args s = [s]
  neg_iff : ∀ p n q args s, inlineNeg0 p n = some q →
    (inline q n args s = [] ↔ inline p n args s ≠ [])
  jumpcof_eq : ∀ p n args s, inlineJumpcofCond p n = true → goal ⟨p, n⟩ args s = inline p n args s

/-- The inline goals that are true of equal numbers. -/
def trueOfEqual : List String := ["true", "=:=", "==", "@=<", "@>=", "nonvar", "number"]

/-- Goals succeed once or not at all, and have no effects. -/
def Interp.propositional (succeeds : Sym → Bool) : Interp Unit Unit where
  goal sym _ s :=
    if inlineJumpcofCond sym.name sym.arity then if sym.name ∈ trueOfEqual then [s] else []
    else if succeeds sym then [s] else []
  inline pred _ _ s := if pred ∈ trueOfEqual then [s] else []
  unify _ _ s := some s
  value _ _ := ()
  true_eq _ _ := rfl
  fail_eq _ _ := rfl
  test_eq p n args s _ := by
    split
    next => exact .inr rfl
    next => exact .inl rfl
  neg_iff p n q args s h := by
    rw [inlineNeg0.eq_def] at h
    split at h <;> simp_all [trueOfEqual] <;> subst h <;> simp
  jumpcof_eq p n args s h := by
    rw [h]
    rfl

variable (I : Interp V G)

/-! ### Before preprocessing -/

/-- The answers of a body, and whether a cut of the clause has been executed. -/
def Body.eval : Body → Env V G → Outcome (Env V G)
  | .and a b, s => (a.eval s).bind b.eval
  | .if a b, s => (a.eval s).ifThenElse b.eval .fail
  | .or (.if a b) c, s => (a.eval s).ifThenElse b.eval (c.eval s)
  | .or a b, s => (a.eval s).orElse (b.eval s)
  | .not g, s => (g.eval s).ifThenElse (fun _ => .fail) (.pure s)
  | .goal sym args, s => ⟨I.goal sym args s, false⟩
  | .inlinegoal pred arity args, s =>
    if pred = "!" ∧ arity = 0 then ⟨[s], true⟩ else ⟨I.inline pred arity args s, false⟩

/-- Unification of the arguments of a head with those of a call. The first occurrence of a variable
takes the argument as its value. -/
def bindHead : List Arg → List V → Env V G → Option (Env V G)
  | [], [], s => some s
  | .varocc id :: args, v :: vs, s =>
    match s.1 id with
    | none => bindHead args vs (update s.1 id (some v), s.2)
    | some _ => (I.unify (.varocc id) v s).bind (bindHead args vs)
  | arg :: args, v :: vs, s => (I.unify arg v s).bind (bindHead args vs)
  | _, _, _ => none

/-- The answers of a clause. -/
def evalClause (cl : Clause Body) (vs : List V) (g : G) : Outcome (Env V G) :=
  match bindHead I cl.args vs (fun _ => none, g) with
  | none => .fail
  | some s => cl.body.eval I s

/-- The answers of a predicate. A cut leaves out the clauses that follow. -/
def evalClauses (cls : List (Clause Body)) (vs : List V) (g : G) : Outcome (Env V G) :=
  cls.foldr (fun cl o => (evalClause I cl vs g).orElse o) .fail

/-- The states in which a call of a predicate returns, in order. -/
def Pred.answers (pred : Pred Body) (vs : List V) (g : G) : List G :=
  (evalClauses I pred.clauses vs g).answers.map Prod.snd

/-! ### After preprocessing -/

/-- The values of the variables and the choice points that have been saved in them. -/
structure Frame (V G : Type*) where
  env : Env V G
  cps : VarId → Option Nat

/-- An argument of a call. -/
inductive Actual (V : Type*)
  | term (v : V)
  | cp (n : Nat)

/-- Whether an inline test of an `if_then_else` succeeds. -/
def Code.holds : Code → Env V G → Bool
  | .and a b, s => a.holds s && b.holds s
  | .or a b, s => a.holds s || b.holds s
  | .inlinegoal pred arity args, s => !(I.inline pred arity args s).isEmpty
  | _, _ => false

/-- What a continuation of a goal returns, with a stack of choice points. -/
abbrev Continuation (V G : Type*) := Frame V G → ChoiceStack G → List G

/-- How goals are called. -/
abbrev Caller (V G : Type*) :=
  Sym → List Arg → Frame V G → Continuation V G → ChoiceStack G → List G

/-- A goal of the user. -/
def Interp.call : Caller V G := fun sym args fr k st =>
  ChoiceStack.tryEach (fun s => k { fr with env := s }) st (I.goal sym args fr.env)

/-- The execution of a body: `_$savecp` saves the number of choice points, `_$cutto` cuts back. -/
def Code.exec (call : Caller V G) : Code → Frame V G → Continuation V G → ChoiceStack G → List G
  | .and a b, fr, k, st => a.exec call fr (fun fr' st' => b.exec call fr' k st') st
  | .or a b, fr, k, st => a.exec call fr k (b.exec call fr k st :: st)
  | .ifThenElse test a b, fr, k, st =>
    if test.holds I fr.env then a.exec call fr k st else b.exec call fr k st
  | .goal sym args, fr, k, st => call sym args fr k st
  | .inlinegoal pred arity args, fr, k, st =>
    ChoiceStack.tryEach (fun s => k { fr with env := s }) st (I.inline pred arity args fr.env)
  | .savecp v, fr, k, st => k { fr with cps := update fr.cps v (some st.length) } st
  | .cutto v, fr, k, st =>
    match v.bind fr.cps with
    | some n => k fr (st.cutTo n)
    | none => st.fail

/-- Unification of the arguments of a head. A choice point is an argument for a variable only. -/
def bindActuals : List Arg → List (Actual V) → Frame V G → Option (Frame V G)
  | [], [], fr => some fr
  | .varocc id :: args, .cp n :: as, fr =>
    bindActuals args as { fr with cps := update fr.cps id (some n) }
  | .varocc id :: args, .term v :: as, fr =>
    match fr.env.1 id with
    | none => bindActuals args as { fr with env := (update fr.env.1 id (some v), fr.env.2) }
    | some _ =>
      (I.unify (.varocc id) v fr.env).bind fun s => bindActuals args as { fr with env := s }
  | arg :: args, .term v :: as, fr =>
    (I.unify arg v fr.env).bind fun s => bindActuals args as { fr with env := s }
  | _, _, _ => none

/-- An argument of a goal. -/
def Arg.actual (fr : Frame V G) : Arg → Actual V
  | .varocc id =>
    match fr.cps id, fr.env.1 id with
    | some n, _ => .cp n
    | none, some v => .term v
    | none, none => .term (I.value (.varocc id) fr.env)
  | arg => .term (I.value arg fr.env)

/-- A clause: it returns to its caller with the state it has reached. -/
def execClause (call : Caller V G) (cl : Clause Code) (as : List (Actual V)) (g : G)
    (k : G → ChoiceStack G → List G) (st : ChoiceStack G) : List G :=
  match bindActuals I cl.args as ⟨(fun _ => none, g), fun _ => none⟩ with
  | none => st.fail
  | some fr => cl.body.exec I call fr (fun fr' => k fr'.env.2) st

/-- The clauses of a predicate, with a choice point as long as there are more. -/
def execClauses (call : Caller V G) (as : List (Actual V)) (g : G)
    (k : G → ChoiceStack G → List G) : List (Clause Code) → ChoiceStack G → List G
  | [], st => st.fail
  | [cl], st => execClause I call cl as g k st
  | cl :: cls, st => execClause I call cl as g k (execClauses call as g k cls st :: st)

/-- Goals are called by the predicates that have been generated for them. -/
def callPreds : List (Pred Code) → Caller V G
  | [] => I.call
  | pred :: preds => fun sym args fr k st =>
    if sym = pred.sym then
      execClauses I (callPreds preds) (args.map (·.actual I fr)) fr.env.2
        (fun g => k { fr with env := (fr.env.1, g) }) pred.clauses st
    else callPreds preds sym args fr k st

/-- The states in which a call of the first predicate returns, in order. -/
def execPreds : List (Pred Code) → List V → G → List G
  | [], _, _ => []
  | pred :: preds, vs, g =>
    execClauses I (callPreds I preds) (vs.map .term) g (fun g st => g :: st.fail) pred.clauses []

end XSBEngine.Compiler
