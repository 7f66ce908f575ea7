import XSBEngine.Compiler.PreprocCorrect

/-!
# Preprocessed predicates

With a cut in one of its clauses a predicate becomes a clause that saves a choice point and calls
the clauses with it.
-/

namespace XSBEngine.Compiler

open Backtracking Function List

variable {V G : Type*} {I : Interp V G} {ctr n L : Nat} {vs : List V} {g : G}
  {args : List Arg} {v : VarId} {fr : Frame V G} {k : G → ChoiceStack G → List G}
  {k' : G → List G → List G} {st base : ChoiceStack G}

/-! ### Heads -/

theorem bindHead_cons {arg : Arg} {w : V} {s : Env V G} (h : ∀ id, arg ≠ .varocc id) :
    bindHead I (arg :: args) (w :: vs) s = (I.unify arg w s).bind (bindHead I args vs) := by
  rw [bindHead]
  exact h

theorem bindActuals_cons {arg : Arg} {w : V} {as : List (Actual V)} (h : ∀ id, arg ≠ .varocc id) :
    bindActuals I (arg :: args) (.term w :: as) fr =
      (I.unify arg w fr.env).bind fun s => bindActuals I args as { fr with env := s } := by
  rw [bindActuals]
  exact h

theorem bindHead_length (args : List Arg) (vs : List V) (s : Env V G)
    (h : args.length ≠ vs.length) : bindHead I args vs s = none := by
  induction args generalizing vs s with
  | nil =>
    cases vs with
    | nil => exact absurd rfl h
    | cons => rfl
  | cons arg args ih =>
    cases vs with
    | nil => cases arg <;> rfl
    | cons w vs =>
      have hrest := fun s => ih vs s fun he => h (congrArg (· + 1) he)
      have hnone : ∀ o : Option (Env V G), o.bind (bindHead I args vs) = none := by
        rintro (_ | s)
        · rfl
        · exact hrest s
      by_cases hvar : ∃ id, arg = .varocc id
      · obtain ⟨id, rfl⟩ := hvar
        rw [bindHead]
        split
        next => exact hrest _
        next => exact hnone _
      · rw [bindHead_cons fun id h => hvar ⟨id, h⟩]
        exact hnone _

theorem bindActuals_length (args : List Arg) (as : List (Actual V)) (fr : Frame V G)
    (h : args.length ≠ as.length) : bindActuals I args as fr = none := by
  induction args generalizing as fr with
  | nil =>
    cases as with
    | nil => exact absurd rfl h
    | cons => rfl
  | cons arg args ih =>
    cases as with
    | nil => cases arg <;> rfl
    | cons a as =>
      have hrest := fun fr => ih as fr fun he => h (congrArg (· + 1) he)
      have hnone : ∀ o : Option (Env V G),
          (o.bind fun s => bindActuals I args as { fr with env := s }) = none := by
        rintro (_ | s)
        · rfl
        · exact hrest _
      by_cases hvar : ∃ id, arg = .varocc id
      · obtain ⟨id, rfl⟩ := hvar
        cases a with
        | cp i =>
          rw [bindActuals]
          exact hrest _
        | term w =>
          rw [bindActuals]
          split
          next => exact hrest _
          next => exact hnone _
      · have hne : ∀ id, arg ≠ .varocc id := fun id h => hvar ⟨id, h⟩
        cases a with
        | cp i =>
          cases arg with
          | varocc id => exact absurd rfl (hne id)
          | _ => rfl
        | term w =>
          rw [bindActuals_cons hne]
          exact hnone _

theorem bindActuals_append (args' : List Arg) (as : List (Actual V)) (args : List Arg)
    (vs : List V) (fr : Frame V G) (h : args.length = vs.length) :
    bindActuals I (args ++ args') (vs.map .term ++ as) fr =
      (bindHead I args vs fr.env).bind fun s => bindActuals I args' as { fr with env := s } := by
  induction args generalizing vs fr with
  | nil =>
    cases vs with
    | nil => rfl
    | cons => cases h
  | cons arg args ih =>
    cases vs with
    | nil => cases h
    | cons w vs =>
      have hrest := fun fr => ih vs fr (Nat.succ.inj h)
      rw [cons_append, map_cons, cons_append]
      by_cases hvar : ∃ id, arg = .varocc id
      · obtain ⟨id, rfl⟩ := hvar
        rw [bindActuals, bindHead]
        split
        next => exact hrest _
        next =>
          cases I.unify (.varocc id) w fr.env with
          | none => rfl
          | some s => exact hrest _
      · have hne : ∀ id, arg ≠ .varocc id := fun id h => hvar ⟨id, h⟩
        rw [bindActuals_cons hne, bindHead_cons hne]
        cases I.unify arg w fr.env with
        | none => rfl
        | some s => exact hrest _

/-- The arguments of a head that has no cut variable. -/
theorem bindActuals_map (args : List Arg) (vs : List V) (fr : Frame V G) :
    bindActuals I args (vs.map .term) fr =
      (bindHead I args vs fr.env).map fun s => { fr with env := s } := by
  by_cases h : args.length = vs.length
  · have happ := bindActuals_append (I := I) [] [] args vs fr h
    rw [append_nil, append_nil] at happ
    rw [happ]
    cases bindHead I args vs fr.env <;> rfl
  · rw [bindActuals_length, bindHead_length _ _ _ h]
    · rfl
    · rwa [length_map]

/-- The choice point is the last argument. -/
theorem bindActuals_cp (args : List Arg) (vs : List V) (fr : Frame V G) :
    bindActuals I (args ++ [.varocc v]) (vs.map .term ++ [.cp L]) fr =
      (bindHead I args vs fr.env).map fun s =>
        { env := s, cps := update fr.cps v (some L) } := by
  by_cases h : args.length = vs.length
  · rw [bindActuals_append _ _ args vs fr h]
    cases bindHead I args vs fr.env <;> rfl
  · rw [bindActuals_length, bindHead_length _ _ _ h]
    · rfl
    · simpa using h

/-! ### Clauses -/

/-- What a continuation makes of the answers of a clause. -/
def ClauseTranslates (I : Interp V G) (vs : List V) (g : G) (as : List (Actual V)) (L : Nat)
    (base : ChoiceStack G) (cl : Clause Body) (code : Clause Code) : Prop :=
  ∀ (k : G → ChoiceStack G → List G) (k' : G → List G → List G) st, L ≤ st.length →
    st.cutTo L = base → (∀ g st', k g st' = k' g st'.fail) →
      execClause I I.call code as g k st =
        (evalClause I cl vs g).deliver (fun s r => k' s.2 r) st.fail base.fail

variable {cls : List (Clause Body)}

theorem execClauses_spec {codes : List (Clause Code)}
    {as : List (Actual V)} (h : List.Forall₂ (ClauseTranslates I vs g as L base) cls codes)
    (hk : ∀ g st', k g st' = k' g st'.fail) (st : ChoiceStack G) (hL : L ≤ st.length)
    (hst : st.cutTo L = base) :
    execClauses I I.call as g k codes st =
      (evalClauses I cls vs g).deliver (fun s r => k' s.2 r) st.fail base.fail := by
  induction h with
  | nil => rfl
  | @cons cl code cls codes hcl hrest ih =>
    rw [evalClauses, foldr_cons, Outcome.deliver_orElse]
    cases hrest with
    | nil => exact hcl k k' st hL hst hk
    | cons hcl' hrest' =>
      rw [execClauses, hcl k k' _ (hL.trans (Nat.le_succ _))
        ((ChoiceStack.cutTo_cons hL).trans hst) hk, ih]
      · rfl
      · nofun

/-- The clauses of a predicate without cuts. -/
theorem preClauses_spec (hcut : haveHardcut cls = false)
    (hlocal : ∀ cl ∈ cls, cl.body.localCuts = true) (ctr : Nat) (base : ChoiceStack G) :
    List.Forall₂ (ClauseTranslates I vs g (vs.map .term) base.length base) cls
      (preClauses ctr cls).1 := by
  induction cls generalizing ctr with
  | nil => exact .nil
  | cons cl cls ih =>
    rw [haveHardcut, Bool.or_eq_false_iff] at hcut
    refine .cons (fun k k' st hL hst hk => ?_)
      (ih hcut.2 (fun cl hcl => hlocal cl (mem_cons_of_mem _ hcl)) _)
    rw [execClause, bindActuals_map, evalClause]
    cases bindHead I cl.args vs (fun _ => none, g) with
    | none => rfl
    | some s =>
      have hbody := (preBody_spec I _ cl.body (le_refl _) (hlocal cl mem_cons_self)).1 none ctr
      have hexec := hbody.exec ⟨s, fun _ => none⟩ (fun fr' => k fr'.env.2) (fun s r => k' s.2 r) st
        base.length (fun h => absurd h (by rw [hcut.1]; exact Bool.false_ne_true)) hL
        fun fr' st' _ _ _ => hk _ _
      rw [hst] at hexec
      exact hexec

/-- The clauses of a predicate with the choice point as an argument. -/
theorem preCutclauses_spec (vs : List V) (g : G)
    (hlocal : ∀ cl ∈ cls, cl.body.localCuts = true) (ctr : Nat) (base : ChoiceStack G) :
    List.Forall₂ (ClauseTranslates I vs g (vs.map .term ++ [.cp base.length]) base.length base) cls
      (preCutclauses ctr cls).1 := by
  induction cls generalizing ctr with
  | nil => exact .nil
  | cons cl cls ih =>
    refine .cons (fun k k' st hL hst hk => ?_)
      (ih (fun cl hcl => hlocal cl (mem_cons_of_mem _ hcl)) _)
    rw [execClause, bindActuals_cp, evalClause]
    cases bindHead I cl.args vs (fun _ => none, g) with
    | none => rfl
    | some s =>
      have hbody := (preBody_spec I _ cl.body (le_refl _) (hlocal cl mem_cons_self)).1
        (some (.gensym ctr)) (ctr + 1)
      have hexec := hbody.exec ⟨s, update (fun _ => none) (.gensym ctr) (some base.length)⟩
        (fun fr' => k fr'.env.2) (fun s r => k' s.2 r) st base.length
        (fun _ => ⟨_, rfl, old_gensym (Nat.lt_succ_self ctr), by simp only [update_self]⟩)
        hL
        fun fr' st' _ _ _ => hk _ _
      rw [hst] at hexec
      exact hexec

/-! ### Predicates -/

theorem genArglist_bind (hlen : vs.length = n) (s : Env V G)
    (hfree : ∀ i, 1 ≤ i → i ≤ n → s.1 (.num i) = none) :
    ∃ e, bindHead I (genArglist n) vs s = some (e, s.2) ∧
      (∀ fr : Frame V G, fr.env.1 = e → (∀ i, 1 ≤ i → fr.cps (.num i) = none) →
        (genArglist n).map (·.actual I fr) = vs.map .term) ∧
      ∀ v, (∀ i, 1 ≤ i → i ≤ n → v ≠ .num i) → e v = s.1 v := by
  induction n generalizing vs s with
  | zero =>
    cases vs with
    | nil => exact ⟨s.1, rfl, fun _ _ _ => rfl, fun _ _ => rfl⟩
    | cons => cases hlen
  | succ n ih =>
    cases vs with
    | nil => cases hlen
    | cons w vs =>
      have hupd : ∀ i, 1 ≤ i → i ≤ n →
          update s.1 (.num (n + 1)) (some w) (.num i) = none := by
        intro i hi hin
        rw [update_of_ne fun h => by cases h; omega]
        exact hfree i hi (hin.trans (Nat.le_succ n))
      obtain ⟨e, hbind, hmap, hother⟩ :=
        ih (Nat.succ.inj hlen) (update s.1 (.num (n + 1)) (some w), s.2) hupd
      refine ⟨e, ?_, fun fr hfr hcps => ?_, fun v hv => ?_⟩
      · rw [genArglist, bindHead, hfree (n + 1) (Nat.succ_pos n) (le_refl _)]
        exact hbind
      · have hw : fr.env.1 (.num (n + 1)) = some w := by
          rw [hfr, hother _ fun i _ hin h => by cases h; omega]
          exact update_self ..
        rw [genArglist, map_cons, map_cons, hmap fr hfr hcps, Arg.actual,
          hcps (n + 1) (Nat.succ_pos n), hw]
      · rw [hother v fun i hi hin => hv i hi (hin.trans (Nat.le_succ n))]
        exact update_of_ne (hv (n + 1) (Nat.succ_pos n) (le_refl _)) ..

theorem deliver_answers (o : Outcome (Env V G)) :
    o.deliver (fun s r => s.2 :: r) [] [] = o.answers.map Prod.snd := by
  obtain ⟨as, cut⟩ := o
  rw [Outcome.deliver, ite_self]
  induction as with
  | nil => rfl
  | cons a as ih => rw [foldr_cons, ih]; rfl

/-- A preprocessed predicate returns the answers of the predicate, in the same order, if cuts in the
conditions of later branches are not its own. -/
theorem preprocess_answers (I : Interp V G) (pred : Pred Body) (vs : List V) (g : G) (ctr : Nat)
    (harity : vs.length = pred.sym.arity)
    (hlocal : ∀ cl ∈ pred.clauses, cl.body.localCuts = true) :
    execPreds I (preprocess ctr pred) vs g = pred.answers I vs g := by
  rw [Pred.answers, ← deliver_answers, preprocess]
  cases hcut : haveHardcut pred.clauses with
  | false =>
    exact execClauses_spec (preClauses_spec hcut hlocal ctr []) (fun _ _ => rfl) [] (le_refl _) rfl
  | true =>
    obtain ⟨e, hbind, hmap, -⟩ := genArglist_bind (I := I) harity (fun _ => none, g)
      fun _ _ _ => rfl
    have hcps : ∀ i, 1 ≤ i →
        update (fun _ => none) (VarId.num 0) (some (0 : Nat)) (VarId.num i) = none := by
      intro i hi
      exact update_of_ne (fun h => by cases h; omega) ..
    have hclauses := preCutclauses_spec (I := I) vs g hlocal (ctr + 1) []
    have hargs := hmap ⟨(e, g), update (fun _ => none) (.num 0) (some 0)⟩ rfl hcps
    rw [if_pos rfl, execPreds, execClauses, execClause, bindActuals_map, hbind]
    simp only [Option.map_some, Code.exec, callPreds, if_pos, map_append, length_nil,
      hargs, map_cons, map_nil]
    exact execClauses_spec hclauses (fun _ _ => rfl) [] (le_refl _) rfl

/-- `p(X) :- (a -> ! ; d -> b ; d). p(X) :- d.` -/
def cutPred : Pred Body :=
  ⟨⟨"p", 1⟩, [⟨[.varocc (.num 1)], .or (.if (.goal ⟨"a", 0⟩ []) (.inlinegoal "!" 0 []))
    (.or (.if (.goal ⟨"d", 0⟩ []) (.goal ⟨"b", 0⟩ [])) (.goal ⟨"d", 0⟩ []))⟩,
    ⟨[.varocc (.num 1)], .goal ⟨"d", 0⟩ []⟩]⟩

theorem preprocess_cutPred :
    execPreds (.propositional (·.name ∈ ["a", "d"])) (preprocess 0 cutPred) [()] () = [()] :=
  preprocess_answers (.propositional (·.name ∈ ["a", "d"])) cutPred [()] () 0 rfl (by decide)

/-- `p :- (a -> b ; (!, f) -> c ; d).` -/
def chainPred : Pred Body :=
  ⟨⟨"p", 0⟩, [⟨[], .or (.if (.goal ⟨"a", 0⟩ []) (.goal ⟨"b", 0⟩ []))
    (.or (.if (.and (.inlinegoal "!" 0 []) (.goal ⟨"f", 0⟩ [])) (.goal ⟨"c", 0⟩ []))
      (.goal ⟨"d", 0⟩ []))⟩]⟩

/-- A cut in the condition of a later branch removes the alternative for the else part. -/
theorem preprocess_chainPred :
    chainPred.answers (.propositional (·.name = "d")) [] () = [()] ∧
      execPreds (.propositional (·.name = "d")) (preprocess 0 chainPred) [] () = [] := by
  have hcode : preprocess 0 chainPred = [⟨⟨"p", 0⟩, [⟨[], .and (.savecp (.gensym 0))
      (.or (.and (.goal ⟨"a", 0⟩ []) (.and (.cutto (some (.gensym 0))) (.goal ⟨"b", 0⟩ [])))
        (.or (.and (.and (.cutto (some (.gensym 0))) (.goal ⟨"f", 0⟩ []))
          (.and (.cutto (some (.gensym 0))) (.goal ⟨"c", 0⟩ []))) (.goal ⟨"d", 0⟩ [])))⟩]⟩] := by
    simp [preprocess, chainPred, haveHardcut, Body.haveHardcut, preClauses, preBody, preIfthen,
      preElse, Body.allInlineTests, inlineJumpcofCond, Body.isFailed]
  rw [hcode]
  exact ⟨rfl, rfl⟩

end XSBEngine.Compiler
