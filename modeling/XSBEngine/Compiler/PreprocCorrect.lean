import Mathlib
import XSBEngine.Compiler.Control

/-!
# Preprocessing keeps the answers

A preprocessed body hands the answers of the body to its continuation, one after the other, and
cuts back to where the predicate was called if the body has cut.
-/

namespace XSBEngine.Compiler

open Backtracking Function

variable {V G : Type*} {I : Interp V G} {c : Option VarId} {v v₁ : VarId} {n m L : Nat}
  {fr fr' : Frame V G} {st st' : ChoiceStack G} {k : Continuation V G}
  {k' : Env V G → List G → List G} {a b d : Body} {s : Env V G}

/-! ### Tests -/

mutual

theorem argSame_eq : ∀ {x y : Arg}, argSame x y = true → x = y
  | .varocc id, .varocc id', h => congrArg _ (of_decide_eq_true h)
  | .integer w, .integer w', h => congrArg _ (of_decide_eq_true h)
  | .constant w, .constant w', h => congrArg _ (of_decide_eq_true h)
  | .string w, .string w', h => congrArg _ (of_decide_eq_true h)
  | .structure sym args, .structure sym' args', h => by
    rw [argSame, Bool.and_eq_true, decide_eq_true_iff] at h
    rw [h.1, argsSame_eq h.2]

theorem argsSame_eq : ∀ {xs ys : List Arg}, argsSame xs ys = true → xs = ys
  | [], [], _ => rfl
  | x :: xs, y :: ys, h => by
    rw [argsSame, Bool.and_eq_true] at h
    rw [argSame_eq h.1, argsSame_eq h.2]

end

/-- What a condition made of inline tests does. -/
structure TestsOf (I : Interp V G) (b : Body) (test : Code) : Prop where
  answers : ∀ s, ∀ x ∈ (b.eval I s).answers, x = s
  holds : ∀ s, test.holds I s = true ↔ (b.eval I s).answers ≠ []
  cut : ∀ s, (b.eval I s).cut = false

theorem ne_cut_of_inlineTest {pred : String} {arity : Nat} (h : inlineTest pred arity = true) :
    ¬(pred = "!" ∧ arity = 0) := by
  rintro ⟨rfl, rfl⟩
  revert h
  decide

theorem eval_inline {pred : String} {arity : Nat} (h : ¬(pred = "!" ∧ arity = 0))
    (args : List Arg) (s : Env V G) :
    (Body.inlinegoal pred arity args).eval I s = ⟨I.inline pred arity args s, false⟩ := by
  rw [Body.eval, if_neg h]

theorem testsOf_inline {pred : String} {arity : Nat} (h : inlineTest pred arity = true)
    {args : List Arg} {b : Body} (hb : ∀ s, b.eval I s = ⟨I.inline pred arity args s, false⟩) :
    TestsOf I b (.inlinegoal pred arity args) where
  answers s x hx := by
    rw [hb] at hx
    rcases I.test_eq pred arity args s h with he | he
    · rw [he] at hx
      cases hx
    · rw [he] at hx
      exact List.mem_singleton.mp hx
  holds s := by
    rw [hb, Code.holds, Bool.not_eq_true', List.isEmpty_eq_false_iff]
  cut s := by rw [hb]

theorem allInlineTests_spec (I : Interp V G) {b : Body} {test : Code}
    (h : b.allInlineTests = some test) : TestsOf I b test := by
  induction b generalizing test with
  | and a b iha ihb =>
    rw [Body.allInlineTests] at h
    split at h
    next o1 o2 h1 h2 =>
      cases h
      have ha := iha h1
      have hb := ihb h2
      have hbind := fun s => Outcome.bind_of_answers (ha.answers s) (hb.cut s) (ha.cut s)
      refine ⟨fun s x hx => ?_, fun s => ?_, fun s => ?_⟩
      · exact hb.answers s x ((hbind s).1 x hx)
      · rw [Code.holds, Bool.and_eq_true, ha.holds, hb.holds]
        exact (hbind s).2.2.symm
      · exact (hbind s).2.1
    next => cases h
  | or a b iha ihb =>
    rw [Body.allInlineTests] at h
    split at h
    next o1 o2 h1 h2 =>
      cases h
      have ha := iha h1
      have hb := ihb h2
      have heval : ∀ s, (Body.or a b).eval I s =
          ⟨(a.eval I s).answers ++ (b.eval I s).answers, false⟩ := by
        intro s
        rw [Body.eval, Outcome.orElse, ha.cut, hb.cut, if_neg Bool.false_ne_true]
        rintro g g' rfl
        cases h1
      refine ⟨fun s x hx => ?_, fun s => ?_, fun s => by rw [heval]⟩
      · rw [heval] at hx
        rcases List.mem_append.mp hx with hx | hx
        · exact ha.answers s x hx
        · exact hb.answers s x hx
      · rw [heval, Code.holds, Bool.or_eq_true, ha.holds, hb.holds, ne_eq, ne_eq, ne_eq,
          List.append_eq_nil_iff, not_and_or]
    next => cases h
  | «if» a b => cases h
  | not g => cases h
  | goal sym args =>
    rw [Body.allInlineTests] at h
    split at h
    next hj =>
      cases h
      have htest : inlineTest sym.name sym.arity = true := by
        rw [inlineTest, decide_eq_true_iff]
        exact .inr (.inr hj)
      refine testsOf_inline htest fun s => ?_
      rw [Body.eval, ← I.jumpcof_eq _ _ _ _ hj]
    next => cases h
  | inlinegoal pred arity args =>
    rw [Body.allInlineTests] at h
    split at h
    next htest =>
      cases h
      exact testsOf_inline htest (eval_inline (ne_cut_of_inlineTest htest) args)
    next => cases h

/-! ### Complementary tests -/

theorem inlineNeg0_ne_cut {p q : String} {i : Nat} (h : inlineNeg0 p i = some q) :
    ¬(p = "!" ∧ i = 0) ∧ ¬(q = "!" ∧ i = 0) := by
  rw [inlineNeg0.eq_def] at h
  split at h <;> cases h <;> decide

theorem inlineNeg0_test {p q : String} {i : Nat} (h : inlineNeg0 p i = some q) :
    inlineTest q i = true ∨ (q = "fail" ∧ i = 0) := by
  rw [inlineNeg0.eq_def] at h
  split at h <;> cases h <;> decide

theorem inlineNeg0_symm {p q : String} {i : Nat} (h : inlineNeg0 p i = some q) :
    inlineNeg0 q i = some p := by
  rw [inlineNeg0.eq_def] at h
  split at h <;> cases h <;> rfl

/-- The answers of the complementary test. -/
theorem Interp.inline_neg (I : Interp V G) {p q : String} {i : Nat} (h : inlineNeg0 p i = some q)
    (args : List Arg) (s : Env V G) :
    I.inline q i args s = if I.inline p i args s = [] then [s] else [] := by
  have hiff := I.neg_iff p i q args s h
  split
  next hp =>
    rcases inlineNeg0_test h with hq | ⟨rfl, rfl⟩
    · exact (I.test_eq q i args s hq).resolve_left fun he => hiff.mp he hp
    · exact absurd hp (hiff.mp (I.fail_eq args s))
  next hp => exact hiff.mpr hp

theorem inlineNeg_eval {t t' : Body} (h : t.inlineNeg = some t') (s : Env V G) :
    (Body.not t).eval I s = t'.eval I s := by
  cases t with
  | inlinegoal p i args =>
    obtain ⟨q, hq, rfl⟩ := Option.map_eq_some_iff.mp h
    have hne := inlineNeg0_ne_cut hq
    rw [Body.eval, eval_inline hne.1, eval_inline hne.2, I.inline_neg hq, Outcome.ifThenElse]
    cases I.inline p i args s with
    | nil | cons x xs => rfl
  | _ => cases h

theorem eval_succeeded (s : Env V G) : Body.succeeded.eval I s = .pure s := by
  rw [Body.succeeded, eval_inline (by decide), I.true_eq]
  rfl

theorem eval_failed (s : Env V G) : Body.failed.eval I s = .fail := by
  rw [Body.failed, eval_inline (by decide), I.fail_eq]
  rfl

/-- The first goal of a conjunction. -/
theorem getTest_eval (b : Body) (s : Env V G) :
    b.eval I s = (b.getTest.1.eval I s).bind (b.getTest.2.eval I) := by
  have hsucceeded : Body.succeeded.eval I = .pure := funext eval_succeeded
  induction b using Body.getTest.induct generalizing s with
  | case1 test0 rest test h =>
    rw [Body.getTest, h]
    simp only
    rw [Body.eval, inlineNeg_eval h]
  | case2 test0 rest h =>
    rw [Body.getTest, h, Body.eval]
    refine congrArg (Outcome.bind _) (funext fun x => ?_)
    rw [Body.eval, hsucceeded, Outcome.pure_bind]
  | case3 test0 rest hne ih =>
    rw [Body.getTest, Body.eval, ih, Outcome.bind_assoc]
    · rfl
    · exact hne
  | case4 test h1 h2 =>
    rw [Body.getTest]
    · rw [hsucceeded, Outcome.bind_pure]
    · exact h1
    · exact h2

theorem complCond_parts {tpart fpart : Body} {test : Code}
    (h : Body.complCond a b = some (test, tpart, fpart)) :
    tpart = a.getTest.2 ∧ fpart = b.getTest.2 := by
  rw [Body.complCond] at h
  split at h
  next ha hb =>
    split at h
    next =>
      cases h
      rw [ha, hb]
      exact ⟨rfl, rfl⟩
    next => cases h
  next => cases h

/-- A disjunction with complementary tests. -/
theorem complCond_eval {tpart fpart : Body} {test : Code}
    (h : Body.complCond a b = some (test, tpart, fpart)) (s : Env V G) :
    (a.eval I s).orElse (b.eval I s) =
      if test.holds I s then tpart.eval I s else fpart.eval I s := by
  rw [Body.complCond] at h
  split at h
  next p i args tpart' p2 i2 args2 fpart' ha hb =>
    split at h
    next hcond =>
      cases h
      obtain ⟨rfl, hneg, hargs⟩ := hcond
      have hne := inlineNeg0_ne_cut hneg
      rw [getTest_eval a, getTest_eval b, ha, hb]
      simp only
      rw [eval_inline hne.1, eval_inline hne.2, ← argsSame_eq hargs, I.inline_neg hneg, Code.holds]
      have hp := I.inline_neg (inlineNeg0_symm hneg) args s
      split at hp
      next =>
        rw [hp, if_neg (List.cons_ne_nil s [])]
        show ((Outcome.pure s).bind (tpart.eval I)).orElse .fail = _
        rw [Outcome.pure_bind, Outcome.orElse_fail]
        rfl
      next =>
        rw [hp, if_pos rfl]
        show ((Outcome.pure s).bind (fpart.eval I)) = _
        rw [Outcome.pure_bind]
        rfl
    next => cases h
  next => cases h

/-! ### Continuations -/

/-- The variable is not one of those that are made later. -/
def Old (n : Nat) (v : VarId) : Prop := ∀ m ≥ n, v ≠ .gensym m

theorem Old.mono (h : Old n v) (hnm : n ≤ m) : Old m v := fun i hi => h i (hnm.trans hi)

theorem old_gensym (h : m < n) : Old n (.gensym m) := by
  rintro i hi he
  cases he
  omega

/-- The choice points that have been saved in old variables are the same. -/
def Agrees (n : Nat) (fr fr' : Frame V G) : Prop := ∀ v, Old n v → fr'.cps v = fr.cps v

/-- The continuation depends on the answer, on what is returned by backtracking, and on the first
`L` choice points only, which stay. -/
def Handles (n L : Nat) (fr : Frame V G) (st : ChoiceStack G) (k : Continuation V G)
    (k' : Env V G → List G → List G) : Prop :=
  ∀ fr' st', Agrees n fr fr' → L ≤ st'.length → st'.cutTo L = st.cutTo L →
    k fr' st' = k' fr'.env st'.fail

/-- The code hands the outcome to the continuation. With a cut it needs the variable in which the
choice point of the predicate has been saved. -/
structure Translates (I : Interp V G) (c : Option VarId) (n : Nat) (t : Code × Nat)
    (o : Env V G → Outcome (Env V G)) (cut : Bool) : Prop where
  ctr : n ≤ t.2
  exec : ∀ fr k k' st L, (cut = true → ∃ v, c = some v ∧ Old n v ∧ fr.cps v = some L) →
    L ≤ st.length → Handles n L fr st k k' →
      t.1.exec I I.call fr k st = (o fr.env).deliver k' st.fail (st.cutTo L).fail

theorem Agrees.trans {fr'' : Frame V G} (h : Agrees n fr fr') (h' : Agrees m fr' fr'')
    (hnm : n ≤ m) : Agrees n fr fr'' :=
  fun v hv => (h' v (hv.mono hnm)).trans (h v hv)

theorem Handles.later (h : Handles n L fr st k k') (hfr : Agrees n fr fr') (hnm : n ≤ m)
    (hst : st'.cutTo L = st.cutTo L) : Handles m L fr' st' k k' :=
  fun _ _ hfr' hL hcut => h _ _ (hfr.trans hfr' hnm) hL (hcut.trans hst)

theorem agrees_refl : Agrees n fr fr := fun _ _ => rfl

theorem agrees_save (fr : Frame V G) (i : Nat) (h : n ≤ m) :
    Agrees n fr { fr with cps := update fr.cps (.gensym m) (some i) } := by
  intro v hv
  exact update_of_ne (hv m h) ..

variable {cut cut' : Bool} {ta tb : Code × Nat} {o o' : Env V G → Outcome (Env V G)}

/-- A cut can be made where a later part of the body is executed. -/
theorem cut_later (h : cut = true → ∃ v, c = some v ∧ Old n v ∧ fr.cps v = some L)
    (hfr : Agrees n fr fr') (hnm : n ≤ m) :
    cut = true → ∃ v, c = some v ∧ Old m v ∧ fr'.cps v = some L := by
  intro hcut
  obtain ⟨v, hc, hv, hL⟩ := h hcut
  exact ⟨v, hc, hv.mono hnm, (hfr v hv).trans hL⟩

/-! ### The constructs -/

theorem Translates.and (ha : Translates I c n ta o cut) (hb : Translates I c ta.2 tb o' cut') :
    Translates I c n (.and ta.1 tb.1, tb.2) (fun s => (o s).bind o') (cut || cut') where
  ctr := ha.ctr.trans hb.ctr
  exec fr k k' st L hc hL hk := by
    rw [Code.exec, Outcome.deliver_bind]
    refine ha.exec _ _ _ _ _ (fun h ↦ hc (by rw [h, Bool.true_or])) hL fun fr' st' hfr hL' hst ↦ ?_
    rw [hb.exec fr' k k' st' L (cut_later (fun h => hc (by rw [h, Bool.or_true])) hfr ha.ctr) hL'
      (hk.later hfr ha.ctr hst), hst]

theorem Translates.or (ha : Translates I c n ta o cut) (hb : Translates I c ta.2 tb o' cut') :
    Translates I c n (.or ta.1 tb.1, tb.2) (fun s => (o s).orElse (o' s)) (cut || cut') where
  ctr := ha.ctr.trans hb.ctr
  exec fr k k' st L hc hL hk := by
    have hcons : ∀ r, ChoiceStack.cutTo L (r :: st) = st.cutTo L := fun r =>
      ChoiceStack.cutTo_cons hL
    rw [Code.exec, Outcome.deliver_orElse,
      ← hb.exec fr k k' st L (cut_later (fun h => hc (by rw [h, Bool.or_true])) agrees_refl ha.ctr)
        hL (hk.later agrees_refl ha.ctr rfl)]
    rw [ha.exec fr k k' _ L (fun h => hc (by rw [h, Bool.true_or]))
      (hL.trans (Nat.le_succ _)) (hk.later agrees_refl (le_refl n) (hcons _)), hcons]
    rfl

theorem Translates.goal (answers : Env V G → List (Env V G)) {t : Code}
    (ht : ∀ fr k st, t.exec I I.call fr k st =
      ChoiceStack.tryEach (fun s => k { fr with env := s }) st (answers fr.env)) :
    Translates I c n (t, n) (fun s => ⟨answers s, false⟩) false where
  ctr := le_refl n
  exec fr k k' st L _ hL hk := by
    rw [ht]
    refine ChoiceStack.tryEach_eq _ fun s st' hst => ?_
    rcases hst with rfl | ⟨r, rfl⟩
    · exact hk _ _ agrees_refl hL rfl
    · exact hk _ _ agrees_refl (hL.trans (Nat.le_succ _)) (ChoiceStack.cutTo_cons hL)

theorem Translates.cutto : Translates (V := V) I c n (.cutto c, n) (fun s => ⟨[s], true⟩) true where
  ctr := le_refl n
  exec fr k k' st L hc hL hk := by
    obtain ⟨v, rfl, -, hv⟩ := hc rfl
    rw [Code.exec]
    simp only [Option.bind_some, hv]
    rw [hk fr _ agrees_refl (ChoiceStack.length_cutTo hL).ge
      (ChoiceStack.cutTo_of_le (ChoiceStack.length_cutTo hL).le)]
    rfl

/-! ### Conditionals -/

/-- Code for the else part, which is executed where the choice point for `v₁` has been saved. -/
structure TranslatesElse (I : Interp V G) (c : Option VarId) (v₁ : VarId) (n : Nat)
    (t : Code × Nat) (o : Env V G → Outcome (Env V G)) (cut : Bool) : Prop where
  ctr : n ≤ t.2
  exec : ∀ fr k k' st L, Old n v₁ → fr.cps v₁ = some st.length →
    (cut = true → ∃ v, c = some v ∧ Old n v ∧ fr.cps v = some L) →
    L ≤ st.length → Handles n L fr st k k' →
      t.1.exec I I.call fr k st = (o fr.env).deliver k' st.fail (st.cutTo L).fail

theorem Translates.else {t : Code × Nat}
    (h : Translates I c n t o cut) : TranslatesElse I c v₁ n t o cut :=
  ⟨h.ctr, fun fr k k' st L _ _ => h.exec fr k k' st L⟩

/-- A condition, the cut back to the choice point that has been saved before it, and the goal. -/
theorem Translates.condition {c' : Option VarId} {st0 : ChoiceStack G}
    (ha : Translates I c' m ta o cut) (hb : Translates I c ta.2 tb o' cut') (hnm : n ≤ m)
    (hv1 : Old m v₁) (hsaved : fr.cps v₁ = some st.length) (hst0 : st0.cutTo st.length = st)
    (hle : st.length ≤ st0.length)
    (hcut : cut = true → ∃ v, c' = some v ∧ Old m v ∧ fr.cps v = some st0.length)
    (hcut' : cut' = true → ∃ v, c = some v ∧ Old n v ∧ fr.cps v = some L)
    (hL : L ≤ st.length) (hk : Handles n L fr st k k') :
    ta.1.exec I I.call fr
        (fun fr' st' => (Code.and (.cutto (some v₁)) tb.1).exec I I.call fr' k st') st0 =
      (o fr.env).answers.foldr
        (fun s _ => (o' s).deliver k' st.fail (st.cutTo L).fail) st0.fail := by
  have hkA : Handles m st0.length fr st0
      (fun fr' st' => (Code.and (.cutto (some v₁)) tb.1).exec I I.call fr' k st')
      fun s _ => (o' s).deliver k' st.fail (st.cutTo L).fail := by
    intro fr' st' hfr hlen hsame
    have hcps : fr'.cps v₁ = some st.length := (hfr v₁ hv1).trans hsaved
    have hback : st'.cutTo st.length = st :=
      (ChoiceStack.cutTo_congr hle hlen (le_refl _) hsame).trans hst0
    have hfr' : Agrees n fr fr' := agrees_refl.trans hfr hnm
    simp only [Code.exec, Option.bind_some, hcps, hback]
    exact hb.exec fr' k k' st L (cut_later hcut' hfr' (hnm.trans ha.ctr)) hL
      (hk.later hfr' (hnm.trans ha.ctr) rfl)
  rw [ha.exec fr _ _ st0 _ hcut (le_refl _) hkA, ChoiceStack.cutTo_self, Outcome.deliver, ite_self]

/-- The code of a condition, in which a cut is local. -/
def condition (n : Nat) (a : Body) : Code × Nat :=
  if a.haveHardcut then
    (.and (.savecp (.gensym n)) (preBody (some (.gensym n)) (n + 1) a).1,
      (preBody (some (.gensym n)) (n + 1) a).2)
  else preBody none n a

theorem condition_ctr
    (ha : ∀ c n, Translates I c n (preBody c n a) (a.eval I) a.haveHardcut) (m : Nat) :
    m ≤ (condition m a).2 := by
  rw [condition]
  split
  next => exact (Nat.le_succ m).trans (ha _ _).ctr
  next => exact (ha _ _).ctr

theorem condition_spec
    {st0 : ChoiceStack G} (ha : ∀ c n, Translates I c n (preBody c n a) (a.eval I) a.haveHardcut)
    (hb : Translates I c (condition m a).2 tb o' cut') (hnm : n ≤ m) (hv1 : Old m v₁)
    (hsaved : fr.cps v₁ = some st.length) (hst0 : st0.cutTo st.length = st)
    (hle : st.length ≤ st0.length)
    (hcut' : cut' = true → ∃ v, c = some v ∧ Old n v ∧ fr.cps v = some L)
    (hL : L ≤ st.length) (hk : Handles n L fr st k k') :
    (condition m a).1.exec I I.call fr
        (fun fr' st' => (Code.and (.cutto (some v₁)) tb.1).exec I I.call fr' k st') st0 =
      (a.eval I fr.env).answers.foldr
        (fun s _ => (o' s).deliver k' st.fail (st.cutTo L).fail) st0.fail := by
  rw [condition] at hb ⊢
  split at hb
  next hcut =>
    rw [if_pos hcut]
    have hsave := agrees_save fr st0.length (le_refl m)
    have hsaven := agrees_save fr st0.length hnm
    exact (ha _ _).condition hb (hnm.trans (Nat.le_succ m)) (hv1.mono (Nat.le_succ m))
      ((hsave v₁ hv1).trans hsaved) hst0 hle
      (fun _ => ⟨_, rfl, old_gensym (Nat.lt_succ_self m), update_self ..⟩)
      (cut_later hcut' hsaven (le_refl n)) hL (hk.later hsaven (le_refl n) rfl)
  next hcut =>
    rw [if_neg hcut]
    exact (ha none m).condition hb hnm hv1 hsaved hst0 hle (fun h => absurd h hcut) hcut' hL hk

theorem ifThenElse_eq {γ : Type*} {o : Outcome (Env V G)} {f : Env V G → γ} {x : γ}
    {p : Bool} (hp : p = true ↔ o.answers ≠ []) (hs : ∀ y ∈ o.answers, y = s) :
    o.answers.foldr (fun y _ => f y) x = if p then f s else x := by
  obtain ⟨as, cut⟩ := o
  cases as with
  | nil => rw [if_neg fun h => hp.mp h rfl]; rfl
  | cons y ys => rw [if_pos (hp.mpr (List.cons_ne_nil y ys)), ← hs y List.mem_cons_self]; rfl

theorem Body.eq_failed (h : d.isFailed = true) : d = .failed := by
  rw [isFailed.eq_def] at h
  split at h
  next => rfl
  next => cases h

theorem Body.eq_succeeded (h : d.isSucceeded = true) : d = .succeeded := by
  rw [isSucceeded.eq_def] at h
  split at h
  next => rfl
  next => cases h

theorem preIfthen_none (h : a.allInlineTests = none) : preIfthen c n a b d =
    let t1 := condition (n + 1) a
    let nb := preBody c t1.2 b
    let then1 := Code.and t1.1 (.and (.cutto (some (.gensym n))) nb.1)
    if d.isFailed then (.and (.savecp (.gensym n)) then1, nb.2)
    else
      let nc := preElse c (.gensym n) nb.2 d
      (.and (.savecp (.gensym n)) (.or then1 nc.1), nc.2) := by
  rw [preIfthen, h]
  rfl

section

variable (ha : ∀ c n, Translates I c n (preBody c n a) (a.eval I) a.haveHardcut)
include ha

theorem preIfthen_spec (hb : ∀ c n, Translates I c n (preBody c n b) (b.eval I) b.haveHardcut)
    (hd : ∀ c n, Translates I c n (preBody c n d) (d.eval I) d.haveHardcut)
    (helse : a.allInlineTests = none → ∀ c v₁ n,
      TranslatesElse I c v₁ n (preElse c v₁ n d) (d.eval I) d.haveHardcut) :
    Translates I c n (preIfthen c n a b d)
      (fun s => (a.eval I s).ifThenElse (b.eval I) (d.eval I s))
      (b.haveHardcut || d.haveHardcut) := by
  cases htest : a.allInlineTests with
  | some a1 =>
    rw [preIfthen, htest]
    have htests := allInlineTests_spec I htest
    refine ⟨(hb c n).ctr.trans (hd c _).ctr, fun fr k k' st L hc hL hk => ?_⟩
    rw [Code.exec, Outcome.deliver_ifThenElse,
      ifThenElse_eq (htests.holds fr.env) (htests.answers fr.env)]
    split
    next =>
      exact (hb c n).exec fr k k' st L (fun h => hc (by rw [h, Bool.true_or])) hL hk
    next =>
      exact (hd c _).exec fr k k' st L
        (cut_later (fun h => hc (by rw [h, Bool.or_true])) agrees_refl (hb c n).ctr) hL
        (hk.later agrees_refl (hb c n).ctr rfl)
  | none =>
    rw [preIfthen_none htest]
    have hctr := (condition_ctr ha (n + 1)).trans (hb c _).ctr
    -- what is common to conditionals with and without an else part
    have hthen : ∀ fr k k' st L st0, (b.haveHardcut = true → ∃ v, c = some v ∧ Old n v ∧
        fr.cps v = some L) → L ≤ st.length → Handles n L fr st k k' → st0.cutTo st.length = st →
        st.length ≤ st0.length →
        (Code.and (condition (n + 1) a).1 (.and (.cutto (some (.gensym n)))
            (preBody c (condition (n + 1) a).2 b).1)).exec I I.call
          { fr with cps := update fr.cps (.gensym n) (some st.length) } k st0 =
          (a.eval I fr.env).answers.foldr
            (fun s _ => (b.eval I s).deliver k' st.fail (st.cutTo L).fail) st0.fail := by
      intro fr k k' st L st0 hcut hL hk hst0 hle
      have hsave := agrees_save fr st.length (le_refl n)
      exact condition_spec ha (hb c _) (Nat.le_succ n) (old_gensym (Nat.lt_succ_self n))
        (update_self ..) hst0 hle (cut_later hcut hsave (le_refl n)) hL
        (hk.later hsave (le_refl n) rfl)
    simp only
    split
    next hfailed =>
      refine ⟨(Nat.le_succ n).trans hctr, fun fr k k' st L hc hL hk => ?_⟩
      rw [Code.exec, Code.exec, hthen fr k k' st L st (fun h => hc (by rw [h, Bool.true_or])) hL hk
        (ChoiceStack.cutTo_self st) (le_refl _), Outcome.deliver_ifThenElse, Body.eq_failed hfailed,
        eval_failed, Outcome.deliver_fail]
    next =>
      have hnc := helse htest c (.gensym n) (preBody c (condition (n + 1) a).2 b).2
      refine ⟨(Nat.le_succ n).trans (hctr.trans hnc.ctr), fun fr k k' st L hc hL hk => ?_⟩
      have hsave := agrees_save fr st.length (le_refl n)
      have hn := (Nat.le_succ n).trans hctr
      rw [Code.exec, Code.exec, Code.exec, hthen fr k k' st L _
        (fun h => hc (by rw [h, Bool.true_or])) hL hk
        ((ChoiceStack.cutTo_cons (le_refl _)).trans (ChoiceStack.cutTo_self st)) (Nat.le_succ _),
        Outcome.deliver_ifThenElse, ChoiceStack.fail_cons]
      rw [hnc.exec _ k k' st L (old_gensym hctr) (update_self ..)
        (cut_later (fun h => hc (by rw [h, Bool.or_true])) hsave hn) hL (hk.later hsave hn rfl)]

/-- The branches of a conditional that follow the first one. -/
theorem preElse_spec (hb : ∀ c n, Translates I c n (preBody c n b) (b.eval I) b.haveHardcut)
    (helse : ∀ n, TranslatesElse I c v₁ n (preElse c v₁ n d) (d.eval I) d.haveHardcut)
    (hcutfree : a.haveHardcut = false) (hd : d.isFailed = false) :
    TranslatesElse I c v₁ n (preElse c v₁ n (.or (.if a b) d))
      (fun s => (a.eval I s).ifThenElse (b.eval I) (d.eval I s))
      (b.haveHardcut || d.haveHardcut) := by
  rw [preElse, hd]
  have hctrb := (ha (some v₁) n).ctr.trans (hb c (preBody (some v₁) n a).2).ctr
  refine ⟨hctrb.trans (helse _).ctr, fun fr k k' st L hv1 hsaved hc hL hk => ?_⟩
  show Code.exec I I.call (.or (.and _ (.and _ _)) _) fr k st = _
  rw [Code.exec, Code.exec, (ha (some v₁) n).condition (hb c _) (le_refl n) hv1 hsaved
    ((ChoiceStack.cutTo_cons (le_refl _)).trans (ChoiceStack.cutTo_self st)) (Nat.le_succ _)
    (fun h => absurd h (by rw [hcutfree]; exact Bool.false_ne_true))
    (fun h => hc (by rw [h, Bool.true_or])) hL hk, Outcome.deliver_ifThenElse,
    ChoiceStack.fail_cons, (helse _).exec fr k k' st L (hv1.mono hctrb) hsaved
    (cut_later (fun h => hc (by rw [h, Bool.or_true])) agrees_refl hctrb) hL
    (hk.later agrees_refl hctrb rfl)]

end

/-! ### Bodies -/

/-- No later branch has a cut of its own in its condition. The last branch is not one of those if it
has no else part. -/
def Body.chainCutFree : Body → Bool
  | .or (.if a _) c => c.isFailed || (!a.haveHardcut && c.chainCutFree)
  | _ => true

/-- Where the condition of a conditional is not made of inline tests, its later branches have no
cuts of their own in their conditions. -/
def Body.localCuts : Body → Bool
  | .and a b => a.localCuts && b.localCuts
  | .if a b => a.localCuts && b.localCuts
  | .or (.if a b) c => a.localCuts && b.localCuts && c.localCuts &&
    (a.allInlineTests.isSome || c.chainCutFree)
  | .or a b => a.localCuts && b.localCuts
  | .not g => g.localCuts
  | .goal _ _ => true
  | .inlinegoal _ _ _ => true

theorem localCuts_getTest (h : b.localCuts = true) : b.getTest.2.localCuts = true := by
  induction b using Body.getTest.induct with
  | case1 test0 rest test ht | case2 test0 rest ht =>
    rw [Body.getTest, ht]
    rw [Body.localCuts, Bool.and_eq_true] at h
    exact h.2
  | case3 test0 rest hne ih =>
    rw [Body.localCuts, Bool.and_eq_true] at h
    rw [Body.getTest, Body.localCuts, ih h.1, h.2]
    · rfl
    · exact hne
  | case4 test h1 h2 =>
    rw [Body.getTest]
    · rfl
    · exact h1
    · exact h2

theorem haveHardcut_getTest (h : b.getTest.2.haveHardcut = true) : b.haveHardcut = true := by
  induction b using Body.getTest.induct with
  | case1 test0 rest test ht | case2 test0 rest ht =>
    rw [Body.getTest, ht] at h
    rw [Body.haveHardcut, Bool.or_eq_true]
    exact .inr h
  | case3 test0 rest hne ih =>
    rw [Body.getTest, Body.haveHardcut, Bool.or_eq_true] at h
    · rw [Body.haveHardcut, Bool.or_eq_true]
      exact h.imp_left ih
    · exact hne
  | case4 test h1 h2 =>
    rw [Body.getTest] at h
    · cases h
    · exact h1
    · exact h2

theorem Translates.congr {t : Code × Nat}
    (h : Translates I c n t o cut) (ho : ∀ s, o s = o' s) (hcut : cut = true → cut' = true) :
    Translates I c n t o' cut' where
  ctr := h.ctr
  exec fr k k' st L hc hL hk := by
    rw [h.exec fr k k' st L (fun hcut0 => hc (hcut hcut0)) hL hk, ho]

/-- A disjunction with complementary tests that becomes a conditional. -/
theorem Translates.ifThenElse (test : Code) (ha : Translates I c n ta o cut)
    (hb : Translates I c ta.2 tb o' cut') :
    Translates I c n (.ifThenElse test ta.1 tb.1, tb.2)
      (fun s => if test.holds I s then o s else o' s) (cut || cut') where
  ctr := ha.ctr.trans hb.ctr
  exec fr k k' st L hc hL hk := by
    rw [Code.exec]
    split
    next => exact ha.exec fr k k' st L (fun h => hc (by rw [h, Bool.true_or])) hL hk
    next =>
      exact hb.exec fr k k' st L
        (cut_later (fun h => hc (by rw [h, Bool.or_true])) agrees_refl ha.ctr) hL
        (hk.later agrees_refl ha.ctr rfl)

/-- A disjunction whose first goal is not a conditional. -/
theorem preBody_or (hif : ∀ g1 g2, a ≠ .if g1 g2) (hab : (Body.or a b).localCuts = true)
    (ih : ∀ d : Body, d.size < (Body.or a b).size → d.localCuts = true →
      ∀ c n, Translates I c n (preBody c n d) (d.eval I) d.haveHardcut) :
    Translates I c n (preBody c n (.or a b)) ((Body.or a b).eval I) (Body.or a b).haveHardcut := by
  have hlocal : a.localCuts = true ∧ b.localCuts = true := by
    rw [Body.localCuts, Bool.and_eq_true] at hab
    · exact hab
    · exact hif
  have heval : ∀ s, (Body.or a b).eval I s = (a.eval I s).orElse (b.eval I s) := by
    intro s
    rw [Body.eval]
    exact hif
  rw [preBody]
  · split
    next test tp0 fp0 hcompl =>
      have hsize := Body.size_complCond hcompl
      have hparts := complCond_parts hcompl
      have hwhole := fun s => (heval s).trans (complCond_eval hcompl s)
      split
      next hempty =>
        rw [Bool.and_eq_true] at hempty
        refine (Translates.goal (I.inline "true" 0 []) fun _ _ _ => rfl).congr (fun s => ?_)
          (by rintro ⟨⟩)
        rw [hwhole, Body.eq_succeeded hempty.1, Body.eq_succeeded hempty.2, ite_self,
          eval_succeeded, I.true_eq]
        rfl
      next =>
        have ht := (ih tp0 hsize.1 (hparts.1 ▸ localCuts_getTest hlocal.1) c n).ifThenElse test
          (ih fp0 hsize.2 (hparts.2 ▸ localCuts_getTest hlocal.2) c _)
        refine ht.congr (fun s => (hwhole s).symm) fun h => ?_
        rw [Bool.or_eq_true, hparts.1, hparts.2] at h
        rw [Body.haveHardcut, Bool.or_eq_true]
        exact h.imp haveHardcut_getTest haveHardcut_getTest
    next =>
      have hsize : a.size < (Body.or a b).size ∧ b.size < (Body.or a b).size := by
        rw [Body.size]
        omega
      exact ((ih a hsize.1 hlocal.1 c n).or (ih b hsize.2 hlocal.2 c _)).congr
        (fun s => (heval s).symm) fun h => h
  · exact hif

theorem preBody_spec (I : Interp V G) (N : Nat) : ∀ b : Body, b.size ≤ N → b.localCuts = true →
    (∀ c n, Translates I c n (preBody c n b) (b.eval I) b.haveHardcut) ∧
    (b.chainCutFree = true → ∀ c v₁ n,
      TranslatesElse I c v₁ n (preElse c v₁ n b) (b.eval I) b.haveHardcut) := by
  induction N with
  | zero => exact fun b hb => absurd hb (Nat.not_le.mpr b.size_pos)
  | succ N ih =>
    intro b hN hb
    have hbody : ∀ c n, Translates I c n (preBody c n b) (b.eval I) b.haveHardcut := by
      intro c n
      cases b with
      | and a b =>
        rw [Body.size] at hN
        rw [Body.localCuts, Bool.and_eq_true] at hb
        rw [preBody]
        exact ((ih a (by omega) hb.1).1 c n).and ((ih b (by omega) hb.2).1 c _)
      | «if» a b =>
        rw [Body.size] at hN
        rw [Body.localCuts, Bool.and_eq_true] at hb
        rw [preBody]
        have hfailed := ih .failed (by rw [Body.size]; omega) rfl
        have hif := preIfthen_spec (ih a (by omega) hb.1).1 (ih b (by omega) hb.2).1 hfailed.1
          (fun _ => hfailed.2 rfl) (c := c) (n := n)
        refine hif.congr (fun s => ?_) fun h => ?_
        · rw [Body.eval, eval_failed]
        · rw [Body.haveHardcut]
          exact (Bool.or_eq_true _ _ ▸ h).resolve_right Bool.false_ne_true
      | or a d =>
        by_cases hif : ∃ g1 g2, a = .if g1 g2
        · obtain ⟨g1, g2, rfl⟩ := hif
          rw [Body.size, Body.size] at hN
          rw [Body.localCuts, Bool.and_eq_true, Bool.and_eq_true, Bool.and_eq_true,
            Bool.or_eq_true] at hb
          obtain ⟨⟨⟨h1, h2⟩, hd⟩, hchain⟩ := hb
          have hif := preIfthen_spec (ih g1 (by omega) h1).1 (ih g2 (by omega) h2).1
            (ih d (by omega) hd).1 (fun hnone => (ih d (by omega) hd).2 (hchain.resolve_left
              fun hsome => by rw [hnone] at hsome; cases hsome)) (c := c) (n := n)
          rw [preBody]
          exact hif.congr (fun s => by rw [Body.eval]) fun h => h
        · refine preBody_or (fun g1 g2 h => hif ⟨g1, g2, h⟩) hb fun e he hlocal => ?_
          exact (ih e (by omega) hlocal).1
      | not g =>
        rw [Body.size] at hN
        rw [Body.localCuts] at hb
        rw [preBody]
        have hfailed := ih .failed (by rw [Body.size]; omega) rfl
        have hsucceeded := ih .succeeded (by rw [Body.size]; omega) rfl
        have hif := preIfthen_spec (ih g (by omega) hb).1 hfailed.1 hsucceeded.1
          (fun _ => hsucceeded.2 rfl) (c := c) (n := n)
        refine hif.congr (fun s => ?_) fun h => absurd h Bool.false_ne_true
        rw [Body.eval, eval_succeeded, show Body.failed.eval I =
          fun _ ↦ .fail from funext eval_failed]
      | goal sym args =>
        rw [preBody]
        exact (Translates.goal (I.goal sym args) fun _ _ _ => rfl).congr (fun _ => rfl) fun h => h
      | inlinegoal pred arity args =>
        rw [preBody]
        split
        next h =>
          rw [Bool.and_eq_true, decide_eq_true_iff, decide_eq_true_iff] at h
          refine Translates.cutto.congr (fun s => ?_) fun _ => ?_
          · rw [Body.eval, if_pos h]
          · rw [Body.haveHardcut, h.1, h.2]
            rfl
        next h =>
          rw [Bool.and_eq_true, decide_eq_true_iff, decide_eq_true_iff] at h
          exact (Translates.goal (I.inline pred arity args) fun _ _ _ => rfl).congr
            (fun s => (eval_inline h args s).symm) (by rintro ⟨⟩)
    refine ⟨hbody, fun hchain c v₁ n => ?_⟩
    by_cases hif : ∃ g1 g2 d, b = .or (.if g1 g2) d
    · obtain ⟨g1, g2, d, rfl⟩ := hif
      rw [Body.size, Body.size] at hN
      rw [Body.localCuts, Bool.and_eq_true, Bool.and_eq_true, Bool.and_eq_true] at hb
      obtain ⟨⟨⟨h1, h2⟩, hd⟩, -⟩ := hb
      rw [Body.chainCutFree, Bool.or_eq_true, Bool.and_eq_true, Bool.not_eq_true'] at hchain
      cases hfailed : d.isFailed with
      | true =>
        rw [preElse, hfailed]
        have hlocal : (Body.if g1 g2).localCuts = true := by
          rw [Body.localCuts, h1, h2]
          rfl
        refine (((ih (.if g1 g2) (by rw [Body.size]; omega) hlocal).1 c n).congr (fun s => ?_)
          fun h => ?_).else
        · rw [Body.eval, Body.eval, Body.eq_failed hfailed, eval_failed]
        · rw [Body.haveHardcut, h]
          rfl
      | false =>
        have hrest := hchain.resolve_left fun h => by rw [hfailed] at h; cases h
        have helse := preElse_spec (ih g1 (by omega) h1).1 (ih g2 (by omega) h2).1
          ((ih d (by omega) hd).2 hrest.2 c v₁) hrest.1 hfailed (n := n)
        have heval : (Body.or (.if g1 g2) d).eval I =
            fun s => (g1.eval I s).ifThenElse (g2.eval I) (d.eval I s) := by
          funext s
          rw [Body.eval]
        rw [heval]
        exact helse
    · rw [preElse]
      · exact (hbody c n).else
      · exact fun g1 g2 d h => hif ⟨g1, g2, d, h⟩

end XSBEngine.Compiler
