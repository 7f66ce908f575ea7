import Mathlib

/-!
# Backtracking with cut

What a goal returns is a list of answers, and whether it has cut. A machine with a stack of choice
points runs a continuation for each answer; its stack holds for each choice point what is returned
by backtracking to it.
-/

namespace Backtracking

open List

variable {α β γ : Type*}

/-! ### Outcomes -/

/-- The answers in order, and whether the goal has cut, so that nothing else is tried after them. -/
structure Outcome (α : Type*) where
  answers : List α
  cut : Bool

namespace Outcome

/-- No answer. -/
def fail : Outcome α := ⟨[], false⟩

/-- The answers of a goal for each answer of a list, up to the first cut. -/
def each (f : α → Outcome β) (cut : Bool) : List α → Outcome β
  | [] => ⟨[], cut⟩
  | a :: as =>
    if (f a).cut then ⟨(f a).answers, true⟩
    else ⟨(f a).answers ++ (each f cut as).answers, (each f cut as).cut⟩

/-- A conjunction. -/
def bind (o : Outcome α) (f : α → Outcome β) : Outcome β := each f o.cut o.answers

/-- A disjunction. -/
def orElse (o o' : Outcome α) : Outcome α :=
  if o.cut then o else ⟨o.answers ++ o'.answers, o'.cut⟩

/-- The first answer of a condition decides; its cuts are local. -/
def ifThenElse (o : Outcome α) (f : α → Outcome β) (e : Outcome β) : Outcome β :=
  match o.answers with
  | [] => e
  | a :: _ => f a

/-- What a continuation makes of the answers, with what is returned after them, and after a cut. -/
def deliver (k : α → γ → γ) (o : Outcome α) (rest cutRest : γ) : γ :=
  o.answers.foldr k (if o.cut then cutRest else rest)

variable {o o' : Outcome α} {f : α → Outcome β} {k : β → γ → γ} {rest cutRest : γ}

@[simp] theorem deliver_fail : (fail : Outcome β).deliver k rest cutRest = rest := rfl

theorem deliver_each (cut : Bool) (as : List α) : (each f cut as).deliver k rest cutRest =
    as.foldr (fun a r => (f a).deliver k r cutRest) (if cut then cutRest else rest) := by
  induction as with
  | nil => rfl
  | cons a as ih =>
    rw [each, foldr_cons, ← ih]
    split
    next h => rw [deliver, deliver, if_pos h, if_pos rfl]
    next h => rw [deliver, foldr_append, deliver, if_neg h, deliver]

theorem deliver_bind : (o.bind f).deliver k rest cutRest =
    o.deliver (fun a r => (f a).deliver k r cutRest) rest cutRest :=
  deliver_each o.cut o.answers

theorem deliver_orElse {k : α → γ → γ} : (o.orElse o').deliver k rest cutRest =
    o.deliver k (o'.deliver k rest cutRest) cutRest := by
  rw [orElse]
  split
  next h => rw [deliver, deliver, if_pos h, if_pos h]
  next h => rw [deliver, foldr_append, deliver, if_neg h, deliver]

theorem deliver_ifThenElse {e : Outcome β} : (o.ifThenElse f e).deliver k rest cutRest =
    o.answers.foldr (fun a _ => (f a).deliver k rest cutRest) (e.deliver k rest cutRest) := by
  rw [ifThenElse]
  split
  next h => rw [h, foldr_nil]
  next h => rw [h, foldr_cons]

/-- Outcomes are equal if continuations do the same with them. -/
theorem ext_deliver {o o' : Outcome β}
    (h : ∀ (k : β → List β × Bool → List β × Bool) rest cutRest,
      o.deliver k rest cutRest = o'.deliver k rest cutRest) : o = o' := by
  have hall : ∀ o : Outcome β,
      o.deliver (fun b p => (b :: p.1, p.2)) ([], false) ([], true) = (o.answers, o.cut) := by
    rintro ⟨as, cut⟩
    rw [deliver]
    induction as with
    | nil => cases cut <;> rfl
    | cons a as ih =>
      rw [foldr_cons]
      simp only at ih
      rw [ih]
  have heq := (hall o).symm.trans ((h _ _ _).trans (hall o'))
  cases o
  cases o'
  cases heq
  rfl

theorem bind_assoc {δ : Type*} (o : Outcome α) (f : α → Outcome β) (g : β → Outcome δ) :
    (o.bind f).bind g = o.bind fun a => (f a).bind g := by
  apply ext_deliver
  intro k rest cutRest
  simp only [deliver_bind]

/-- One answer. -/
def pure (a : α) : Outcome α := ⟨[a], false⟩

theorem pure_bind (a : α) (f : α → Outcome β) : (pure a).bind f = f a := by
  apply ext_deliver
  intro k rest cutRest
  rw [deliver_bind]
  rfl

theorem bind_pure (o : Outcome α) : o.bind pure = o := by
  apply ext_deliver
  intro k rest cutRest
  rw [deliver_bind]
  rfl

theorem orElse_fail (o : Outcome α) : o.orElse fail = o := by
  apply ext_deliver
  intro k rest cutRest
  rw [deliver_orElse, deliver_fail]

/-- A conjunction in which all answers of the first goal are the same. -/
theorem bind_of_answers {x : α}
    (h : ∀ y ∈ o.answers, y = x) (hcut : (f x).cut = false) (ho : o.cut = false) :
    (∀ y ∈ (o.bind f).answers, y ∈ (f x).answers) ∧ (o.bind f).cut = false ∧
      ((o.bind f).answers ≠ [] ↔ o.answers ≠ [] ∧ (f x).answers ≠ []) := by
  obtain ⟨as, cut⟩ := o
  cases ho
  show (∀ y ∈ (each f false as).answers, _) ∧ (each f false as).cut = false ∧ _
  induction as with
  | nil => exact ⟨nofun, rfl, iff_of_false (fun h => h rfl) fun h => h.1 rfl⟩
  | cons a as ih =>
    obtain ⟨hans, hcut', -⟩ := ih fun y hy => h y (mem_cons_of_mem _ hy)
    have ha : a = x := h a mem_cons_self
    rw [bind, each, ha, hcut, if_neg Bool.false_ne_true]
    refine ⟨fun y hy => ?_, hcut', ?_⟩
    · rcases mem_append.mp hy with hy | hy
      · exact hy
      · exact hans y hy
    · constructor
      · intro hne
        refine ⟨cons_ne_nil _ _, fun hnil => hne ?_⟩
        rw [eq_nil_iff_forall_not_mem] at hnil ⊢
        intro y hy
        rcases mem_append.mp hy with hy | hy
        · exact hnil y hy
        · exact hnil y (hans y hy)
      · exact fun hne hnil => hne.2 (append_eq_nil_iff.mp hnil).1

end Outcome

/-! ### Stacks of choice points -/

/-- For each choice point, the last one first, what is returned by backtracking to it. -/
abbrev ChoiceStack (γ : Type*) := List (List γ)

namespace ChoiceStack

variable {st st' : ChoiceStack γ} {n : Nat} {r : List γ}

/-- Backtrack to the last choice point. -/
def fail (st : ChoiceStack γ) : List γ := st.headD []

/-- Cut back to the first `n` choice points. -/
def cutTo (n : Nat) (st : ChoiceStack γ) : ChoiceStack γ := st.drop (st.length - n)

/-- Run a continuation for each answer, with a choice point as long as there are more. -/
def tryEach (k : α → ChoiceStack γ → List γ) (st : ChoiceStack γ) : List α → List γ
  | [] => fail st
  | [a] => k a st
  | a :: as => k a (tryEach k st as :: st)

@[simp] theorem fail_cons : fail (r :: st) = r := rfl

theorem cutTo_self (st : ChoiceStack γ) : cutTo st.length st = st := by
  rw [cutTo, Nat.sub_self, drop_zero]

theorem cutTo_of_le (h : st.length ≤ n) : cutTo n st = st := by
  rw [cutTo, Nat.sub_eq_zero_of_le h, drop_zero]

theorem cutTo_cons (h : n ≤ st.length) : cutTo n (r :: st) = cutTo n st := by
  rw [cutTo, cutTo, length_cons, Nat.succ_sub h, drop_succ_cons]

theorem length_cutTo (h : n ≤ st.length) : (cutTo n st).length = n := by
  rw [cutTo, length_drop]
  omega

/-- What is below stays when stacks agree further up. -/
theorem cutTo_congr {m : Nat} (hmn : m ≤ n) (hn : n ≤ st.length) (hn' : n ≤ st'.length)
    (h : cutTo n st = cutTo n st') : cutTo m st = cutTo m st' := by
  have hdrop : ∀ st : ChoiceStack γ, n ≤ st.length → cutTo m st = cutTo m (cutTo n st) := by
    intro st hst
    rw [cutTo, cutTo, length_cutTo hst, cutTo, drop_drop]
    congr 1
    omega
  rw [hdrop st hn, hdrop st' hn', h]

/-- A continuation that only reads what is returned by backtracking, and what is below. -/
theorem tryEach_eq {k : α → ChoiceStack γ → List γ} {k' : α → List γ → List γ} (as : List α)
    (hk : ∀ a st', (st' = st ∨ ∃ r, st' = r :: st) → k a st' = k' a (fail st')) :
    tryEach k st as = as.foldr k' (fail st) := by
  induction as with
  | nil => rfl
  | cons a as ih =>
    cases as with
    | nil => exact hk a st (.inl rfl)
    | cons b bs =>
      rw [tryEach, hk _ _ (.inr ⟨_, rfl⟩), fail_cons, ih]
      rfl
      nofun

end ChoiceStack

end Backtracking
