import Mathlib

/-!
# Preprocessing of predicates

`XSB/cmplib/preproc.P:56–285` and `XSB/cmplib/pre_cond.P:40–106`. Control constructs become choice
points that are saved and cut back to. The symbol table and the pragmas are left out.
-/

namespace XSBEngine.Compiler

/-- A variable of a clause, or a symbol of `cmp_gensym('_v', _)`. -/
inductive VarId
  | num (n : Nat)
  | gensym (n : Nat)
deriving DecidableEq

/-- A symbol. -/
structure Sym where
  name : String
  arity : Nat
deriving DecidableEq

/-- An argument in the internal form. -/
inductive Arg
  | varocc (id : VarId)
  | integer (value : Int)
  | real (digits : String)
  | constant (sym : Sym)
  | string (chars : List Nat)
  | structure (sym : Sym) (args : List Arg)

/-- The body of a clause. -/
inductive Body
  | and (goal₁ goal₂ : Body)
  | or (goal₁ goal₂ : Body)
  | if (test goal : Body)
  | not (goal : Body)
  | goal (sym : Sym) (args : List Arg)
  | inlinegoal (pred : String) (arity : Nat) (args : List Arg)

/-- The body of a clause after preprocessing. `savecp` and `cutto` stand for the inline goals
`_$savecp/1` and `_$cutto/1`; the variable of a cut is missing if it has not been given one. -/
inductive Code
  | and (goal₁ goal₂ : Code)
  | or (goal₁ goal₂ : Code)
  | ifThenElse (test goal₁ goal₂ : Code)
  | goal (sym : Sym) (args : List Arg)
  | inlinegoal (pred : String) (arity : Nat) (args : List Arg)
  | savecp (cutVid : VarId)
  | cutto (cutVid : Option VarId)

structure Clause (α : Type*) where
  args : List Arg
  body : α

/-- `pred(Sym,Clauses,_)`. -/
structure Pred (α : Type*) where
  sym : Sym
  clauses : List (Clause α)

/-! ### Tests -/

/-- `inline_jumpcof_cond`, `XSB/cmplib/builtin.P:311–325`. -/
def inlineJumpcofCond (pred : String) (arity : Nat) : Bool :=
  arity = 1 ∧ pred ∈ ["atom", "integer", "real", "number", "atomic", "compound", "callable",
    "directly_callable", "is_list", "is_most_general_term", "is_attv", "var", "nonvar",
    "is_number_atom", "ground"]

/-- `inline_test`. -/
def inlineTest (pred : String) (arity : Nat) : Bool :=
  (arity = 2 ∧ pred ∈ [">", ">=", "=<", "<", "=:=", "=\\=", "==", "@=", "\\==", "@<", "@=<", "@>",
    "@>="]) ∨ (arity = 0 ∧ pred = "true") ∨ inlineJumpcofCond pred arity

/-- `inline_neg0`. -/
def inlineNeg0 : String → Nat → Option String
  | "=:=", 2 => some "=\\="
  | "=\\=", 2 => some "=:="
  | "==", 2 => some "\\=="
  | "\\==", 2 => some "=="
  | "@>", 2 => some "@=<"
  | "@>=", 2 => some "@<"
  | "@=<", 2 => some "@>"
  | "@<", 2 => some "@>="
  | "var", 1 => some "nonvar"
  | "nonvar", 1 => some "var"
  | "fail", 0 => some "true"
  | "true", 0 => some "fail"
  | _, _ => none

mutual

/-- `arg_same`. -/
def argSame : Arg → Arg → Bool
  | .varocc id, .varocc id' => id = id'
  | .integer v, .integer v' => v = v'
  | .constant s, .constant s' => s = s'
  | .string s, .string s' => s = s'
  | .structure sym args, .structure sym' args' => sym = sym' && argsSame args args'
  | _, _ => false

/-- `args_same`. -/
def argsSame : List Arg → List Arg → Bool
  | [], [] => true
  | a :: args, a' :: args' => argSame a a' && argsSame args args'
  | _, _ => false

end

namespace Body

/-- `inlinegoal(fail,0,[])`. -/
abbrev failed : Body := .inlinegoal "fail" 0 []

/-- `inlinegoal(true,0,[])`. -/
abbrev succeeded : Body := .inlinegoal "true" 0 []

/-- The comparison with `inlinegoal(fail,0,[])`. -/
def isFailed : Body → Bool
  | .inlinegoal "fail" 0 [] => true
  | _ => false

/-- The comparison with `inlinegoal(true,0,[])`. -/
def isSucceeded : Body → Bool
  | .inlinegoal "true" 0 [] => true
  | _ => false

/-- `have_hardcut_1`. -/
def haveHardcut : Body → Bool
  | .and g₁ g₂ => haveHardcut g₁ || haveHardcut g₂
  | .if _ g₂ => haveHardcut g₂
  | .or g₁ g₂ => haveHardcut g₁ || haveHardcut g₂
  | .not _ => false
  | .goal _ _ => false
  | .inlinegoal pred arity _ => pred = "!" && arity = 0

/-- `all_inline_tests`. -/
def allInlineTests : Body → Option Code
  | .and g₁ g₂ =>
    match allInlineTests g₁, allInlineTests g₂ with
    | some o₁, some o₂ => some (.and o₁ o₂)
    | _, _ => none
  | .or g₁ g₂ =>
    match allInlineTests g₁, allInlineTests g₂ with
    | some o₁, some o₂ => some (.or o₁ o₂)
    | _, _ => none
  | .inlinegoal pred arity args =>
    if inlineTest pred arity then some (.inlinegoal pred arity args) else none
  | .goal sym args =>
    if inlineJumpcofCond sym.name sym.arity then some (.inlinegoal sym.name sym.arity args)
    else none
  | _ => none

/-- `inline_neg`. -/
def inlineNeg : Body → Option Body
  | .inlinegoal pred arity args => (inlineNeg0 pred arity).map fun neg => .inlinegoal neg arity args
  | _ => none

/-- `get_test`: the test and the rest. -/
def getTest : Body → Body × Body
  | .and (.not test₀) rest =>
    match inlineNeg test₀ with
    | some test => (test, rest)
    | none => (.not test₀, .and succeeded rest)
  | .and test₀ rest => ((getTest test₀).1, .and (getTest test₀).2 rest)
  | test => (test, succeeded)

/-- `compl_cond`: the test, the part for true and the part for false. -/
def complCond (g₁ g₂ : Body) : Option (Code × Body × Body) :=
  match getTest g₁, getTest g₂ with
  | (.inlinegoal p a args₁, tpart), (.inlinegoal p₂ a₂ args₂, fpart) =>
    if a = a₂ ∧ inlineNeg0 p a = some p₂ ∧ argsSame args₁ args₂ then
      some (.inlinegoal p a args₁, tpart, fpart)
    else none
  | _, _ => none

/-- Size, such that negation and conditionals are larger than their translations. -/
def size : Body → Nat
  | .and g₁ g₂ => g₁.size + g₂.size + 1
  | .or g₁ g₂ => g₁.size + g₂.size + 1
  | .if g₁ g₂ => g₁.size + g₂.size + 3
  | .not g => g.size + 4
  | .goal _ _ => 1
  | .inlinegoal _ _ _ => 1

theorem size_pos (b : Body) : 0 < b.size := by
  cases b <;> simp [size]

theorem size_getTest (b : Body) : (getTest b).2.size ≤ b.size := by
  induction b using getTest.induct with
  | case1 test0 rest test h =>
    rw [getTest, h, size]
    simp only
    omega
  | case2 test0 rest h =>
    rw [getTest, h]
    simp only [size]
    omega
  | case3 test0 rest hne ih =>
    rw [getTest]
    · simp only [size]
      omega
    · exact hne
  | case4 test h1 h2 =>
    rw [getTest]
    · exact test.size_pos
    · exact h1
    · exact h2

theorem size_complCond {g1 g2 tpart fpart : Body} {test : Code}
    (h : complCond g1 g2 = some (test, tpart, fpart)) :
    tpart.size < (Body.or g1 g2).size ∧ fpart.size < (Body.or g1 g2).size := by
  have h1 := size_getTest g1
  have h2 := size_getTest g2
  rw [complCond] at h
  split at h
  next ht hf =>
    split at h
    next =>
      cases h
      rw [ht] at h1
      rw [hf] at h2
      simp only at h1 h2
      rw [size]
      omega
    next => cases h
  next => cases h

end Body

/-! ### The transformation -/

open Body in
mutual

/-- `pre_body`, with the counter of `cmp_gensym`. -/
def preBody (cutVid : Option VarId) (ctr : Nat) : Body → Code × Nat
  | .and a b =>
    let (na, ctr) := preBody cutVid ctr a
    let (nb, ctr) := preBody cutVid ctr b
    (.and na nb, ctr)
  | .if a b => preIfthen cutVid ctr a b failed
  | .or (.if a b) c => preIfthen cutVid ctr a b c
  | .or a b =>
    match _h : complCond a b with
    | some (test, tp₀, fp₀) =>
      if isSucceeded tp₀ && isSucceeded fp₀ then (.inlinegoal "true" 0 [], ctr)
      else
        let (tp, ctr) := preBody cutVid ctr tp₀
        let (fp, ctr) := preBody cutVid ctr fp₀
        (.ifThenElse test tp fp, ctr)
    | none =>
      let (na, ctr) := preBody cutVid ctr a
      let (nb, ctr) := preBody cutVid ctr b
      (.or na nb, ctr)
  | .not g => preIfthen cutVid ctr g failed succeeded
  | .inlinegoal pred arity args =>
    if pred = "!" && arity = 0 then (.cutto cutVid, ctr) else (.inlinegoal pred arity args, ctr)
  | .goal sym args => (.goal sym args, ctr)
termination_by b => (b.size, 0)
decreasing_by
  all_goals simp only [size, Prod.lex_def]
  all_goals try have := size_complCond _h
  all_goals try simp only [size] at this
  all_goals omega

/-- `pre_ifthen`. -/
def preIfthen (cutVid : Option VarId) (ctr : Nat) (a b c : Body) : Code × Nat :=
  match allInlineTests a with
  | some a₁ =>
    let (nb, ctr) := preBody cutVid ctr b
    let (nc, ctr) := preBody cutVid ctr c
    (.ifThenElse a₁ nb nc, ctr)
  | none =>
    let cutVid₁ := VarId.gensym ctr
    let (t₁, ctr) :=
      if haveHardcut a then
        let cutVidCond := VarId.gensym (ctr + 1)
        let (t₁a, ctr) := preBody (some cutVidCond) (ctr + 2) a
        (Code.and (.savecp cutVidCond) t₁a, ctr)
      else preBody none (ctr + 1) a
    let (nb, ctr) := preBody cutVid ctr b
    if isFailed c then (.and (.savecp cutVid₁) (.and t₁ (.and (.cutto (some cutVid₁)) nb)), ctr)
    else
      let (nc, ctr) := preElse cutVid cutVid₁ ctr c
      (.and (.savecp cutVid₁) (.or (.and t₁ (.and (.cutto (some cutVid₁)) nb)) nc), ctr)
termination_by (a.size + b.size + c.size, 2)
decreasing_by
  all_goals simp only [Prod.lex_def]
  all_goals have := a.size_pos
  all_goals have := b.size_pos
  all_goals have := c.size_pos
  all_goals omega

/-- `pre_else`. -/
def preElse (cutVid : Option VarId) (cutVid₁ : VarId) (ctr : Nat) : Body → Code × Nat
  | .or (.if a b) c =>
    if isFailed c then preBody cutVid ctr (.if a b)
    else
      let (na, ctr) := preBody (some cutVid₁) ctr a
      let (nb, ctr) := preBody cutVid ctr b
      let (nc, ctr) := preElse cutVid cutVid₁ ctr c
      (.or (.and na (.and (.cutto (some cutVid₁)) nb)) nc, ctr)
  | g => preBody cutVid ctr g
termination_by b => (b.size, 1)
decreasing_by
  all_goals simp only [size, Prod.lex_def]
  all_goals first | omega | exact .inr ⟨trivial, Nat.one_pos⟩

end

/-- `pre_clauses`. -/
def preClauses (ctr : Nat) : List (Clause Body) → List (Clause Code) × Nat
  | [] => ([], ctr)
  | cl :: rest =>
    let (body, ctr) := preBody none ctr cl.body
    let (rest, ctr) := preClauses ctr rest
    (⟨cl.args, body⟩ :: rest, ctr)

/-- `pre_cutclauses`. -/
def preCutclauses (ctr : Nat) : List (Clause Body) → List (Clause Code) × Nat
  | [] => ([], ctr)
  | cl :: rest =>
    let cutVid := VarId.gensym ctr
    let (body, ctr) := preBody (some cutVid) (ctr + 1) cl.body
    let (rest, ctr) := preCutclauses ctr rest
    (⟨cl.args ++ [.varocc cutVid], body⟩ :: rest, ctr)

/-- `have_hardcut`. -/
def haveHardcut : List (Clause Body) → Bool
  | [] => false
  | cl :: rest => cl.body.haveHardcut || haveHardcut rest

/-- The variables of `gen_arglist`. -/
def genArglist : Nat → List Arg
  | 0 => []
  | i + 1 => .varocc (.num (i + 1)) :: genArglist i

/-- `gensym_pred`. -/
def gensymPred (name : String) (ctr : Nat) : String := name ++ "_#" ++ toString ctr

/-- `preprocess`. -/
def preprocess (ctr : Nat) (pred : Pred Body) : List (Pred Code) :=
  if haveHardcut pred.clauses then
    let newSym : Sym := ⟨gensymPred pred.sym.name ctr, pred.sym.arity + 1⟩
    let lastArg := VarId.num 0
    let argList := genArglist pred.sym.arity
    let newClause : Clause Code :=
      ⟨argList, .and (.savecp lastArg) (.goal newSym (argList ++ [.varocc lastArg]))⟩
    [⟨pred.sym, [newClause]⟩, ⟨newSym, (preCutclauses (ctr + 1) pred.clauses).1⟩]
  else [⟨pred.sym, (preClauses ctr pred.clauses).1⟩]

end XSBEngine.Compiler
