import XSBEngine.Reading.CanonicalStacks

/-!
# Brackets with their operands

What the canonical reader does in terms of the open brackets and the operands behind each of them,
instead of indices into `opstk`, and that the stacks do the same.
-/

namespace XSBEngine.Reading

open Library List

/-- An open bracket or functor with the operands behind it. -/
structure Frame (F : Type) where
  name : List UInt8
  funtyp : FunType
  args : List (Operand F)

/-- What is known of the term that is read: the operands in front of all brackets and the brackets,
the uppermost first, with the variables and the counters. -/
structure Parse (F : Type) where
  base : List (Operand F)
  frames : List (Frame F)
  vars : List (Option (List UInt8))
  size : Nat
  h : Nat
  postopreq : Bool

/-- What a token where an operand has to be leads to. -/
inductive Next (F : Type) where
  | parse (a : Parse F)
  | functor
  | string
  | outcome (o : Outcome F)
  | fail

section Terms

variable {F : Type}

/-- The operand that a closed comma list is. One in parentheses stays as it is. -/
def commaOperand : List (Operand F) → Operand F
  | [] => ⟨.ATOM, .nil⟩
  | [x] => x
  | x :: xs => ⟨.FUNC, .struct [44] [x.op, (commaOperand xs).op]⟩

/-- The terms of a list, where the last one is its tail. -/
def tailed : List (Term F) → Term F
  | [] => .nil
  | [t] => t
  | t :: ts => .list t (tailed ts)

/-- The list that a closed bracket is. -/
def listOperand (funtyp : FunType) (args : List (Operand F)) : Operand F :=
  let ts := args.map Operand.op
  ⟨.FUNC, if funtyp = .FUNLIST ∨ ts.length = 1 then .listOf ts .nil else tailed ts⟩

/-- The cells that are written for it. -/
def listCells (funtyp : FunType) (n : Nat) : Nat :=
  if funtyp = .FUNLIST ∨ n = 1 then 2 * n else 2 * (n - 1)

/-- The number that the atom `-` becomes in front of a token, with the cells that are written. -/
def negated (fl : Doubles F) (t : Token F) (x : Operand F) : Option (Operand F × Nat) :=
  if x.isMinus then
    if t.type = .INT then
      let i := wrap64 (-t.integer)
      some (if overflows i then (⟨.FUNC, .boxedint i⟩, 4) else (⟨.INT, .integer i⟩, 0))
    else if t.type = .REAL then some (⟨.FUNC, .boxedfloat (fl.neg (t.real fl))⟩, 4)
    else none
  else none

/-- The last operand becomes a negative number. -/
def negateLast (fl : Doubles F) (t : Token F) (args : List (Operand F)) :
    Option (List (Operand F) × Nat) := do
  let x ← args.getLast?
  let r ← negated fl t x
  return (args.dropLast ++ [r.1], r.2)

end Terms

namespace Parse

variable {F : Type} (a : Parse F)

/-- The operands in use. -/
def operands (base : List (Operand F)) : List (Frame F) → List (Operand F)
  | [] => base
  | f :: fs => operands base fs ++ f.args

/-- The brackets in use. -/
def entries (base : List (Operand F)) : List (Frame F) → List FunEntry
  | [] => []
  | f :: fs => entries base fs ++ [⟨f.name, (operands base fs).length, f.funtyp⟩]

/-- An operand is pushed. -/
def push (x : Operand F) : Parse F :=
  match a.frames with
  | [] => { a with base := a.base ++ [x], postopreq := true }
  | f :: fs => { a with frames := { f with args := f.args ++ [x] } :: fs, postopreq := true }

/-- A bracket or functor is pushed. -/
def enter (name : List UInt8) (funtyp : FunType) : Parse F :=
  { a with frames := ⟨name, funtyp, []⟩ :: a.frames }

/-- Cells are written, and counted. -/
def count (n : Nat) : Parse F := { a with size := a.size + n, h := a.h + n }

/-- The brackets below the uppermost one are left, behind the operand that was in it. -/
def leave (fs : List (Frame F)) (n : Nat) (x : Operand F) : Parse F :=
  ({ a with frames := fs } : Parse F).count n |>.push x

/-- A punctuation mark behind an operand, none if it is an error. -/
def closing (token : Token F) : Option (Parse F) :=
  match a.frames with
  | [] => if token.mark = 44 then some { a with postopreq := false } else none
  | f :: fs =>
    if token.mark = 41 then
      let ts := f.args.map Operand.op
      if f.funtyp = .FUNFUN then some (a.leave fs (funCells f.name ts) ⟨.FUNC, funTerm f.name ts⟩)
      else if f.funtyp = .FUNCOMMALIST then
        some (a.leave fs (3 * (f.args.length - 1)) (commaOperand f.args))
      else none
    else if token.mark = 93 then
      if f.funtyp = .FUNFUN ∨ f.funtyp = .FUNCOMMALIST then none
      else some (a.leave fs (listCells f.funtyp f.args.length) (listOperand f.funtyp f.args))
    else if token.mark = 44 then some { a with postopreq := false }
    else if token.mark = 124 then
      if f.funtyp ≠ .FUNLIST then none
      else some { a with frames := { f with funtyp := .FUNDTLIST } :: fs, postopreq := false }
    else none

/-- A number behind an operand, none if this is an error. -/
def backpatch (fl : Doubles F) (token : Token F) : Option (Parse F) :=
  match a.frames with
  | [] => do
    let r ← negateLast fl token a.base
    return { a with base := r.1 }.count r.2
  | f :: fs => do
    let r ← negateLast fl token f.args
    return { a with frames := { f with args := r.1 } :: fs }.count r.2

/-- An operand that is a variable. -/
def variableOperand (name : Option (List UInt8)) (known : Option Nat) : Next F :=
  match known with
  | some i => .parse (a.push ⟨.VAR, .var i⟩)
  | none =>
    if MAXVAR ≤ a.vars.length then .outcome .tooManyVariables
    else .parse (({ a with vars := a.vars ++ [name] } : Parse F).push ⟨.VAR, .var a.vars.length⟩)

/-- A token where an operand has to be. -/
def operand (fl : Doubles F) (token : Token F) : Next F :=
  let named := a.variableOperand (some token.text) (a.vars.findIdx? (· = some token.text))
  match token.type with
  | .PUNC =>
    if token.mark = 91 then .parse (a.enter [] .FUNLIST)
    else if token.mark = 40 then .parse (a.enter [] .FUNCOMMALIST)
    else .functor
  | .FUNC => .functor
  | .VVAR => if token.text.getD 1 0 = 0 then a.variableOperand none none else named
  | .VAR => named
  | .REAL => .parse ((a.count 4).push ⟨.FUNC, .boxedfloat (token.real fl)⟩)
  | .INT =>
    if overflows token.integer then
      .parse (({ a with h := a.h + 4 } : Parse F).push ⟨.FUNC, .boxedint token.integer⟩)
    else .parse (a.push ⟨.INT, .integer token.integer⟩)
  | .ATOM => .parse (a.push ⟨.ATOM, .atom token.text⟩)
  | .LIST => if token.text = [] then .parse (a.push ⟨.ATOM, .nil⟩) else .string
  | .EOF => .outcome .endOfFile
  | _ => .fail

end Parse

namespace ReadState

variable {τ F : Type} {s s' : ReadState τ F} {a : Parse F}

/-- The stacks and counters of the state are those of the parse. -/
structure Holds (s : ReadState τ F) (a : Parse F) : Prop where
  shows : s.Shows (Parse.operands a.base a.frames) (Parse.entries a.base a.frames)
  vars : s.vars = a.vars
  size : s.size = a.size
  h : s.h = a.h
  postopreq : s.postopreq = a.postopreq

/-- The states read on at the same place. -/
structure Kept (s s' : ReadState τ F) : Prop where
  stream : s'.stream = s.stream
  prevchar : s'.prevchar = s.prevchar
  mode : s'.mode = s.mode

theorem Same.kept (h : Same s s') : Kept s s' := ⟨h.stream, h.prevchar, h.mode⟩

theorem Holds.pushOp (h : Holds s a) (x : Operand F) :
    ∃ s', s.pushOp x = .ok s' ∧ Holds s' (a.push x) ∧ Kept s s' := by
  obtain ⟨s', heq, hshows, hsame, hpost, -⟩ := h.shows.pushOp x
  refine ⟨s', heq, ?_, hsame.kept⟩
  rw [Parse.push]
  split
  · next hframes =>
    refine ⟨?_, hsame.vars.trans h.vars, hsame.size.trans h.size, hsame.h.trans h.h, hpost⟩
    rw [hframes] at hshows
    simp only [hframes]
    exact hshows
  · next f fs hframes =>
    refine ⟨?_, hsame.vars.trans h.vars, hsame.size.trans h.size, hsame.h.trans h.h, hpost⟩
    rw [hframes] at hshows
    simp only [Parse.operands, Parse.entries] at hshows ⊢
    rw [← append_assoc]
    exact hshows

theorem Holds.pushFun (h : Holds s a) (name : List UInt8) (funtyp : FunType) :
    ∃ s', s.pushFun name funtyp = .ok s' ∧ Holds s' (a.enter name funtyp) ∧ Kept s s' := by
  obtain ⟨s', heq, hshows, hsame, hpost, -⟩ := h.shows.pushFun name funtyp
  refine ⟨s', heq, ?_, hsame.kept⟩
  refine ⟨?_, hsame.vars.trans h.vars, hsame.size.trans h.size, hsame.h.trans h.h,
    hpost.trans h.postopreq⟩
  simp only [Parse.enter, Parse.operands, Parse.entries, append_nil]
  exact hshows

theorem Holds.optop_eq (h : Holds s a) :
    s.optop = (Parse.operands a.base a.frames).length := h.shows.optop_eq

/-- The state without the uppermost bracket. -/
theorem Holds.pop {f : Frame F} {fs : List (Frame F)} (h : Holds s a)
    (hframes : a.frames = f :: fs) :
    Shows { s with funtop := s.funtop - 1 } (Parse.operands a.base fs ++ f.args)
        (Parse.entries a.base fs) ∧ s.funtop ≠ 0 ∧
      s.readFun (s.funtop - 1) =
        .ok ⟨f.name, (Parse.operands a.base fs).length, f.funtyp⟩ := by
  have hshows := h.shows
  rw [hframes] at hshows
  simp only [Parse.operands, Parse.entries] at hshows
  have hfun := hshows.funtop_eq
  rw [length_append, length_singleton] at hfun
  refine ⟨hshows.pop, by omega, ?_⟩
  rw [hfun, Nat.add_sub_cancel]
  exact hshows.readFun

/-- The uppermost bracket with its operands is replaced by a term. -/
theorem Holds.build {f : Frame F} {fs : List (Frame F)} (h : Holds s a)
    (hframes : a.frames = f :: fs) (hroom : f.args ≠ [] ∨ s.optop < s.opstk.length) (n : Nat)
    (t : Term F) (hpost : s.postopreq = true) :
    ∃ s', ({ s with funtop := s.funtop - 1 } : ReadState τ F).build
        (Parse.operands a.base fs).length n t = .ok s' ∧
      Holds s' (a.leave fs n ⟨.FUNC, t⟩) ∧ Kept s s' := by
  obtain ⟨hpop, -, -⟩ := h.pop hframes
  have hlen := h.optop_eq
  have hle := h.shows.optop_le
  rw [hframes, Parse.operands, length_append] at hlen
  have hlt : (Parse.operands a.base fs).length < s.opstk.length := by
    rcases hroom with hargs | hlt
    · have := length_pos_iff.mpr hargs
      omega
    · omega
  obtain ⟨s', heq, hshows, hstream, hprev, hvars, hmode, hsize, hh, hpost'⟩ := hpop.build hlt n t
  refine ⟨s', heq, ?_, hstream, hprev, hmode⟩
  rw [Parse.leave, Parse.push]
  simp only [Parse.count]
  cases fs with
  | nil =>
    refine ⟨hshows, hvars.trans h.vars, ?_, ?_, hpost'.trans hpost⟩
    · rw [hsize]
      exact congrArg (· + n) h.size
    · rw [hh]
      exact congrArg (· + n) h.h
  | cons g gs =>
    refine ⟨?_, hvars.trans h.vars, ?_, ?_, hpost'.trans hpost⟩
    · simp only [Parse.operands, Parse.entries] at hshows ⊢
      rw [← append_assoc]
      exact hshows
    · rw [hsize]
      exact congrArg (· + n) h.size
    · rw [hh]
      exact congrArg (· + n) h.h

end ReadState

section Terms

variable {F : Type} {x y : Operand F} {middle : List (Operand F)}

theorem commaOperand_eq (x y : Operand F) (middle : List (Operand F)) :
    commaOperand (x :: middle ++ [y]) =
      ⟨.FUNC, .commas (x.op :: middle.map Operand.op) y.op⟩ := by
  induction middle generalizing x with
  | nil => rfl
  | cons z middle ih =>
    rw [cons_append, cons_append, commaOperand, ← cons_append, ih]
    · rfl
    · simp

theorem tailed_eq (ts : List (Term F)) (last : Term F) :
    tailed (ts ++ [last]) = .listOf ts last := by
  induction ts with
  | nil => rfl
  | cons t ts ih =>
    rw [cons_append, tailed, ih]
    · rfl
    · simp

theorem listOperand_eq (funtyp : FunType) (x y : Operand F) (middle : List (Operand F)) :
    listOperand funtyp (x :: middle ++ [y]) =
      ⟨.FUNC, listTerm funtyp (x.op :: middle.map Operand.op) y.op⟩ := by
  have hmap : (x :: middle ++ [y]).map Operand.op = (x.op :: middle.map Operand.op) ++ [y.op] := by
    simp
  simp only [listOperand, listTerm, hmap, tailed_eq]
  simp

theorem listCells_eq (funtyp : FunType) (n : Nat) :
    listCells funtyp (n + 2) = 2 * (n + 1) + if funtyp = .FUNLIST then 2 else 0 := by
  rw [listCells]
  split
  · next h =>
    rw [if_pos (by simpa using h)]
    omega
  · next h =>
    rw [if_neg (by simpa using h)]
    omega

/-- Some operands are one or have a first and a last one. -/
theorem single_or_ends {args : List (Operand F)} (h : args ≠ []) :
    (∃ x, args = [x]) ∨ ∃ x middle y, args = x :: middle ++ [y] := by
  cases args with
  | nil => exact absurd rfl h
  | cons x rest =>
    rcases eq_nil_or_concat rest with rfl | ⟨middle, y, rfl⟩
    · exact Or.inl ⟨x, rfl⟩
    · exact Or.inr ⟨x, middle, y, by simp⟩

end Terms

namespace ReadState

variable {τ F : Type} {s s' : ReadState τ F} {a : Parse F} {f : Frame F} {fs : List (Frame F)}
  {token : Token F}

/-- The token is an error, so that the rest of the clause is skipped. -/
structure Fails (s s' : ReadState τ F) (token : Token F) : Prop where
  stream : s'.stream = s.stream
  prevchar : s'.prevchar = s.prevchar
  mode : s'.mode = .skipping token.type

/-- The step does what the parse does. -/
def Follows (s : ReadState τ F) (token : Token F) (x : Except ReadStop (ReadState τ F)) :
    Option (Parse F) → Prop
  | some a' => ∃ s', x = .ok s' ∧ Holds s' a' ∧ Kept s s'
  | none => ∃ s', x = .ok s' ∧ Fails s s' token

theorem Holds.closeCommaList (h : Holds s a) (hframes : a.frames = f :: fs) (hargs : f.args ≠ [])
    (hpost : s.postopreq = true) :
    ∃ s', ({ s with funtop := s.funtop - 1 } : ReadState τ F).closeCommaList
        ⟨f.name, (Parse.operands a.base fs).length, f.funtyp⟩ = .ok s' ∧
      Holds s' (a.leave fs (3 * (f.args.length - 1)) (commaOperand f.args)) ∧ Kept s s' := by
  obtain ⟨hpop, -, -⟩ := h.pop hframes
  rcases single_or_ends hargs with ⟨x, hx⟩ | ⟨x, middle, y, hx⟩
  · rw [hx] at hpop
    refine ⟨_, closeCommaList_single hpop rfl, ?_, rfl, rfl, rfl⟩
    rw [hx, commaOperand]
    rw [Parse.leave, Parse.push]
    simp only [Parse.count]
    cases fs with
    | nil => exact ⟨hpop, h.vars, h.size, h.h, hpost⟩
    | cons g gs =>
      refine ⟨?_, h.vars, h.size, h.h, hpost⟩
      simp only [Parse.operands, Parse.entries] at hpop ⊢
      rw [← append_assoc]
      exact hpop
  · rw [hx, ← append_assoc] at hpop
    rw [closeCommaList_eq hpop rfl, hx, commaOperand_eq]
    have hcells : 3 * ((x :: middle ++ [y]).length - 1) = 3 * (middle.length + 1) := by simp
    rw [hcells]
    exact h.build hframes (Or.inl hargs) _ _ hpost

theorem Holds.closeList (h : Holds s a) (hframes : a.frames = f :: fs) (hargs : f.args ≠ [])
    (hpost : s.postopreq = true) :
    ∃ s', ({ s with funtop := s.funtop - 1 } : ReadState τ F).closeList
        ⟨f.name, (Parse.operands a.base fs).length, f.funtyp⟩ = .ok s' ∧
      Holds s' (a.leave fs (listCells f.funtyp f.args.length) (listOperand f.funtyp f.args)) ∧
      Kept s s' := by
  obtain ⟨hpop, -, -⟩ := h.pop hframes
  rcases single_or_ends hargs with ⟨x, hx⟩ | ⟨x, middle, y, hx⟩
  · rw [hx] at hpop
    rw [closeList_single hpop rfl, hx]
    have hterm : listOperand f.funtyp [x] = ⟨.FUNC, listTerm f.funtyp [] x.op⟩ := by
      simp [listOperand, listTerm]
    have hcells : listCells f.funtyp [x].length = 2 := by simp [listCells]
    rw [hterm, hcells]
    exact h.build hframes (Or.inl hargs) _ _ hpost
  · rw [hx, ← append_assoc] at hpop
    rw [closeList_eq hpop rfl, hx, listOperand_eq]
    have hlen : (x :: middle ++ [y]).length = middle.length + 2 := by simp
    rw [hlen, listCells_eq]
    exact h.build hframes (Or.inl hargs) _ _ hpost

theorem Holds.closeFun (h : Holds s a) (hframes : a.frames = f :: fs)
    (hroom : f.args ≠ [] ∨ s.optop < s.opstk.length) (hpost : s.postopreq = true) :
    ∃ s', ({ s with funtop := s.funtop - 1 } : ReadState τ F).closeFun
        ⟨f.name, (Parse.operands a.base fs).length, f.funtyp⟩ = .ok s' ∧
      Holds s' (a.leave fs (funCells f.name (f.args.map Operand.op))
        ⟨.FUNC, funTerm f.name (f.args.map Operand.op)⟩) ∧ Kept s s' := by
  obtain ⟨hpop, -, -⟩ := h.pop hframes
  rw [closeFun_eq hpop rfl]
  exact h.build hframes hroom _ _ hpost

/-- The type of the uppermost bracket is changed. -/
theorem Holds.changeType (h : Holds s a) (hframes : a.frames = f :: fs) (funtyp : FunType) :
    ∃ s', ({ s with postopreq := false } : ReadState τ F).writeFun (s.funtop - 1)
        ⟨f.name, (Parse.operands a.base fs).length, funtyp⟩ = .ok s' ∧
      Holds s' { a with frames := { f with funtyp := funtyp } :: fs, postopreq := false } ∧
      Kept s s' := by
  have hshows : ({ s with postopreq := false } : ReadState τ F).Shows
      (Parse.operands a.base a.frames) (Parse.entries a.base a.frames) :=
    h.shows.of_eq rfl rfl rfl rfl
  rw [hframes] at hshows
  obtain ⟨s', heq, hshows', hsame, hpost, -⟩ := hshows.writeFun
    ⟨f.name, (Parse.operands a.base fs).length, funtyp⟩
  have hfun : s.funtop = _ := hshows.funtop_eq
  rw [Parse.entries, length_append, length_singleton] at hfun
  have htop : s.funtop - 1 = (Parse.entries a.base fs).length := by omega
  rw [htop]
  exact ⟨s', heq, ⟨hshows', hsame.vars.trans h.vars, hsame.size.trans h.size, hsame.h.trans h.h,
    hpost⟩, hsame.stream, hsame.prevchar, hsame.mode⟩

/-- A punctuation mark behind an operand. -/
theorem Holds.closing (h : Holds s a) (hpost : s.postopreq = true)
    (hopen : token.mark = 41 ∨ token.mark = 93 ∨ token.mark = 124 → a.frames ≠ [])
    (hfilled : ∀ f fs, a.frames = f :: fs → f.args ≠ [] ∨ f.funtyp = .FUNFUN ∧ token.mark = 41)
    (hroom : ∀ f fs, a.frames = f :: fs → token.mark = 41 → f.funtyp = .FUNFUN →
      f.args ≠ [] ∨ s.optop < s.opstk.length) :
    Follows s token (s.closing token) (a.closing token) := by
  have hshows := h.shows
  rw [ReadState.closing, Parse.closing]
  cases hframes : a.frames with
  | nil =>
    rw [hframes] at hshows
    have hopen' : ¬ (token.mark = 41 ∨ token.mark = 93 ∨ token.mark = 124) :=
      fun hmark => hopen hmark hframes
    simp only [not_or] at hopen'
    simp only [hopen', if_false]
    split
    · exact ⟨_, rfl, ⟨hshows.of_eq rfl rfl rfl rfl, h.vars, h.size, h.h, rfl⟩, rfl, rfl, rfl⟩
    · exact ⟨_, rfl, rfl, rfl, rfl⟩
  | cons f fs =>
    rw [hframes] at hshows
    obtain ⟨hpop, htop, hread⟩ := h.pop hframes
    have hread' : ({ s with funtop := s.funtop - 1 } : ReadState τ F).readFun (s.funtop - 1) =
        .ok ⟨f.name, (Parse.operands a.base fs).length, f.funtyp⟩ := hread
    simp only [htop, if_false, hread']
    split
    · next hmark =>
      by_cases hfun : f.funtyp = .FUNFUN
      · simp only [hfun, if_true, bind, Except.bind]
        have hclose := h.closeFun hframes (hroom f fs hframes hmark hfun) hpost
        rw [hfun] at hclose
        exact hclose
      · have hargs : f.args ≠ [] := by
          rcases hfilled f fs hframes with hargs | ⟨hargs, -⟩
          · exact hargs
          · exact absurd hargs hfun
        by_cases hcomma : f.funtyp = .FUNCOMMALIST
        · have hclose := h.closeCommaList hframes hargs hpost
          rw [hcomma] at hclose
          simp only [hcomma, reduceCtorEq, if_false, if_true, bind, Except.bind]
          exact hclose
        · simp only [hfun, hcomma, if_false, bind, Except.bind]
          exact ⟨_, rfl, rfl, rfl, rfl⟩
    · next hmark =>
      split
      · by_cases hlist : f.funtyp = .FUNFUN ∨ f.funtyp = .FUNCOMMALIST
        · simp only [hlist, if_true, bind, Except.bind]
          exact ⟨_, rfl, rfl, rfl, rfl⟩
        · have hargs : f.args ≠ [] := by
            rcases hfilled f fs hframes with hargs | ⟨hargs, -⟩
            · exact hargs
            · exact absurd (Or.inl hargs) hlist
          simp only [hlist, if_false, bind, Except.bind]
          exact h.closeList hframes hargs hpost
      · split
        · exact ⟨_, rfl, ⟨hshows.of_eq rfl rfl rfl rfl, h.vars, h.size, h.h, rfl⟩, rfl, rfl, rfl⟩
        · split
          · have hread'' : ({ s with postopreq := false } : ReadState τ F).readFun (s.funtop - 1) =
                .ok ⟨f.name, (Parse.operands a.base fs).length, f.funtyp⟩ := hread
            simp only [hread'', bind, Except.bind]
            split
            · exact ⟨_, rfl, rfl, rfl, rfl⟩
            · exact h.changeType hframes .FUNDTLIST
          · exact ⟨_, rfl, rfl, rfl, rfl⟩

/-- The last operand becomes a negative number. -/
theorem Shows.negate {base : List (Operand F)} {x : Operand F} {brs : List FunEntry}
    (hshows : s.Shows (base ++ [x]) brs) (fl : Doubles F) (token : Token F) :
    match negated fl token x with
    | some r => ∃ s', s.backpatch fl token = .ok s' ∧ Shows s' (base ++ [r.1]) brs ∧ Kept s s' ∧
        s'.vars = s.vars ∧ s'.size = s.size + r.2 ∧ s'.h = s.h + r.2 ∧ s'.postopreq = s.postopreq
    | none => s.backpatch fl token = .ok (s.fail token.type) := by
  have hlen := hshows.optop_eq
  rw [length_append, length_singleton] at hlen
  have hwrite : ∀ (s1 : ReadState τ F) (y : Operand F), s1.opstk = s.opstk → s1.funstk = s.funstk →
      s1.optop = s.optop → s1.funtop = s.funtop → ∃ s', s1.writeOp base.length y = .ok s' ∧
        Shows s' (base ++ [y]) brs ∧ s' = { s1 with opstk := s'.opstk } := by
    intro s1 y h1 h2 h3 h4
    have hshows1 : s1.Shows (base ++ [x]) brs := hshows.of_eq h1 h2 h3 h4
    have hle := hshows1.optop_le
    obtain ⟨s', heq, htake, hlen', hs'⟩ := hshows1.writeOp (x := y) (by omega)
    refine ⟨s', heq, ⟨?_, ?_, ?_, ?_, ?_, ?_⟩, hs'⟩
    · rw [← htake, hs', h3, hlen]
    · rw [hs']
      exact hshows1.brs_eq
    · rw [hs']
      simp [h3, hlen]
    · rw [hs']
      exact hshows1.funtop_eq
    · rw [hlen']
      exact hshows1.opstk_pos
    · rw [hs']
      exact hshows1.funstk_pos
  have hread : s.readOp base.length = .ok x := hshows.readOp
  rw [negated, ReadState.backpatch, hlen, Nat.add_sub_cancel, hread,
    if_neg (Nat.succ_ne_zero _)]
  simp only [bind, Except.bind]
  by_cases hminus : x.isMinus
  · simp only [hminus, if_true]
    by_cases hint : token.type = .INT
    · simp only [hint, if_true]
      by_cases hover : overflows (wrap64 (-token.integer))
      · simp only [hover, if_true]
        obtain ⟨s', heq, hs, hs'⟩ := hwrite (s.box true) _ rfl rfl rfl rfl
        rw [heq]
        refine ⟨s', rfl, hs, ?_⟩
        rw [hs']
        exact ⟨⟨rfl, rfl, rfl⟩, rfl, rfl, rfl, rfl⟩
      · simp only [hover, if_false, Bool.false_eq_true]
        obtain ⟨s', heq, hs, hs'⟩ := hwrite s _ rfl rfl rfl rfl
        rw [heq]
        refine ⟨s', rfl, hs, ?_⟩
        rw [hs']
        exact ⟨⟨rfl, rfl, rfl⟩, rfl, rfl, rfl, rfl⟩
    · by_cases hreal : token.type = .REAL
      · simp only [hreal, reduceCtorEq, if_false, if_true]
        obtain ⟨s', heq, hs, hs'⟩ := hwrite (s.box true) _ rfl rfl rfl rfl
        rw [heq]
        refine ⟨s', rfl, hs, ?_⟩
        rw [hs']
        exact ⟨⟨rfl, rfl, rfl⟩, rfl, rfl, rfl, rfl⟩
      · simp only [hint, if_false, hreal]
        rfl
  · simp only [hminus, if_false, Bool.false_eq_true]
    rfl

/-- A token that is no punctuation mark behind an operand. -/
theorem Holds.backpatch (fl : Doubles F) (h : Holds s a)
    (hops : Parse.operands a.base a.frames ≠ [])
    (hfilled : ∀ f fs, a.frames = f :: fs → f.args ≠ [] ∨ token.type = .HPUNC) :
    Follows s token (s.backpatch fl token) (a.backpatch fl token) := by
  have hshows := h.shows
  rw [Parse.backpatch]
  cases hframes : a.frames with
  | nil =>
    rw [hframes] at hshows hops
    simp only [Parse.operands] at hshows hops
    obtain ⟨base, x, hbase⟩ := eq_nil_or_concat a.base |>.resolve_left hops
    rw [concat_eq_append] at hbase
    rw [hbase] at hshows
    have hneg := hshows.negate fl token
    rw [hbase, negateLast, List.getLast?_append, dropLast_concat]
    simp only [List.getLast?_singleton, Option.some_or, Option.bind_eq_bind, Option.bind_some]
    split at hneg
    · next r hr =>
      rw [hr]
      obtain ⟨s', heq, hs, hkept, hvars, hsize, hh, hpost⟩ := hneg
      refine ⟨s', heq, ⟨?_, hvars.trans h.vars, ?_, ?_, hpost.trans h.postopreq⟩, hkept⟩
      · exact hs
      · rw [hsize, h.size]
        rfl
      · rw [hh, h.h]
        rfl
    · next hr =>
      rw [hr]
      exact ⟨_, hneg, rfl, rfl, rfl⟩
  | cons f fs =>
    rw [hframes] at hshows
    simp only [Parse.operands] at hshows
    by_cases hargs : f.args = []
    · have htype : token.type = .HPUNC := (hfilled f fs hframes).resolve_left (absurd hargs)
      rw [hframes] at hops
      simp only [Parse.operands] at hops
      obtain ⟨lower, x, hx⟩ := eq_nil_or_concat (Parse.operands a.base fs ++ f.args)
        |>.resolve_left hops
      rw [concat_eq_append] at hx
      rw [hx] at hshows
      have hneg := hshows.negate fl token
      rw [show negated fl token x = none by simp [negated, htype]] at hneg
      simp only [hargs, negateLast]
      exact ⟨_, hneg, rfl, rfl, rfl⟩
    · obtain ⟨args, x, hx⟩ := eq_nil_or_concat f.args |>.resolve_left hargs
      rw [concat_eq_append] at hx
      rw [hx, ← append_assoc] at hshows
      have hneg := hshows.negate fl token
      simp only [hx, negateLast, List.getLast?_append, dropLast_concat,
        List.getLast?_singleton, Option.some_or, Option.bind_eq_bind, Option.bind_some]
      split at hneg
      · next r hr =>
        rw [hr]
        obtain ⟨s', heq, hs, hkept, hvars, hsize, hh, hpost⟩ := hneg
        refine ⟨s', heq, ⟨?_, hvars.trans h.vars, ?_, ?_, hpost.trans h.postopreq⟩, hkept⟩
        · simp only [Parse.count, Parse.operands]
          rw [← append_assoc]
          exact hs
        · rw [hsize, h.size]
          rfl
        · rw [hh, h.h]
          rfl
      · next hr =>
        rw [hr]
        exact ⟨_, hneg, rfl, rfl, rfl⟩

theorem Holds.count (h : Holds s a) (n : Nat) :
    Holds { s with size := s.size + n, h := s.h + n } (a.count n) := by
  refine ⟨h.shows.of_eq rfl rfl rfl rfl, h.vars, ?_, ?_, h.postopreq⟩
  · exact congrArg (· + n) h.size
  · exact congrArg (· + n) h.h

/-- What a token where an operand has to be leads to. -/
def Leads (src : TokenSource τ F) (charset : Charset) (s : ReadState τ F) (token : Token F)
    (x : Except ReadStop (ReadState τ F)) : Next F → Prop
  | .parse a' => ∃ s', x = .ok s' ∧ Holds s' a' ∧ Kept s s'
  | .functor => x = s.functor src token
  | .string => x = s.string charset token.text ∧ token.text ≠ []
  | .outcome o => x = .ok { s with mode := .finished o }
  | .fail => ∃ s', x = .ok s' ∧ Fails s s' token

section Operands

variable {src : TokenSource τ F} {charset : Charset} (fl : Doubles F)

theorem Holds.anonymous (h : Holds s a) :
    Leads src charset s token s.anonymous (a.variableOperand none none) := by
  rw [ReadState.anonymous, Parse.variableOperand, h.vars]
  split
  · rw [← h.vars]
    rfl
  · have hvars : Holds { s with vars := a.vars ++ [none] } { a with vars := a.vars ++ [none] } :=
      ⟨h.shows.of_eq rfl rfl rfl rfl, rfl, h.size, h.h, h.postopreq⟩
    obtain ⟨s', heq, hholds, hkept⟩ := hvars.pushOp ⟨.VAR, .var a.vars.length⟩
    exact ⟨s', heq, hholds, hkept.stream, hkept.prevchar, hkept.mode⟩

theorem Holds.named (h : Holds s a) (name : List UInt8) :
    Leads src charset s token (s.named name)
      (a.variableOperand (some name) (a.vars.findIdx? (· = some name))) := by
  rw [ReadState.named, h.vars]
  cases hfind : a.vars.findIdx? (· = some name) with
  | some i => exact h.pushOp _
  | none =>
    rw [Parse.variableOperand]
    simp only
    split
    · rw [← h.vars]
      rfl
    · have hvars : Holds { s with vars := a.vars ++ [some name] }
          { a with vars := a.vars ++ [some name] } :=
        ⟨h.shows.of_eq rfl rfl rfl rfl, rfl, h.size, h.h, h.postopreq⟩
      obtain ⟨s', heq, hholds, hkept⟩ := hvars.pushOp ⟨.VAR, .var a.vars.length⟩
      exact ⟨s', heq, hholds, hkept.stream, hkept.prevchar, hkept.mode⟩

theorem fails_of_type {type : TokenType} (h : token.type = type) : Fails s (s.fail type) token :=
  ⟨rfl, rfl, congrArg Mode.skipping h.symm⟩

/-- A token where an operand has to be. The bracket of an empty list is no token. -/
theorem Holds.operand (h : Holds s a)
    (hbracket : token.type = .PUNC → token.mark = 91 → token.nextch ≠ 93) :
    Leads src charset s token (s.operand src charset fl token) (a.operand fl token) := by
  rw [ReadState.operand, Parse.operand]
  cases htype : token.type with
  | PUNC =>
    simp only
    split
    · next hmark =>
      rw [if_neg (hbracket htype hmark)]
      exact h.pushFun _ _
    · split
      · exact h.pushFun _ _
      · rfl
  | FUNC => rfl
  | VVAR =>
    simp only
    split
    · exact h.anonymous
    · exact h.named token.text
  | VAR => exact h.named token.text
  | REAL =>
    have hbox : Holds (s.box true) (a.count 4) := h.count 4
    obtain ⟨s', heq, hholds, hkept⟩ := hbox.pushOp ⟨.FUNC, .boxedfloat (token.real fl)⟩
    exact ⟨s', heq, hholds, hkept.stream, hkept.prevchar, hkept.mode⟩
  | INT =>
    simp only [ReadState.integer]
    split
    · have hbox : Holds (s.box false) { a with h := a.h + 4 } :=
        ⟨h.shows.of_eq rfl rfl rfl rfl, h.vars, h.size, congrArg (· + 4) h.h, h.postopreq⟩
      obtain ⟨s', heq, hholds, hkept⟩ := hbox.pushOp ⟨.FUNC, .boxedint token.integer⟩
      exact ⟨s', heq, hholds, hkept.stream, hkept.prevchar, hkept.mode⟩
    · exact h.pushOp _
  | ATOM => exact h.pushOp _
  | LIST =>
    simp only
    by_cases htext : token.text = []
    · rw [if_pos htext, ReadState.string, if_pos htext]
      exact h.pushOp _
    · rw [if_neg htext]
      exact ⟨rfl, htext⟩
  | EOF => rfl
  | VARFUNC => exact ⟨_, rfl, fails_of_type htype⟩
  | EOC => exact ⟨_, rfl, fails_of_type htype⟩
  | VVARFUNC => exact ⟨_, rfl, fails_of_type htype⟩
  | HPUNC => exact ⟨_, rfl, fails_of_type htype⟩
  | INTFUNC => exact ⟨_, rfl, fails_of_type htype⟩
  | REALFUNC => exact ⟨_, rfl, fails_of_type htype⟩

end Operands

end ReadState

end XSBEngine.Reading
