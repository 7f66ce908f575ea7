import XSBEngine.Arith.Instructions

/-!
# What the instructions store

The numbers that `ARITHPROC`, `idivreg` and `fdivreg` store, by the values of their operands.
-/

namespace XSBEngine.Arith

open Heap Option

variable {fl : Floats} {ptrFloat : Nat → Float64} {mem : Nat → Cell} {n : Nat} {c c' : Cell}
  {v : FltInt} {left right : EvalResult}

/-! ### Operands -/

section Operands

theorem deref_self (h : deref mem n c = some c') (k : Nat) : deref mem (k + 1) c' = some c' := by
  induction n generalizing c with
  | zero => cases h
  | succ n ih =>
    cases c with
    | ref a | attv a =>
      rw [deref] at h
      split at h
      next ha =>
        cases h
        exact if_pos ha
      next => exact ih h
    | int i | float x | string s | list a | cs a | functor p =>
      cases h
      rfl

/-- Evaluation does not depend on references. -/
theorem xsbEval_deref (h : deref mem (n + 1) c = some c') :
    xsbEval fl mem (n + 1) c' = xsbEval fl mem (n + 1) c := by
  rw [xsbEval, xsbEval, h, deref_self h n]

/-- What is evaluated has been dereferenced. -/
theorem xsbEval_derefs {res : EvalResult} (h : xsbEval fl mem n c = some res) :
    ∃ c', deref mem n c = some c' ∧ xsbEval fl mem n c' = some res ∧
      ∀ v, numberOf mem c' = some v → res = .value v := by
  cases n with
  | zero => cases h
  | succ n =>
    rw [xsbEval] at h
    obtain ⟨c', hderef, h'⟩ := bind_eq_some_iff.mp h
    refine ⟨c', hderef, ?_, fun v hv => ?_⟩
    · rw [xsbEval_deref hderef, xsbEval]
      exact h
    · rw [hv] at h'
      exact (some.inj h').symm

/-- A number has one kind. -/
theorem isofloat_of_isointeger (h : isointeger mem c = true) : isofloat mem c = false := by
  cases c with
  | cs a =>
    have hid : boxHasId mem a idBoxedInt = true := by
      rw [isointeger, show (Cell.cs a).isinteger = false from rfl, Bool.false_or, isboxedinteger,
        Bool.and_eq_true] at h
      exact h.2
    have hnot : boxHasId mem a idBoxedFloat = false := by
      rw [boxHasId, decide_eq_true_eq] at hid
      rw [boxHasId, hid]
      rfl
    rw [isofloat, isboxedfloat, hnot, Bool.and_false]
    rfl
  | int i => rfl
  | ref a | attv a | float x | string s | list a | functor p => cases h

theorem numberOf_int (h : isointeger mem c = true) :
    numberOf mem c = some (.int (ointBits mem c)) := if_pos h

theorem numberOf_flt (h : isointeger mem c = false) (hf : isofloat mem c = true) :
    numberOf mem c = some (.flt (ofloatVal mem c)) := by
  rw [numberOf, h, hf]
  rfl

theorem numberOf_none (h : isointeger mem c = false) (hf : isofloat mem c = false) :
    numberOf mem c = none := by
  rw [numberOf, h, hf]
  rfl

/-- The values of two operands, if both have one. -/
def EvalResult.both (left right : EvalResult) (f : FltInt → FltInt → EvalResult) : EvalResult :=
  match left with
  | .value x =>
    match right with
    | .value y => f x y
    | res => res
  | res => res

theorem EvalResult.both_eq_value {f : FltInt → FltInt → EvalResult} :
    left.both right f = .value v ↔ ∃ x y, left = .value x ∧ right = .value y ∧
      f x y = .value v := by
  constructor
  · intro h
    cases left with
    | value x =>
      cases right with
      | value y => exact ⟨x, y, rfl, rfl, h⟩
      | _ => cases h
    | _ => cases h
  · rintro ⟨x, y, rfl, rfl, h⟩
    exact h

/-- The value of an expression with two operands. -/
theorem xsbEval_binary {a : Nat} {name : CString} {m : Option CString} {op1 op2 : Cell}
    (hpsc : mem a = .functor ⟨name, 2, m⟩) (h1 : mem (a + 1) = op1) (h2 : mem (a + 2) = op2)
    (hleft : xsbEval fl mem n op1 = some left) (hright : xsbEval fl mem n op2 = some right) :
    xsbEval fl mem (n + 1) (.cs a) = some (left.both right (evalBinary fl name op1 op2)) := by
  have hbox : isboxed mem (.cs a) = false := by
    rw [isboxed, hpsc]
    apply decide_eq_false
    intro heq
    cases heq
  have hnumber : numberOf mem (.cs a) = none := by
    apply numberOf_none
    · rw [isointeger, isboxedinteger, hbox]
      rfl
    · rw [isofloat, isboxedfloat, hbox]
      rfl
  have hstr : getStrPsc mem a = some ⟨name, 2, m⟩ := by
    rw [getStrPsc, hpsc]
  have hderef : deref mem (n + 1) (.cs a) = some (.cs a) := rfl
  simp only [xsbEval, hderef, hnumber, hstr, h1, h2, hleft, hright, bind_eq_bind,
    bind_some, if_true]
  cases left with
  | value x => cases right <;> rfl
  | unset | failed | abort op1 op op2 | trap => rfl

end Operands

/-! ### Addition, subtraction and multiplication -/

section ArithProc

variable {s : Stacks} {op : ArithOp} {strop : String} {op1 op2 c₁ c₂ : Cell} {res : InstrResult}

/-- The value that `ARITHPROC` stores for the values `x` of the left operand and `y` of the
right operand. -/
def arithValue (fl : Floats) (ptrFloat : Nat → Float64) (mem : Nat → Cell) (op : ArithOp)
    (c₁ c₂ : Cell) (x y : FltInt) : FltInt :=
  match numberOf mem c₁, numberOf mem c₂ with
  | none, _ => op.eval fl y x
  | some (.flt _), none => .flt (op.ofFloats fl (x.toFloat fl) (floatVal ptrFloat c₁))
  | _, _ => op.eval fl x y

theorem not_stores_ofEval {strop : String} (res : EvalResult) (v : FltInt) :
    ¬ (InstrResult.ofEval (.abort op2 strop op1) res).Stores v := by
  rintro ⟨s', c, heq, -⟩
  cases res <;> cases heq

/-- The stored value is that of a function of the operands' values. -/
def StoresValue (res : InstrResult) (left right : EvalResult) (f : FltInt → FltInt → FltInt) :
    Prop :=
  ∀ v, res.Stores v ↔ ∃ x y, left = .value x ∧ right = .value y ∧ v = f x y

variable {f : FltInt → FltInt → FltInt}

theorem storesValue_store (w : FltInt) {x y : FltInt}
    (hw : f x y = w) : StoresValue (store s w) (.value x) (.value y) f := by
  intro v
  rw [store_stores]
  constructor
  · rintro rfl
    exact ⟨x, y, rfl, rfl, hw.symm⟩
  · rintro ⟨x', y', hx, hy, rfl⟩
    cases hx
    cases hy
    exact hw

theorem storesValue_none (other : EvalResult)
    (hnone : (∀ x, left ≠ .value x) ∨ ∀ y, right ≠ .value y) :
    StoresValue (.ofEval (.abort op2 strop op1) other) left right f := by
  refine fun v => iff_of_false (not_stores_ofEval other v) ?_
  rintro ⟨x, y, hx, hy, -⟩
  rcases hnone with hnone | hnone
  · exact hnone x hx
  · exact hnone y hy

/-- An operand is evaluated for its value. -/
theorem evaluated_stores {ofInt : BitVec 64 → InstrResult}
    {ofFlt : Float64 → InstrResult}
    (hint : ∀ a, StoresValue (ofInt a) (.value (.int a)) right f)
    (hflt : ∀ x, StoresValue (ofFlt x) (.value (.flt x)) right f) :
    ∃ r, (match left with
      | .value (.int fivar) => some (ofInt fivar)
      | .value (.flt fivar) => some (ofFlt fivar)
      | other => some (.ofEval (.abort op2 strop op1) other) : Option InstrResult) = some r ∧
        StoresValue r left right f := by
  cases left with
  | value x =>
    cases x with
    | int a => exact ⟨_, rfl, hint a⟩
    | flt x => exact ⟨_, rfl, hflt x⟩
  | unset | failed | abort | trap =>
    exact ⟨_, rfl, storesValue_none _ (.inl fun _ => nofun)⟩

/-- What `ARITHPROC` stores. -/
theorem arithproc_stores (ptrFloat : Nat → Float64) (op : ArithOp) (strop : String)
    (hleft : xsbEval fl s.mem n op2 = some left)
    (hright : xsbEval fl s.mem n op1 = some right) (h1 : deref s.mem n op1 = some c₁)
    (h2 : deref s.mem n op2 = some c₂) :
    ∃ res, arithproc fl ptrFloat op strop n s op1 op2 = some res ∧
      StoresValue res left right (arithValue fl ptrFloat s.mem op c₁ c₂) := by
  obtain ⟨c1', h1', heval1, hvalue1⟩ := xsbEval_derefs hright
  obtain ⟨c2', h2', heval2, hvalue2⟩ := xsbEval_derefs hleft
  obtain rfl := some.inj (h1.symm.trans h1')
  obtain rfl := some.inj (h2.symm.trans h2')
  simp only [arithproc, h1, h2, heval1, heval2, bind_eq_bind, bind_some]
  cases hi1 : isointeger s.mem c₁ with
  | true =>
    obtain rfl := hvalue1 _ (numberOf_int hi1)
    simp only [if_true]
    cases hi2 : isointeger s.mem c₂ with
    | true =>
      obtain rfl := hvalue2 _ (numberOf_int hi2)
      refine ⟨_, rfl, storesValue_store (.int _) ?_⟩
      rw [arithValue, numberOf_int hi1, numberOf_int hi2]
      rfl
    | false =>
      cases hf2 : isofloat s.mem c₂ with
      | true =>
        obtain rfl := hvalue2 _ (numberOf_flt hi2 hf2)
        refine ⟨_, rfl, storesValue_store (.flt _) ?_⟩
        rw [arithValue, numberOf_int hi1, numberOf_flt hi2 hf2]
        rfl
      | false =>
        simp only [Bool.false_eq_true, if_false]
        apply evaluated_stores
        case hint =>
          intro a
          apply storesValue_store (.int _)
          rw [arithValue, numberOf_int hi1, numberOf_none hi2 hf2]
          rfl
        case hflt =>
          intro x
          apply storesValue_store (.flt _)
          rw [arithValue, numberOf_int hi1, numberOf_none hi2 hf2]
          rfl
  | false =>
    cases hf1 : isofloat s.mem c₁ with
    | true =>
      obtain rfl := hvalue1 _ (numberOf_flt hi1 hf1)
      simp only [Bool.false_eq_true, if_false, if_true]
      cases hf2 : isofloat s.mem c₂ with
      | true =>
        cases hi2 : isointeger s.mem c₂ with
        | true =>
          rw [isofloat_of_isointeger hi2] at hf2
          cases hf2
        | false =>
          obtain rfl := hvalue2 _ (numberOf_flt hi2 hf2)
          refine ⟨_, rfl, storesValue_store (.flt _) ?_⟩
          rw [arithValue, numberOf_flt hi1 hf1, numberOf_flt hi2 hf2]
          rfl
      | false =>
        cases hi2 : isointeger s.mem c₂ with
        | true =>
          obtain rfl := hvalue2 _ (numberOf_int hi2)
          refine ⟨_, rfl, storesValue_store (.flt _) ?_⟩
          rw [arithValue, numberOf_flt hi1 hf1, numberOf_int hi2]
          rfl
        | false =>
          simp only [Bool.false_eq_true, if_false]
          apply evaluated_stores
          case hint =>
            intro a
            apply storesValue_store (.flt _)
            rw [arithValue, numberOf_flt hi1 hf1, numberOf_none hi2 hf2]
            rfl
          case hflt =>
            intro x
            apply storesValue_store (.flt _)
            rw [arithValue, numberOf_flt hi1 hf1, numberOf_none hi2 hf2]
            rfl
    | false =>
      simp only [Bool.false_eq_true, if_false]
      have hnone := numberOf_none hi1 hf1
      cases right with
      | value y =>
        cases left with
        | value x =>
          cases y with
          | int b =>
            cases x with
            | int a =>
              refine ⟨_, rfl, storesValue_store (.int _) ?_⟩
              rw [arithValue, hnone]
              rfl
            | flt x =>
              refine ⟨_, rfl, storesValue_store (.flt _) ?_⟩
              rw [arithValue, hnone]
              rfl
          | flt y =>
            cases x with
            | int a | flt x =>
              refine ⟨_, rfl, storesValue_store (.flt _) ?_⟩
              rw [arithValue, hnone]
              rfl
        | unset | failed | abort | trap =>
          exact ⟨_, rfl, storesValue_none _ (.inl fun _ => nofun)⟩
      | unset | failed | abort | trap =>
        exact ⟨_, rfl, storesValue_none _ (.inr fun _ => nofun)⟩

end ArithProc

/-! ### Division -/

section Division

variable {s : Stacks} {strop : String} {op1 op2 c₁ c₂ : Cell} {res : InstrResult}
  {f g : BitVec 64 → BitVec 64 → Option (BitVec 64)}

/-- The stored value is a quotient of integers, and no error is raised for a zero divisor. -/
structure StoresQuotient (res : InstrResult) (left right : EvalResult)
    (f : BitVec 64 → BitVec 64 → Option (BitVec 64)) : Prop where
  noError : ∀ op1, res ≠ .zeroDivide op1
  stores : ∀ v, res.Stores v ↔ ∃ x y q, left = .value (.int x) ∧ right = .value (.int y) ∧
    f x y = some q ∧ v = .int q

theorem storesQuotient_bld {q : Option (BitVec 64)} {x y : BitVec 64} (hq : f x y = q) :
    StoresQuotient (bldQuotient s q) (.value (.int x)) (.value (.int y)) f where
  noError op1 heq := by
    cases q with
    | none => cases heq
    | some q =>
      rw [bldQuotient, bldOint] at heq
      split at heq
      next => cases heq
      next => cases heq
  stores v := by
    cases q with
    | none =>
      refine iff_of_false ?_ ?_
      · rintro ⟨s', c, heq, -⟩
        cases heq
      · rintro ⟨x', y', q, hx, hy, hq', -⟩
        cases hx
        cases hy
        cases hq.symm.trans hq'
    | some q =>
      have hstore : (bldQuotient s (some q)).Stores v ↔ v = .int q := store_stores (v := .int q)
      rw [hstore]
      constructor
      · rintro rfl
        exact ⟨x, y, q, rfl, rfl, hq, rfl⟩
      · rintro ⟨x', y', q', hx, hy, hq', rfl⟩
        cases hx
        cases hy
        cases hq.symm.trans hq'
        rfl

theorem storesQuotient_none (other : EvalResult)
    (hnone : (∀ x, left ≠ .value (.int x)) ∨ ∀ y, right ≠ .value (.int y)) :
    StoresQuotient (.ofEval (.abort op2 strop op1) other) left right f where
  noError op heq := by cases other <;> cases heq
  stores v := by
    refine iff_of_false (not_stores_ofEval other v) ?_
    rintro ⟨x, y, q, hx, hy, -⟩
    rcases hnone with hnone | hnone
    · exact hnone x hx
    · exact hnone y hy

/-- The left operand is evaluated for an integer. -/
theorem evaluated_quotient {ofInt : BitVec 64 → InstrResult}
    (hint : ∀ a, StoresQuotient (ofInt a) (.value (.int a)) right f) :
    ∃ r, (match left with
      | .value (.int fivar) => some (ofInt fivar)
      | .value (.flt _) => some (.abort op2 strop op1)
      | other => some (.ofEval (.abort op2 strop op1) other) : Option InstrResult) = some r ∧
        StoresQuotient r left right f := by
  cases left with
  | value x =>
    cases x with
    | int a => exact ⟨_, rfl, hint a⟩
    | flt x => exact ⟨_, rfl, storesQuotient_none .failed (.inl fun _ => nofun)⟩
  | unset | failed | abort | trap =>
    exact ⟨_, rfl, storesQuotient_none _ (.inl fun _ => nofun)⟩

/-- The last branch divides the right operand by the left one. -/
theorem divExpressions_stores (hleft : xsbEval fl s.mem n op2 = some left)
    (hright : xsbEval fl s.mem n op1 = some right) :
    ∃ res, divExpressions fl n s op1 op2 = some res ∧
      StoresQuotient res left right fun x y => machineDiv y x := by
  simp only [divExpressions, hleft, hright, bind_eq_bind, bind_some]
  cases right with
  | value y =>
    cases y with
    | int b => exact evaluated_quotient fun a => storesQuotient_bld rfl
    | flt y => exact ⟨_, rfl, storesQuotient_none .failed (.inr fun _ => nofun)⟩
  | unset | failed | abort | trap =>
    exact ⟨_, rfl, storesQuotient_none _ (.inr fun _ => nofun)⟩

/-- What `idivreg` and `fdivreg` store. -/
theorem divproc_stores (f : BitVec 64 → BitVec 64 → Option (BitVec 64)) (strop : String)
    (hleft : xsbEval fl s.mem n op2 = some left)
    (hright : xsbEval fl s.mem n op1 = some right) (h1 : deref s.mem n op1 = some c₁)
    (h2 : deref s.mem n op2 = some c₂) :
    ∃ res, divproc fl f strop n s op1 op2 = some res ∧
      if isointeger s.mem c₁ then
        if ointBits s.mem c₁ = 0 then res = .zeroDivide c₁
        else StoresQuotient res left right (if isointeger s.mem c₂ then machineDiv else f)
      else StoresQuotient res left right fun x y => machineDiv y x := by
  obtain ⟨c1', h1', heval1, hvalue1⟩ := xsbEval_derefs hright
  obtain ⟨c2', h2', heval2, hvalue2⟩ := xsbEval_derefs hleft
  obtain rfl := some.inj (h1.symm.trans h1')
  obtain rfl := some.inj (h2.symm.trans h2')
  simp only [divproc, h1, h2, heval2, bind_eq_bind, bind_some]
  cases hi1 : isointeger s.mem c₁ with
  | true =>
    obtain rfl := hvalue1 _ (numberOf_int hi1)
    by_cases hzero : ointBits s.mem c₁ = 0
    case pos =>
      simp only [hzero, ne_eq, not_true_eq_false, if_false, if_true]
      exact ⟨_, rfl, rfl⟩
    case neg =>
      simp only [hzero, ne_eq, not_false_eq_true, if_false, if_true]
      cases hi2 : isointeger s.mem c₂ with
      | true =>
        obtain rfl := hvalue2 _ (numberOf_int hi2)
        exact ⟨_, rfl, storesQuotient_bld rfl⟩
      | false =>
        simp only [Bool.false_eq_true, if_false]
        exact evaluated_quotient fun a => storesQuotient_bld rfl
  | false =>
    simp only [Bool.false_eq_true, if_false]
    exact divExpressions_stores heval2 heval1

end Division

end XSBEngine.Arith
