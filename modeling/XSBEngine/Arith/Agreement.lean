import XSBEngine.Arith.Values

/-!
# Instructions and `xsb_eval`

When an instruction stores the value of the expression that it was compiled from.
-/

namespace XSBEngine.Arith

open Heap

/-- The operator that an instruction is compiled from. -/
def ArithInstr.name : ArithInstr → CString
  | .addreg => ⟨[43], by decide⟩
  | .subreg => ⟨[45], by decide⟩
  | .mulreg => ⟨[42], by decide⟩
  | .idivreg => ⟨[47, 47], by decide⟩
  | .fdivreg => ⟨[100, 105, 118], by decide⟩

/-- `idivreg` and `fdivreg`. -/
def ArithInstr.divides : ArithInstr → Bool
  | .idivreg => true
  | .fdivreg => true
  | _ => false

/-- The value of the expression is stored, or an error raised for a zero divisor. -/
def ArithInstr.Meets (i : ArithInstr) (res : InstrResult) (right whole : EvalResult) : Prop :=
  if i.divides ∧ right = .value (.int 0) then ∃ op1, res = .zeroDivide op1
  else ∀ v, res.Stores v ↔ whole = .value v

variable {fl : Floats} {ptrFloat : Nat → Float64} {mem : Nat → Cell} {n : Nat}
  {left right : EvalResult}

/-! ### When the instructions meet their expressions -/

section Exchanged

/-- The machine traps for no other operands. -/
theorem machineDiv_eq {a b : BitVec 64} (hb : b ≠ 0) (h : ¬ (a = .intMin 64 ∧ b = -1)) :
    machineDiv a b = some (a.sdiv b) := by
  rw [machineDiv, if_neg]
  rintro (hzero | htrap)
  · exact hb hzero
  · exact h htrap

theorem machineDiv_isSome {a b : BitVec 64} (h : (machineDiv a b).isSome) :
    b ≠ 0 ∧ ¬ (a = .intMin 64 ∧ b = -1) := by
  rw [machineDiv] at h
  split at h
  next => cases h
  next hnot => exact not_or.mp hnot

theorem toInt_ne_zero {a : BitVec 64} (h : a ≠ 0) : a.toInt ≠ 0 := by
  intro hzero
  apply h
  apply BitVec.eq_of_toInt_eq
  rw [hzero]
  rfl

/-- The integers that the machine divides by each other with one quotient. -/
theorem machineDiv_comm_iff {x y : BitVec 64} (hy : y ≠ 0) :
    machineDiv y x = machineDiv x y ↔ x = y ∨ x = -y := by
  have hmin : (BitVec.intMin 64).toInt = -2 ^ 63 := rfl
  have hxle := BitVec.le_toInt x
  have hyle := BitVec.le_toInt y
  have hxlt := BitVec.toInt_lt (x := x)
  have hylt := BitVec.toInt_lt (x := y)
  have hy' := toInt_ne_zero hy
  constructor
  case mp =>
    intro heq
    have htrap : ¬ (x = .intMin 64 ∧ y = -1) := by
      rintro ⟨rfl, rfl⟩
      cases heq
    have hsome := machineDiv_eq hy htrap
    obtain ⟨hx, htrap'⟩ := machineDiv_isSome (heq ▸ hsome ▸ rfl : (machineDiv y x).isSome)
    rw [hsome, machineDiv_eq hx htrap'] at heq
    have hquot := congrArg BitVec.toInt (Option.some.inj heq)
    rw [BitVec.toInt_sdiv_of_ne_or_ne _ _ (not_and_or.mp htrap),
      BitVec.toInt_sdiv_of_ne_or_ne _ _ (not_and_or.mp htrap')] at hquot
    have habs := congrArg Int.natAbs hquot
    rw [Int.natAbs_tdiv, Int.natAbs_tdiv] at habs
    replace habs : y.toInt.natAbs / x.toInt.natAbs = x.toInt.natAbs / y.toInt.natAbs := habs
    have hx' := toInt_ne_zero hx
    -- the smaller one would be divided to zero
    have heqabs : x.toInt.natAbs = y.toInt.natAbs := by
      rcases Nat.lt_trichotomy x.toInt.natAbs y.toInt.natAbs with hlt | h | hlt
      · have hpos := Nat.div_pos hlt.le (Int.natAbs_pos.mpr hx')
        rw [habs, Nat.div_eq_of_lt hlt] at hpos
        omega
      · exact h
      · have hpos := Nat.div_pos hlt.le (Int.natAbs_pos.mpr hy')
        rw [← habs, Nat.div_eq_of_lt hlt] at hpos
        omega
    rcases Int.natAbs_eq_natAbs_iff.mp heqabs with h | h
    · exact .inl (BitVec.eq_of_toInt_eq h)
    · right
      apply BitVec.eq_of_toInt_eq
      rw [h, BitVec.toInt_neg_of_ne_intMin]
      rintro rfl
      omega
  case mpr =>
    rintro (rfl | rfl)
    · rfl
    · by_cases hmin' : y = .intMin 64
      case pos =>
        subst hmin'
        rfl
      case neg =>
        have hneg := BitVec.toInt_neg_of_ne_intMin hmin'
        have hne : -y ≠ .intMin 64 := by
          intro h
          rw [h] at hneg
          omega
        have hzero : -y ≠ 0 := by
          intro h
          rw [h] at hneg
          have h0 : (0 : BitVec 64).toInt = 0 := rfl
          omega
        rw [machineDiv_eq hzero fun h => hmin' h.1, machineDiv_eq hy fun h => hne h.1]
        congr 1
        apply BitVec.eq_of_toInt_eq
        rw [BitVec.toInt_sdiv_of_ne_or_ne _ _ (.inl hmin'),
          BitVec.toInt_sdiv_of_ne_or_ne _ _ (.inl hne),
          hneg, Int.tdiv_neg, Int.neg_tdiv]

theorem sub_comm_iff (a b : BitVec 64) : b - a = a - b ↔ a = b ∨ a - b = .intMin 64 := by
  have hmin : (BitVec.intMin 64).toNat = 2 ^ 63 := rfl
  have ha := a.isLt
  have hb := b.isLt
  rw [← BitVec.toNat_inj, ← BitVec.toNat_inj, ← BitVec.toNat_inj, hmin, BitVec.toNat_sub,
    BitVec.toNat_sub]
  omega

/-- Values that an operator may be applied to in either order. -/
def Exchange (fl : Floats) (op : ArithOp) : FltInt → FltInt → Prop
  | .int a, .int b => op = .sub → a = b ∨ a - b = .intMin 64
  | x, y =>
    op.ofFloats fl (y.toFloat fl) (x.toFloat fl) = op.ofFloats fl (x.toFloat fl) (y.toFloat fl)

theorem exchange_iff {op : ArithOp} {x y : FltInt} :
    op.eval fl y x = op.eval fl x y ↔ Exchange fl op x y := by
  cases x with
  | int a =>
    cases y with
    | int b =>
      simp only [ArithOp.eval, Exchange, FltInt.int.injEq]
      cases op with
      | add => exact iff_of_true (BitVec.add_comm b a) (by rintro ⟨⟩)
      | sub =>
        rw [ArithOp.ofInts, sub_comm_iff]
        exact ⟨fun h _ => h, fun h => h rfl⟩
      | mul => exact iff_of_true (BitVec.mul_comm b a) (by rintro ⟨⟩)
    | flt y => simp only [ArithOp.eval, Exchange, FltInt.flt.injEq]
  | flt x =>
    cases y with
    | int b | flt y => simp only [ArithOp.eval, Exchange, FltInt.flt.injEq]

end Exchanged

/-- `ARITHPROC` takes a right operand that is an expression for the left one, and the pointer to a
boxed float for a float if the left operand is an expression. -/
def ArithOp.HoldsWhen (fl : Floats) (ptrFloat : Nat → Float64) (mem : Nat → Cell) (op : ArithOp)
    (c₁ c₂ : Cell) (left right : EvalResult) : Prop :=
  ∀ x y, left = .value x → right = .value y →
    (numberOf mem c₁ = none → Exchange fl op x y) ∧
    (isofloat mem c₁ = true → numberOf mem c₂ = none →
      op.ofFloats fl (x.toFloat fl) (floatVal ptrFloat c₁) =
        op.ofFloats fl (x.toFloat fl) (y.toFloat fl))

/-- When an instruction stores the value of its expression: the divisions take a right operand
that is no integer for the left one, without a test for zero, and `fdivreg` rounds towards zero
but for an integer and an expression on its left. -/
def ArithInstr.HoldsWhen (fl : Floats) (ptrFloat : Nat → Float64) (mem : Nat → Cell)
    (c₁ c₂ : Cell) (left right : EvalResult) : ArithInstr → Prop
  | .addreg => ArithOp.add.HoldsWhen fl ptrFloat mem c₁ c₂ left right
  | .subreg => ArithOp.sub.HoldsWhen fl ptrFloat mem c₁ c₂ left right
  | .mulreg => ArithOp.mul.HoldsWhen fl ptrFloat mem c₁ c₂ left right
  | .idivreg => isointeger mem c₁ = false → ∀ y, right = .value (.int y) → y ≠ 0 ∧
      ∀ x, left = .value (.int x) → x = y ∨ x = -y
  | .fdivreg => ∀ y, right = .value (.int y) →
      if isointeger mem c₁ then y ≠ 0 → isointeger mem c₂ = true →
        ∀ x, left = .value (.int x) → machineDiv x y = some (floorDiv fl x y)
      else y ≠ 0 ∧ ∀ x, left = .value (.int x) → machineDiv y x = some (floorDiv fl x y)

section Main

variable {s : Stacks} {op : ArithOp} {strop : String} {op1 op2 c₁ c₂ : Cell} {res : InstrResult}

theorem arithValue_eq_iff {x y : FltInt} (hy : ∀ v, numberOf mem c₁ = some v → y = v) :
    arithValue fl ptrFloat mem op c₁ c₂ x y = op.eval fl x y ↔
      (numberOf mem c₁ = none → Exchange fl op x y) ∧
      (isofloat mem c₁ = true → numberOf mem c₂ = none →
        op.ofFloats fl (x.toFloat fl) (floatVal ptrFloat c₁) =
          op.ofFloats fl (x.toFloat fl) (y.toFloat fl)) := by
  cases hi1 : isointeger mem c₁ with
  | true =>
    have hnumber := numberOf_int hi1
    rw [arithValue, hnumber, isofloat_of_isointeger hi1]
    exact iff_of_true rfl ⟨(by rintro ⟨⟩), (by rintro ⟨⟩)⟩
  | false =>
    cases hf1 : isofloat mem c₁ with
    | false =>
      rw [arithValue, numberOf_none hi1 hf1]
      exact exchange_iff.trans ⟨fun h => ⟨fun _ => h, (by rintro ⟨⟩)⟩, fun h => h.1 rfl⟩
    | true =>
      have hnumber := numberOf_flt hi1 hf1
      obtain rfl := hy _ hnumber
      rw [arithValue, hnumber]
      cases hc2 : numberOf mem c₂ with
      | some z => exact iff_of_true rfl ⟨(by rintro ⟨⟩), (by rintro - ⟨⟩)⟩
      | none =>
        have heval : op.eval fl x (.flt (ofloatVal mem c₁)) =
            .flt (op.ofFloats fl (x.toFloat fl) (ofloatVal mem c₁)) := by
          cases x <;> rfl
        rw [heval, FltInt.flt.injEq]
        exact ⟨fun h => ⟨(by rintro ⟨⟩), fun _ _ => h⟩, fun h => h.2 rfl rfl⟩

/-- Addition, subtraction and multiplication. -/
theorem arithproc_meets_iff {i : ArithInstr} (hi : i.divides = false)
    (hright : ∀ v, numberOf mem c₁ = some v → right = .value v)
    (hstores : StoresValue res left right (arithValue fl ptrFloat mem op c₁ c₂)) :
    i.Meets res right (left.both right fun x y => .value (op.eval fl x y)) ↔
      op.HoldsWhen fl ptrFloat mem c₁ c₂ left right := by
  rw [ArithInstr.Meets, if_neg (by rw [hi]; exact fun h => Bool.noConfusion h.1)]
  constructor
  case mp =>
    rintro hmeets x y rfl rfl
    rw [← arithValue_eq_iff fun v hv => EvalResult.value.inj (hright v hv)]
    have hstored := (hmeets _).mp ((hstores _).mpr ⟨x, y, rfl, rfl, rfl⟩)
    exact (EvalResult.value.inj hstored).symm
  case mpr =>
    intro hholds v
    rw [hstores v, EvalResult.both_eq_value]
    apply exists_congr
    intro x
    apply exists_congr
    intro y
    apply and_congr_right
    rintro rfl
    apply and_congr_right
    rintro rfl
    rw [(arithValue_eq_iff fun v hv => EvalResult.value.inj (hright v hv)).mpr
      (hholds x y rfl rfl), EvalResult.value.injEq]
    exact eq_comm

variable {f g : BitVec 64 → BitVec 64 → Option (BitVec 64)}

/-- The value of an expression is a quotient of integers. -/
def WholeQuotient (whole left right : EvalResult)
    (g : BitVec 64 → BitVec 64 → Option (BitVec 64)) : Prop :=
  ∀ v, whole = .value v ↔ ∃ x y q, left = .value (.int x) ∧ right = .value (.int y) ∧
    g x y = some q ∧ v = .int q

theorem wholeQuotient_both {h : FltInt → FltInt → EvalResult}
    (hint : ∀ x y v, h (.int x) (.int y) = .value v ↔ ∃ q, g x y = some q ∧ v = .int q)
    (hflt : ∀ x y v, h x y = .value v → ∃ a b, x = .int a ∧ y = .int b) :
    WholeQuotient (left.both right h) left right g := by
  intro v
  rw [EvalResult.both_eq_value]
  constructor
  · rintro ⟨x, y, rfl, rfl, hv⟩
    obtain ⟨a, b, rfl, rfl⟩ := hflt x y v hv
    obtain ⟨q, hq, rfl⟩ := (hint a b v).mp hv
    exact ⟨a, b, q, rfl, rfl, hq, rfl⟩
  · rintro ⟨a, b, q, rfl, rfl, hq, rfl⟩
    exact ⟨_, _, rfl, rfl, (hint a b _).mpr ⟨q, hq, rfl⟩⟩

/-- The quotient that is stored is the value just if both divisions give the same. -/
theorem storesQuotient_iff {whole : EvalResult} (hres : StoresQuotient res left right f)
    (hwhole : WholeQuotient whole left right g) :
    (∀ v, res.Stores v ↔ whole = .value v) ↔
      ∀ x y, left = .value (.int x) → right = .value (.int y) → f x y = g x y := by
  constructor
  case mp =>
    rintro h x y rfl rfl
    apply Option.ext
    intro q
    have hv := h (.int q)
    rw [hres.stores, hwhole] at hv
    constructor
    · intro hf
      obtain ⟨x', y', q', hx, hy, hg, hq⟩ := hv.mp ⟨x, y, q, rfl, rfl, hf, rfl⟩
      cases hx
      cases hy
      cases hq
      exact hg
    · intro hg
      obtain ⟨x', y', q', hx, hy, hf, hq⟩ := hv.mpr ⟨x, y, q, rfl, rfl, hg, rfl⟩
      cases hx
      cases hy
      cases hq
      exact hf
  case mpr =>
    intro h v
    rw [hres.stores, hwhole]
    constructor
    · rintro ⟨x, y, q, hx, hy, hf, rfl⟩
      exact ⟨x, y, q, hx, hy, (h x y hx hy).symm.trans hf, rfl⟩
    · rintro ⟨x, y, q, hx, hy, hg, rfl⟩
      exact ⟨x, y, q, hx, hy, (h x y hx hy).trans hg, rfl⟩

/-- The divisions. -/
theorem divproc_meets_iff {i : ArithInstr} {whole : EvalResult} (hi : i.divides = true)
    (hright : isointeger mem c₁ = true → right = .value (.int (ointBits mem c₁)))
    (hres : if isointeger mem c₁ then
        if ointBits mem c₁ = 0 then res = .zeroDivide c₁
        else StoresQuotient res left right (if isointeger mem c₂ then machineDiv else f)
      else StoresQuotient res left right fun x y => machineDiv y x)
    (hwhole : WholeQuotient whole left right f) :
    i.Meets res right whole ↔ ∀ y, right = .value (.int y) →
      if isointeger mem c₁ then y ≠ 0 → isointeger mem c₂ = true →
        ∀ x, left = .value (.int x) → machineDiv x y = f x y
      else y ≠ 0 ∧ ∀ x, left = .value (.int x) → machineDiv y x = f x y := by
  by_cases hzero : right = .value (.int 0)
  case pos =>
    rw [ArithInstr.Meets, if_pos ⟨hi, hzero⟩]
    subst hzero
    cases hi1 : isointeger mem c₁ with
    | true =>
      have hc1 := FltInt.int.inj (EvalResult.value.inj (hright hi1))
      rw [hi1, if_pos rfl, if_pos hc1.symm] at hres
      refine iff_of_true ⟨c₁, hres⟩ ?_
      rintro y hy
      cases hy
      exact fun hne => absurd rfl hne
    | false =>
      rw [hi1] at hres
      refine iff_of_false ?_ fun h => ?_
      · rintro ⟨op1, heq⟩
        exact hres.noError op1 heq
      · exact (h 0 rfl).1 rfl
  case neg =>
    rw [ArithInstr.Meets, if_neg fun h => hzero h.2]
    have hy : ∀ y, right = .value (.int y) → y ≠ 0 := by
      rintro y rfl rfl
      exact hzero rfl
    cases hi1 : isointeger mem c₁ with
    | true =>
      have hc1 := hright hi1
      rw [hi1, if_pos rfl, if_neg (hy _ hc1)] at hres
      rw [storesQuotient_iff hres hwhole]
      cases hi2 : isointeger mem c₂ with
      | true => exact ⟨fun h y hr _ _ x hx ↦ h x y hx hr, fun h x y hx hr ↦
        h y hr (hy y hr) rfl x hx⟩
      | false => exact iff_of_true (fun _ _ _ _ => rfl) fun _ _ _ => nofun
    | false =>
      rw [hi1] at hres
      rw [storesQuotient_iff hres hwhole]
      exact ⟨fun h y hr => ⟨hy y hr, fun x hx => h x y hx hr⟩, fun h x y hx hr => (h y hr).2 x hx⟩

/-- For every expression of an operator with an instruction: the instruction comes to a result, and
it stores the value of the expression, or raises the error for a zero divisor, just if the operands
meet the condition. -/
theorem instr_meets_iff (ptrFloat : Nat → Float64) (i : ArithInstr) {a : Nat}
    {m : Option CString}
    (hpsc : s.mem a = .functor ⟨i.name, 2, m⟩)
    (hleft : xsbEval fl s.mem n (s.mem (a + 1)) = some left)
    (hright : xsbEval fl s.mem n (s.mem (a + 2)) = some right) :
    ∃ c₁ c₂ res whole, deref s.mem n (s.mem (a + 2)) = some c₁ ∧
      deref s.mem n (s.mem (a + 1)) = some c₂ ∧
      i.run fl ptrFloat n s (s.mem (a + 2)) (s.mem (a + 1)) = some res ∧
      xsbEval fl s.mem (n + 1) (.cs a) = some whole ∧
      (i.Meets res right whole ↔ i.HoldsWhen fl ptrFloat s.mem c₁ c₂ left right) := by
  have hwhole := xsbEval_binary hpsc rfl rfl hleft hright
  obtain ⟨c₁, h₁, -, hvalue1⟩ := xsbEval_derefs hright
  obtain ⟨c₂, h₂, -, -⟩ := xsbEval_derefs hleft
  refine ⟨c₁, c₂, ?_⟩
  have harith : ∀ (op : ArithOp) (strop : String), i.divides = false →
      i.run fl ptrFloat = arithproc fl ptrFloat op strop →
      (∀ op1 op2 x y, evalBinary fl i.name op1 op2 x y = .value (op.eval fl x y)) →
      ∃ res whole, deref s.mem n (s.mem (a + 2)) = some c₁ ∧
        deref s.mem n (s.mem (a + 1)) = some c₂ ∧
        i.run fl ptrFloat n s (s.mem (a + 2)) (s.mem (a + 1)) = some res ∧
        xsbEval fl s.mem (n + 1) (.cs a) = some whole ∧
        (i.Meets res right whole ↔ op.HoldsWhen fl ptrFloat s.mem c₁ c₂ left right) := by
    intro op strop hi hrun heval
    obtain ⟨res, hres, hstores⟩ := arithproc_stores ptrFloat op strop hleft hright h₁ h₂
    refine ⟨res, _, h₁, h₂, hrun ▸ hres, hwhole, ?_⟩
    rw [show evalBinary fl i.name _ _ = _ from funext fun x => funext fun y => heval _ _ x y]
    exact arithproc_meets_iff hi hvalue1 hstores
  have hint1 : isointeger s.mem c₁ = true → right = .value (.int (ointBits s.mem c₁)) :=
    fun hi => hvalue1 _ (numberOf_int hi)
  cases i with
  | addreg => exact harith .add "+" rfl rfl fun _ _ _ _ => rfl
  | subreg => exact harith .sub "-" rfl rfl fun _ _ _ _ => rfl
  | mulreg => exact harith .mul "*" rfl rfl fun _ _ _ _ => rfl
  | idivreg =>
    obtain ⟨res, hres, hstores⟩ := divproc_stores machineDiv "//" hleft hright h₁ h₂
    refine ⟨res, _, h₁, h₂, hres, hwhole, ?_⟩
    rw [divproc_meets_iff rfl hint1 hstores (wholeQuotient_both ?_ ?_)]
    · constructor
      · intro h hi1 y hy
        have hy' := h y hy
        rw [hi1] at hy'
        exact ⟨hy'.1, fun x hx => (machineDiv_comm_iff hy'.1).mp (hy'.2 x hx)⟩
      · intro h y hy
        split
        next => exact fun _ _ _ _ => rfl
        next hi1 =>
          obtain ⟨hne, hx⟩ := h (Bool.eq_false_iff.mpr hi1) y hy
          exact ⟨hne, fun x hl => (machineDiv_comm_iff hne).mpr (hx x hl)⟩
    · intro x y v
      show EvalResult.ofInt (machineDiv x y) = .value v ↔ _
      cases machineDiv x y with
      | none => exact iff_of_false nofun fun ⟨q, hq, _⟩ => nomatch hq
      | some q =>
        constructor
        · intro h
          exact ⟨q, rfl, (EvalResult.value.inj h).symm⟩
        · rintro ⟨q', hq, rfl⟩
          rw [Option.some.inj hq]
          rfl
    · intro x y v hv
      cases x with
      | int x =>
        cases y with
        | int y => exact ⟨x, y, rfl, rfl⟩
        | flt y => cases hv
      | flt x => cases hv
  | fdivreg =>
    obtain ⟨res, hres, hstores⟩ :=
      divproc_stores (fun a b => some (floorDiv fl a b)) "div" hleft hright h₁ h₂
    refine ⟨res, _, h₁, h₂, hres, hwhole, ?_⟩
    apply divproc_meets_iff rfl hint1 hstores (wholeQuotient_both ?_ ?_)
    · intro x y v
      constructor
      · intro h
        exact ⟨_, rfl, (EvalResult.value.inj h).symm⟩
      · rintro ⟨q, hq, rfl⟩
        rw [← Option.some.inj hq]
        rfl
    · intro x y v hv
      cases x with
      | int x =>
        cases y with
        | int y => exact ⟨x, y, rfl, rfl⟩
        | flt y => cases hv
      | flt x => cases hv

/-- The expressions `5 - (2 + 1)` and `5 + (2 + 1)`. -/
def sampleMem (name : CString) (a : Nat) : Cell :=
  ([.functor ⟨name, 2, none⟩, .int 5, .cs 3, .functor ⟨ArithInstr.addreg.name, 2, none⟩, .int 2,
    .int 1][a]?).getD (.int 0)

def sampleStacks (i : ArithInstr) : Stacks := ⟨sampleMem i.name, 6, []⟩

/-- A sum with an expression on its right is stored. -/
theorem addreg_expression : ∃ res, ArithInstr.addreg.run .ieee (fun _ => 0) 3
    (sampleStacks .addreg) (.cs 3) (.int 5) = some res ∧ res.Stores (.int 8) := by
  have hpsc : (sampleStacks .addreg).mem 0 = .functor ⟨ArithInstr.addreg.name, 2, none⟩ := rfl
  have hleft : xsbEval .ieee (sampleStacks .addreg).mem 3 ((sampleStacks .addreg).mem (0 + 1)) =
      some (.value (.int 5)) := rfl
  have hright : xsbEval .ieee (sampleStacks .addreg).mem 3 ((sampleStacks .addreg).mem (0 + 2)) =
      some (.value (.int 3)) := rfl
  obtain ⟨c₁, c₂, res, whole, h₁, -, hrun, hwhole, hiff⟩ :=
    instr_meets_iff (fun _ => 0) .addreg hpsc hleft hright
  refine ⟨res, hrun, (hiff.mpr ?_ (.int 8)).mpr ?_⟩
  · rintro x y hx hy
    cases hx
    cases hy
    cases h₁
    exact ⟨fun _ => nofun, nofun⟩
  · exact Option.some.inj (hwhole.symm.trans rfl)

/-- A difference with an expression on its right is not. -/
theorem subreg_exchanged : ¬ ∀ (i : ArithInstr) (s : Stacks) (n a : Nat) (res : InstrResult)
    (right whole : EvalResult), s.mem a = .functor ⟨i.name, 2, none⟩ →
      xsbEval .ieee s.mem n (s.mem (a + 2)) = some right →
      i.run .ieee (fun _ => 0) n s (s.mem (a + 2)) (s.mem (a + 1)) = some res →
      xsbEval .ieee s.mem (n + 1) (.cs a) = some whole → i.Meets res right whole := by
  intro h
  have hmeets := h .subreg (sampleStacks .subreg) 3 0 (.stored (sampleStacks .subreg) (.int (-2)))
    (.value (.int 3)) (.value (.int 2)) rfl rfl rfl rfl
  have hstored := (hmeets (.int 2)).mpr rfl
  obtain ⟨s, c, heq, hnumber⟩ := hstored
  cases heq
  cases hnumber

end Main

end XSBEngine.Arith
