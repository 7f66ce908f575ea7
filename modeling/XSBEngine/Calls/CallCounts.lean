import XSBEngine.Calls.CallMemory

/-!
# The counts of a call

The counts in the answer template are those of the attributed variables that can be reached outside
the abstracted subterms, and of these subterms.
-/

namespace XSBEngine.Calls

open Library List Terms.Machine XSBEngine.Terms XSBEngine.Tries

variable {k : Settings} {m₀ : Terms.Machine} {args : List Addr} {s s' : CallSearch} {A : List Addr}
  {R : Set Addr} {c c' r r0 : Cell} {ws : List Cell} {S : Seen} {arg : Addr} {n i fuel : Nat}
  {second : Bool}

/-! ### One cell -/

/-- A search that has overwritten the cells of `A` and knows the attributed variables of `R`, with
the cells `ws` of the call to be read. -/
structure Reading (k : Settings) (m₀ : Terms.Machine) (args : List Addr) (s : CallSearch)
    (A : List Addr) (R : Set Addr) (ws : List Cell) : Prop where
  sim : Sim k m₀ args s.machine A R
  ctr_le : s.ctr ≤ s.machine.numTrievars
  stands : List.Forall₂ (Stands k m₀ args s.machine A) s.pdl ws
  occurs : ∀ c ∈ ws, Occurs k m₀.mem args c
  same : s.canAbstract → s.pdl = ws
  attvs : R.encard = s.attvCtr
  cuts : s.absStk.length = A.length
  factor : s.subsFact.length = s.ctr
  factorAttvs : s.subsFact.countP isAttv = s.attvCtr

/-- What `add` leaves alone, and what it does to the cells to be read. -/
structure Added (k : Settings) (m₀ : Terms.Machine) (args : List Addr) (s s' : CallSearch)
    (A : List Addr) (R : Set Addr) (c : Cell) (ws : List Cell) (R' : Set Addr) (ws' : List Cell) :
    Prop where
  reading : Reading k m₀ args s' A R' ws'
  advances : Advances k m₀.mem A R c ws R' ws'
  canAbstract : s'.canAbstract → s.canAbstract ∧ R' = R
  args : s'.args = s.args
  sizeCtr : s'.sizeCtr = s.sizeCtr
  second : s'.secondCheckingPhase = s.secondCheckingPhase

theorem forall₂_mono {m m' : Terms.Machine} {cs cs' : List Cell}
    (h : List.Forall₂ (Stands k m₀ args m A) cs cs') (hused : ∀ a, m.Used a → m'.Used a) :
    List.Forall₂ (Stands k m₀ args m' A) cs cs' :=
  h.imp fun _ _ hc => hc.mono hused

/-- What a step leaves of the cells that are still to be read. -/
theorem Reading.push (h : Reading k m₀ args s A R ws) {push push' : List Cell}
    (hstands : List.Forall₂ (Stands k m₀ args s.machine A) push push') :
    List.Forall₂ (Stands k m₀ args s.machine A) (push ++ s.pdl) (push' ++ ws) :=
  rel_append hstands h.stands

theorem stands_refl {m : Terms.Machine} {cs : List Cell} (h : ∀ c ∈ cs, Occurs k m₀.mem args c) :
    List.Forall₂ (Stands k m₀ args m A) cs cs := by
  rw [forall₂_same]
  exact fun c hc => .same (h c hc)

section

variable (h : Reading k m₀ args s A R ws)
include h

/-- What is below a compound term is as when the call was made. -/
theorem Reading.visit_compound (hcall : Callable k m₀ args)
    (hocc : Occurs k m₀.mem args r) (hr : r.isCompound) {v : Visit}
    (hv : visit k.arity false true s.machine s.ctr r = some v) :
    v.machine = s.machine ∧ v.ctr = s.ctr ∧
      (if r.isCompound && k.interned r then [] else v.push) = children k m₀.mem r := by
  cases r with
  | list a =>
    obtain rfl := Option.some.inj hv
    exact ⟨rfl, rfl, rfl⟩
  | struct a =>
    have hfunctor := h.sim.functor (hcall.struct a hocc)
    rw [visit] at hv
    split at hv
    next psc hm =>
      obtain rfl := Option.some.inj hv
      refine ⟨rfl, rfl, ?_⟩
      rw [children, (hfunctor psc).mp hm]
      rfl
    next => cases hv
  | _ => cases hr

/-- A compound term. -/
theorem Reading.addCompound (hcall : Callable k m₀ args)
    (hsees : Sees m₀.mem A c r) (hocc : Occurs k m₀.mem args r) (hr : r.isCompound)
    (hadd : s.add k r = .ok s') :
    Added k m₀ args s s' A R c ws R (children k m₀.mem r ++ ws) := by
  have hchildren : ∀ c ∈ children k m₀.mem r, Occurs k m₀.mem args c := fun c hc => hocc.child hc
  have hattv : isAttv r = false := by
    cases r with
    | attv a => cases hr
    | _ => rfl
  rw [CallSearch.add] at hadd
  split at hadd
  next => cases hadd
  next v hv =>
    obtain ⟨hm, hctr, hpush⟩ := h.visit_compound hcall hocc hr hv
    obtain rfl := Except.ok.inj hadd
    refine ⟨?_, .compound hsees hr, ?_, rfl, rfl, rfl⟩
    · constructor
      case sim => exact hm ▸ h.sim
      case ctr_le => exact hm ▸ hctr ▸ h.ctr_le
      case stands =>
        simp only [hpush, hm]
        exact h.push (stands_refl hchildren)
      case occurs =>
        intro c' hc'
        rcases mem_append.mp hc' with hc' | hc'
        · exact hchildren c' hc'
        · exact h.occurs c' hc'
      case same =>
        intro hcan
        simp only [hattv, Bool.not_false, Bool.and_true] at hcan
        simp only [hpush, h.same hcan]
      case attvs =>
        simp only [hattv]
        exact h.attvs
      case cuts => exact h.cuts
      case factor =>
        simp only [hctr]
        exact h.factor
      case factorAttvs =>
        simp only [hctr, hattv]
        exact h.factorAttvs
    · intro hcan
      simp only [hattv, Bool.not_false, Bool.and_true] at hcan
      exact ⟨hcan, rfl⟩

/-- A constant. -/
theorem Reading.addConst {tag : ConstTag} {val : Nat}
    (hsees : Sees m₀.mem A c (.const tag val)) (hadd : s.add k (.const tag val) = .ok s') :
    Added k m₀ args s s' A R c ws R ws := by
  obtain rfl := Except.ok.inj hadd
  refine ⟨?_, .skip hsees rfl fun _ => Cell.noConfusion, fun hcan => ⟨?_, rfl⟩, rfl, rfl, rfl⟩
  · refine ⟨h.sim, h.ctr_le, h.stands, h.occurs, fun hcan => h.same ?_, h.attvs, h.cuts, ?_, ?_⟩
    · simpa [isAttv] using hcan
    · simpa using h.factor
    · simpa [isAttv] using h.factorAttvs
  · simpa [isAttv] using hcan

/-- A variable, also an attributed one that is known. -/
theorem Reading.addVar (hcall : Callable k m₀ args) {b : Addr}
    (hsees : Sees m₀.mem A c r0) (hshows : Shows k m₀ args s.machine R (.ref b) r0)
    (hadd : s.add k (.ref b) = .ok s') : Added k m₀ args s s' A R c ws R ws := by
  have hadvances : Advances k m₀.mem A R c ws R ws := by
    refine .skip hsees ?_ ?_
    · cases hshows with
      | var _ _ _ | bound _ _ | known _ _ _ => rfl
    · rintro x rfl
      cases hshows with
      | known _ _ hx => exact hx
  rw [CallSearch.add, visit] at hadd
  split at hadd
  next => cases hadd
  next v hv =>
    split at hv
    next hstd =>
      obtain rfl := Option.some.inj hv
      obtain rfl := Except.ok.inj hadd
      refine ⟨?_, hadvances, fun hcan => ⟨by simpa [isAttv] using hcan, rfl⟩, rfl, rfl, rfl⟩
      refine ⟨h.sim, h.ctr_le, h.stands, h.occurs, fun hcan ↦ h.same (by simpa [isAttv] using hcan),
        h.attvs, h.cuts, ?_, ?_⟩
      · simpa using h.factor
      · simpa [isAttv] using h.factorAttvs
    next hstd =>
      obtain rfl := Option.some.inj hv
      obtain rfl := Except.ok.inj hadd
      have hplain := hshows.plain
      obtain ⟨hsim, hctr, hused⟩ := h.sim.standardizeVariable R hcall h.ctr_le
        (hplain.used h.sim hcall) (Bool.not_eq_true _ ▸ hstd) hplain.old (hplain.attv hcall)
      refine ⟨?_, hadvances, fun hcan => ⟨by simpa [isAttv] using hcan, rfl⟩, rfl, rfl, rfl⟩
      refine ⟨hsim.trail _, hctr, forall₂_mono h.stands hused, h.occurs,
        fun hcan => h.same (by simpa [isAttv] using hcan), h.attvs, h.cuts, ?_, ?_⟩
      · simp [h.factor]
      · simp [h.factorAttvs, isAttv]

/-- An attributed variable that is new. -/
theorem Reading.addAttv (hcall : Callable k m₀ args) {x : Addr}
    (hsees : Sees m₀.mem A c (.attv x)) (hocc : Occurs k m₀.mem args (.attv x)) (hx : x ∉ R)
    (hadd : s.add k (.attv x) = .ok s') :
    Added k m₀ args s s' A R c ws (insert x R) (.ref (x.plus 1) :: ws) := by
  have hself0 := hsees.attv_free
  have hold := hcall.attv x hocc
  have hchild : Occurs k m₀.mem args (.ref (x.plus 1)) := by
    refine hocc.child ?_
    rw [children, if_pos hself0]
    exact mem_singleton_self _
  obtain ⟨hsim, hctr, hused⟩ := h.sim.standardizeVariable (insert x R) hcall h.ctr_le
    (h.sim.used x hold.1) (h.sim.not_standardized hold) (fun _ => hself0)
    (fun y _ _ => by rw [Set.mem_insert_iff, or_comm])
  obtain rfl := Except.ok.inj hadd
  refine ⟨?_, .attv hsees hx, fun hcan => ?_, rfl, rfl, rfl⟩
  · constructor
    case sim => exact hsim.trail _
    case ctr_le => exact hctr
    case stands =>
      refine .cons ?_ (forall₂_mono h.stands hused)
      exact (hsim.stands_mem hcall hchild).mono fun a ha => ha
    case occurs =>
      intro c' hc'
      rcases mem_cons.mp hc' with rfl | hc'
      · exact hchild
      · exact h.occurs c' hc'
    case same => exact fun hcan => by simp [isAttv] at hcan
    case attvs =>
      show (insert x R).encard = ((s.attvCtr + 1 : Nat) : ℕ∞)
      rw [Set.encard_insert_of_notMem hx, h.attvs]
      rfl
    case cuts => exact h.cuts
    case factor => simp [h.factor]
    case factorAttvs => simp [countP_cons, h.factorAttvs, isAttv]
  · simp [isAttv] at hcan

/-- A cell that is not checked. -/
theorem Reading.add (hcall : Callable k m₀ args)
    (hsees : Sees m₀.mem A c r0) (hshows : Shows k m₀ args s.machine R r r0)
    (hadd : s.add k r = .ok s') : ∃ R' ws', Added k m₀ args s s' A R c ws R' ws' := by
  cases hshows with
  | const tag val => exact ⟨_, _, h.addConst hsees hadd⟩
  | list a hocc | struct a hocc => exact ⟨_, _, h.addCompound hcall hsees hocc rfl hadd⟩
  | attv hocc _ hx => exact ⟨_, _, h.addAttv hcall hsees hocc hx hadd⟩
  | var ha hself0 hself => exact ⟨_, _, h.addVar hcall hsees (.var ha hself0 hself) hadd⟩
  | bound hb hself => exact ⟨_, _, h.addVar hcall hsees (.bound hb hself) hadd⟩
  | known hb hself hx => exact ⟨_, _, h.addVar hcall hsees (.known hb hself hx) hadd⟩

end

/-! ### The size counter -/

/-- What the check of a compound term makes of the phase and of the counter. -/
def Settings.tick (k : Settings) : Bool × Option Nat → Bool × Option Nat
  | (second, ctr) =>
    if CallSearch.decrement ctr = some 0 ∧ second = false ∧
        k.cyclicCheckSize < k.predSubgoalSizeLimit then
      (true, some (k.predSubgoalSizeLimit - k.cyclicCheckSize))
    else (second, CallSearch.decrement ctr)

/-- The phase and the counter after some compound terms of an argument. -/
def Settings.counter (k : Settings) (second : Bool) : Nat → Bool × Option Nat
  | 0 => (second, some (if k.cyclicCheckSize < k.predSubgoalSizeLimit then k.cyclicCheckSize
      else k.predSubgoalSizeLimit))
  | n + 1 => k.tick (k.counter second n)

/-- A counter after some decrements. -/
def down (start n : Nat) : Option Nat := if n ≤ start then some (start - n) else none

theorem decrement_down (start n : Nat) : CallSearch.decrement (down start n) = down start
    (n + 1) := by
  rcases Nat.lt_trichotomy n start with hlt | rfl | hgt
  · rw [down, down, if_pos hlt.le, if_pos (by omega), show start - n = start - (n + 1) + 1 by omega]
    rfl
  · rw [down, down, if_pos le_rfl, if_neg (by omega), Nat.sub_self]
    rfl
  · rw [down, down, if_neg (by omega), if_neg (by omega)]
    rfl

theorem down_eq_zero (start n : Nat) : down start n = some 0 ↔ n = start := by
  rw [down]
  split
  next => rw [Option.some.injEq]; omega
  next => simp only [reduceCtorEq, false_iff]; omega

/-- A counter that is not reset comes to 0 once. -/
theorem counter_down (start : Nat) (k : Settings) (second : Bool)
    (hstart : (k.counter second 0).2 = some start)
    (hreset : second = true ∨ k.predSubgoalSizeLimit ≤ k.cyclicCheckSize) (n : Nat) :
    k.counter second n = (second, down start n) := by
  induction n with
  | zero => exact Prod.ext rfl hstart
  | succ n ih =>
    rw [Settings.counter, ih, Settings.tick, if_neg, decrement_down]
    rintro ⟨-, hfalse, hlt⟩
    rcases hreset with htrue | hle
    · rw [htrue] at hfalse
      cases hfalse
    · omega

/-- The counter when the cyclic check is still to be made. -/
theorem counter_first (k : Settings) (hlt : k.cyclicCheckSize < k.predSubgoalSizeLimit) (n : Nat) :
    k.counter false n =
      if k.cyclicCheckSize = 0 ∨ n < k.cyclicCheckSize then (false, down k.cyclicCheckSize n)
      else (true, down k.predSubgoalSizeLimit n) := by
  have hzero : k.counter false 0 = (false, down k.cyclicCheckSize 0) := by
    rw [Settings.counter, if_pos hlt]
    rfl
  induction n with
  | zero =>
    rw [hzero, if_pos]
    omega
  | succ n ih =>
    rw [Settings.counter, ih]
    by_cases hn : k.cyclicCheckSize = 0 ∨ n < k.cyclicCheckSize
    · rw [if_pos hn, Settings.tick, decrement_down]
      have hiff := down_eq_zero k.cyclicCheckSize (n + 1)
      by_cases hn' : k.cyclicCheckSize = 0 ∨ n + 1 < k.cyclicCheckSize
      · rw [if_pos hn', if_neg]
        rintro ⟨hdown, -⟩
        have heq := hiff.mp hdown
        omega
      · rw [if_neg hn', if_pos ⟨hiff.mpr (by omega), rfl, hlt⟩, down, if_pos (by omega)]
        congr 3
        omega
    · rw [if_neg hn, Settings.tick, if_neg, if_neg (by omega), decrement_down]
      rintro ⟨-, hfalse, -⟩
      cases hfalse

/-- When the counter comes to 0, and when the cyclic check has been made. -/
theorem counter_spec (k : Settings) (second : Bool) (n : Nat) :
    (0 < n → ((k.counter second n).2 = some 0 ↔ n = k.limitAt second)) ∧
      ((k.counter second n).1 = true ↔ second = true ∨ 0 < k.cyclicCheckSize ∧
        k.cyclicCheckSize < k.predSubgoalSizeLimit ∧ k.cyclicCheckSize ≤ n) := by
  rw [Settings.limitAt]
  by_cases hlt : k.cyclicCheckSize < k.predSubgoalSizeLimit
  · cases second with
    | false =>
      rw [counter_first k hlt n]
      by_cases hn : k.cyclicCheckSize = 0 ∨ n < k.cyclicCheckSize
      · rw [if_pos hn, down_eq_zero]
        constructor
        · intro hpos
          split
          next => omega
          next =>
            rw [if_pos (Or.inl rfl)]
            omega
        · simp only [Bool.false_eq_true, false_or, false_iff]
          omega
      · rw [if_neg hn, down_eq_zero, if_neg (by omega), if_pos (Or.inl rfl)]
        refine ⟨fun _ => Iff.rfl, ?_⟩
        simp only [Bool.false_eq_true, false_or, true_iff]
        omega
    | true =>
      rw [counter_down k.cyclicCheckSize k true (by rw [Settings.counter, if_pos hlt])
        (Or.inl rfl) n, down_eq_zero]
      refine ⟨fun hpos => ?_, by simp⟩
      split
      next => omega
      next =>
        rw [if_neg]
        rintro (hfalse | hle)
        · cases hfalse
        · omega
  · rw [counter_down k.predSubgoalSizeLimit k second
      (by rw [Settings.counter, if_neg hlt]) (Or.inr (by omega)) n, down_eq_zero]
    constructor
    · intro hpos
      split
      next => omega
      next => rw [if_pos (Or.inr (by omega))]
    · simp [hlt]

/-! ### Arguments -/

/-- The checks of a compound term, and what follows from them. -/
theorem checkSubgoalSize_ok {nonderef cell : Cell}
    (h : s.checkSubgoalSize k nonderef cell = .ok s') :
    ∃ t, t = k.tick (s.secondCheckingPhase, s.sizeCtr) ∧
      if t.2 = some 0 then
        { s with secondCheckingPhase := t.1, sizeCtr := t.2 }.handleSubgoalSize k nonderef
          cell = .ok s'
      else { s with secondCheckingPhase := t.1, sizeCtr := t.2 }.add k cell = .ok s' := by
  refine ⟨_, rfl, ?_⟩
  rw [CallSearch.checkSubgoalSize] at h
  dsimp only at h
  by_cases hzero : CallSearch.decrement s.sizeCtr = some 0
  · rw [if_pos hzero, CallSearch.subgoalCyclicTermCheck] at h
    dsimp only at h
    by_cases hfirst : s.secondCheckingPhase = false ∧ k.cyclicCheckSize < k.predSubgoalSizeLimit
    · rw [if_pos hfirst] at h
      have htick : k.tick (s.secondCheckingPhase, s.sizeCtr) =
          (true, some (k.predSubgoalSizeLimit - k.cyclicCheckSize)) := by
        rw [Settings.tick, if_pos ⟨hzero, hfirst⟩]
      rw [htick]
      split at h
      next => cases h
      next =>
        have hne : k.predSubgoalSizeLimit - k.cyclicCheckSize ≠ 0 := by omega
        rw [hzero] at h
        simpa [bind, Except.bind, hne] using h
    · rw [if_neg hfirst] at h
      have htick : k.tick (s.secondCheckingPhase, s.sizeCtr) =
          (s.secondCheckingPhase, CallSearch.decrement s.sizeCtr) := by
        rw [Settings.tick, if_neg fun hall => hfirst hall.2]
      rw [htick, if_pos hzero]
      simpa [bind, Except.bind, hzero] using h
  · rw [if_neg hzero] at h
    have htick : k.tick (s.secondCheckingPhase, s.sizeCtr) =
        (s.secondCheckingPhase, CallSearch.decrement s.sizeCtr) := by
      rw [Settings.tick, if_neg fun hall => hzero hall.1]
    rw [htick, if_neg hzero]
    simpa [bind, Except.bind, hzero] using h

/-- A subterm that exceeds the limit is abstracted, where this is asked for. -/
theorem handleSubgoalSize_ok {nonderef cell : Cell}
    (h : s.handleSubgoalSize k nonderef cell = .ok s') :
    (k.Abstracts ∧ s.canAbstract = true ∧ ∃ a, nonderef = .ref a ∧
      s' = s.applySubgoalSizeAbstraction a cell) ∨ ¬ k.Abstracts ∧ s.add k cell = .ok s' := by
  unfold CallSearch.handleSubgoalSize at h
  by_cases hall : k.action = .abstract ∧ s.canAbstract ∧ !k.tnotCall
  · rw [if_pos hall] at h
    obtain ⟨haction, hcan, htnot⟩ := hall
    refine Or.inl ⟨⟨haction, by simpa using htnot⟩, hcan, ?_⟩
    cases nonderef with
    | ref a => exact ⟨a, rfl, (Except.ok.inj h).symm⟩
    | _ => cases h
  · rw [if_neg hall] at h
    split at h
    next => cases h
    next =>
      split at h
      next hsuspend =>
        refine Or.inr ⟨?_, h⟩
        rintro ⟨haction, -⟩
        rw [haction] at hsuspend
        cases hsuspend
      next => cases h

/-- Nothing has been abstracted in the argument. -/
structure Pre (k : Settings) (mem : Memory) (S : Seen) (arg : Addr) (s : CallSearch)
    (A : List Addr) (R : Set Addr) (ws : List Cell) : Prop where
  cuts : A = S.cuts
  fresh : s.canAbstract → R = S.attvs
  explores : Explores k mem A S.attvs [.ref arg] R ws
  progress : ∃ R₁ ws₁ n, Opens k mem S arg R₁ ws₁ ∧
    (∀ i R' d rest, 0 < i → (Nth k mem A i R ws R' d rest ↔ Nth k mem A (n + i) R₁ ws₁ R' d rest)) ∧
    (∀ i, 0 < i → i ≤ n → ∃ R' d rest, Nth k mem A i R₁ ws₁ R' d rest) ∧
    (k.Abstracts → k.limitAt S.second = 0 ∨ n < k.limitAt S.second) ∧
    (s.secondCheckingPhase, s.sizeCtr) = k.counter S.second n

/-- A subterm of the argument has been abstracted. -/
structure Post (k : Settings) (mem : Memory) (S : Seen) (arg : Addr) (s : CallSearch)
    (A : List Addr) (R : Set Addr) (ws : List Cell) : Prop where
  exceeds : ∃ a rest, Exceeds k mem S arg a rest ∧ A = a :: S.cuts ∧
    Explores k mem A S.attvs rest R ws
  second : s.secondCheckingPhase = true ↔ S.second = true ∨ Checks k mem S arg
  sizeCtr : s.sizeCtr = some 0 ∨ s.sizeCtr = none

variable {R' : Set Addr} {ws' : List Cell} {t : Bool × Option Nat}

/-- A step in an argument in which nothing has been abstracted, other than at a compound term. -/
theorem Pre.advance (h : Pre k m₀.mem S arg s A R (c :: ws))
    (hadd : Added k m₀ args s s' A R c ws R' ws') (hsees : Sees m₀.mem A c r)
    (hr : r.isCompound = false) : Pre k m₀.mem S arg s' A R' ws' := by
  obtain ⟨R1, ws1, n, hopens, hnth, hmet, hlimit, hcounter⟩ := h.progress
  refine ⟨h.cuts, fun hcan => ?_, h.explores.advance hadd.advances, R1, ws1, n, hopens,
    fun i R' d rest hi => ?_, hmet, hlimit, ?_⟩
  · obtain ⟨hcan', rfl⟩ := hadd.canAbstract hcan
    exact h.fresh hcan'
  · rw [hadd.advances.nth_iff hsees hr]
    exact hnth i R' d rest hi
  · rw [hadd.second, hadd.sizeCtr]
    exact hcounter

theorem Advances.of_compound
    (h : Advances k m₀.mem A R c ws R' ws') (hsees : Sees m₀.mem A c r) (hr : r.isCompound) :
    R' = R ∧ ws' = children k m₀.mem r ++ ws := by
  obtain ⟨rfl, rfl⟩ := h.unique (.compound hsees hr)
  exact ⟨rfl, rfl⟩

/-- A compound term of such an argument that is not abstracted. -/
theorem Pre.compound (h : Pre k m₀.mem S arg s A R (c :: ws))
    (ht : t = k.tick (s.secondCheckingPhase, s.sizeCtr))
    (hadd : Added k m₀ args { s with secondCheckingPhase := t.1, sizeCtr := t.2 } s' A R c ws R'
    ws')
    (hsees : Sees m₀.mem A c r) (hr : r.isCompound) (hnot : k.Abstracts → t.2 ≠ some 0) :
    Pre k m₀.mem S arg s' A R' ws' := by
  obtain ⟨R1, ws1, n, hopens, hnth, hmet, hlimit, hcounter⟩ := h.progress
  obtain ⟨rfl, rfl⟩ := hadd.advances.of_compound hsees hr
  have htick : t = k.counter S.second (n + 1) := by
    rw [ht, hcounter]
    rfl
  refine ⟨h.cuts, fun hcan => h.fresh (hadd.canAbstract hcan).1, h.explores.advance hadd.advances,
    R1, ws1, n + 1, hopens, fun i R' d rest hi => ?_, fun i hi hle => ?_, fun habstracts => ?_, ?_⟩
  · rw [nth_compound_iff hsees hr hi, hnth (i + 1) R' d rest (Nat.succ_pos i)]
    rw [show n + (i + 1) = n + 1 + i by omega]
  · rcases Nat.lt_or_eq_of_le hle with hlt | rfl
    · exact hmet i hi (Nat.le_of_lt_succ hlt)
    · exact ⟨_, _, _, (hnth 1 _ _ _ Nat.one_pos).mp (.here hsees hr)⟩
  · have hne := hnot habstracts
    rw [htick, Ne, (counter_spec k S.second (n + 1)).1 (Nat.succ_pos n)] at hne
    rcases hlimit habstracts with hzero | hlt
    · exact Or.inl hzero
    · right
      omega
  · rw [hadd.second, hadd.sizeCtr]
    exact htick

/-- A step in an argument in which a subterm has been abstracted. -/
theorem Post.advance {s1 : CallSearch}
    (h : Post k m₀.mem S arg s A R (c :: ws)) (hadd : Added k m₀ args s1 s' A R c ws R' ws')
    (hsecond : s1.secondCheckingPhase = s.secondCheckingPhase)
    (hsize : s1.sizeCtr = some 0 ∨ s1.sizeCtr = none) : Post k m₀.mem S arg s' A R' ws' := by
  obtain ⟨a, rest, hexceeds, hA, hexplores⟩ := h.exceeds
  refine ⟨⟨a, rest, hexceeds, hA, hexplores.advance hadd.advances⟩, ?_, ?_⟩
  · rw [hadd.second, hsecond]
    exact h.second
  · rw [hadd.sizeCtr]
    exact hsize

/-- The phase after some compound terms tells whether the cyclic check was made. -/
theorem checks_iff {R1 : Set Addr} {ws1 : List Cell} (hopens : Opens k m₀.mem S arg R1 ws1)
    (hmet : ∀ i, 0 < i → i ≤ n → ∃ R' d rest, Nth k m₀.mem S.cuts i R1 ws1 R' d rest)
    (hlast : ∀ R' d rest, Nth k m₀.mem S.cuts k.cyclicCheckSize R1 ws1 R' d rest →
      S.second = true ∨ k.predSubgoalSizeLimit ≤ k.cyclicCheckSize ∨ k.cyclicCheckSize ≤ n) :
    (k.counter S.second n).1 = true ↔ S.second = true ∨ Checks k m₀.mem S arg := by
  rw [(counter_spec k S.second n).2]
  constructor
  case mp =>
    rintro (hsecond | ⟨hpos, hlt, hle⟩)
    · exact Or.inl hsecond
    · obtain ⟨R', d, rest, hnth⟩ := hmet k.cyclicCheckSize hpos hle
      exact Or.inr ⟨hlt, R1, ws1, R', d, rest, hopens, hnth⟩
  case mpr =>
    rintro (hsecond | ⟨hlt, R', ws', R'', d, rest, hopens', hnth⟩)
    · exact Or.inl hsecond
    · obtain ⟨rfl, rfl⟩ := Advances.unique hopens hopens'
      rcases hlast _ _ _ hnth with hsecond | hle | hle
      · exact Or.inl hsecond
      · omega
      · exact Or.inr ⟨hnth.pos, hlt, hle⟩

/-- The end of an argument in which nothing has been abstracted. -/
theorem Pre.done (h : Pre k m₀.mem S arg s A R []) :
    ∃ T, ReadsArg k m₀.mem S arg T ∧ T.second = s.secondCheckingPhase ∧ T.cuts = A ∧ T.attvs = R ∧
      Closed k m₀.mem T.cuts T.attvs := by
  obtain ⟨R1, ws1, n, hopens, hnth, hmet, hlimit, hcounter⟩ := h.progress
  have hcuts := h.cuts
  subst hcuts
  obtain ⟨hR, hclosed⟩ := h.explores.done
  -- there are no more compound terms
  have hend : ∀ i R' d rest, Nth k m₀.mem S.cuts i R1 ws1 R' d rest → i ≤ n := by
    intro i R' d rest hi
    by_contra hgt
    rw [show i = n + (i - n) by omega, ← hnth (i - n) R' d rest (by omega)] at hi
    exact not_nth_nil hi
  have hR' : R = S.attvs ∪ {x | Reach k m₀.mem S.cuts (.ref arg) x} := by
    rw [hR]
    congr 1
    ext x
    simp
  refine ⟨_, @ReadsArg.whole k m₀.mem S arg s.secondCheckingPhase ⟨R1, ws1, hopens⟩ ?_ ?_,
    rfl, rfl, hR'.symm, ?_⟩
  · rintro a rest ⟨habstracts, ws', hopens', hnth'⟩
    obtain ⟨rfl, rfl⟩ := Advances.unique hopens hopens'
    have hle := hend _ _ _ _ hnth'
    have hpos := hnth'.pos
    rcases hlimit habstracts with hzero | hlt <;> omega
  · rw [show s.secondCheckingPhase = (k.counter S.second n).1 from congrArg Prod.fst hcounter]
    exact checks_iff hopens hmet fun R' d rest hi => Or.inr (Or.inr (hend _ _ _ _ hi))
  · show Closed k m₀.mem S.cuts (S.attvs ∪ {x | Reach k m₀.mem S.cuts (.ref arg) x})
    rw [← hR']
    exact hclosed

/-- The end of an argument in which a subterm has been abstracted. -/
theorem Post.done (h : Post k m₀.mem S arg s A R []) :
    ∃ T, ReadsArg k m₀.mem S arg T ∧ T.second = s.secondCheckingPhase ∧ T.cuts = A ∧ T.attvs = R ∧
      Closed k m₀.mem T.cuts T.attvs := by
  obtain ⟨a, rest, hexceeds, rfl, hexplores⟩ := h.exceeds
  obtain ⟨hR, hclosed⟩ := hexplores.done
  refine ⟨_, @ReadsArg.abstracted k m₀.mem S arg s.secondCheckingPhase a rest hexceeds h.second,
    rfl, rfl, hR.symm, ?_⟩
  rw [hR] at hclosed
  exact hclosed

/-- A subterm is abstracted. -/
theorem Reading.abstracted {a : Addr} (h : Reading k m₀ args s A R ws) (hcall : Callable k m₀ args)
    (ha : Occurs k m₀.mem args (.ref a)) (hsees : Sees m₀.mem A (.ref a) r) (hr : r.isCompound)
    (hcan : s.canAbstract = true) :
    Reading k m₀ args (s.applySubgoalSizeAbstraction a r) (a :: A) R ws := by
  have hold := hcall.ref a ha
  obtain ⟨hna, hne, hfunctor⟩ : a ∉ A ∧ m₀.mem a ≠ .ref a ∧ ∀ psc, m₀.mem a ≠ .functor psc := by
    cases hsees with
    | cut _ | var _ _ => cases hr
    | ref hna hne hsees =>
      refine ⟨hna, hne, fun psc hpsc => ?_⟩
      rw [hpsc] at hsees
      cases hsees
  obtain ⟨hheap, hnew, hused⟩ := h.sim.newHeapFree hcall
  have hcut := hheap.write (a :: A) R hcall hnew (hheap.not_standardized hold)
    (fun b hb => mem_cons_of_mem a hb)
    (fun b hb => (mem_cons.mp hb).symm) (fun _ => ⟨hold, hne, hfunctor⟩)
    (fun _ => Or.inl mem_cons_self) (fun x _ hself0 => ?_)
  · have hx : ∀ x, Occurs k m₀.mem args (.attv x) → m₀.mem x = .ref x →
        (x ∈ R ↔ x ∈ R ∨ x = ⟨.heap, s.machine.hreg⟩) := by
      intro x hx _
      have hne : x ≠ ⟨.heap, s.machine.hreg⟩ := by
        rintro rfl
        exact hnew.2 (hcall.attv _ hx)
      simp [hne]
    have hwritten : (s.machine.moveToHeap a).Used ⟨.heap, s.machine.hreg⟩ := hnew.1
    obtain ⟨hsim, hctr, -⟩ := hcut.standardizeVariable R hcall h.ctr_le hwritten
      (by simp [isStandardizedVariable]) (fun hold => absurd hold hnew.2) hx
    constructor
    case sim => exact hsim
    case ctr_le => exact hctr
    case stands =>
      show List.Forall₂ _ s.pdl ws
      rw [h.same hcan]
      exact stands_refl h.occurs
    case occurs => exact h.occurs
    case same => exact h.same
    case attvs => exact h.attvs
    case cuts => exact congrArg (· + 1) h.cuts
    case factor => exact congrArg (· + 1) h.factor
    case factorAttvs =>
      show (Cell.ref _ :: s.subsFact).countP isAttv = s.attvCtr
      rw [countP_cons_of_neg (by simp [isAttv])]
      exact h.factorAttvs
  · have hxa : x ≠ a := by
      rintro rfl
      exact hne hself0
    simp [hxa]

/-! ### Runs -/

/-- A search that stands before an argument. -/
structure Between (k : Settings) (m₀ : Terms.Machine) (args : List Addr) (s : CallSearch)
    (S : Seen) : Prop where
  pdl : s.pdl = []
  reading : Reading k m₀ args s S.cuts S.attvs []
  second : s.secondCheckingPhase = S.second
  closed : Closed k m₀.mem S.cuts S.attvs
  rest : ∀ T, ReadsArgs k m₀.mem S s.args T → ReadsArgs k m₀.mem .start args T
  args : ∀ a ∈ s.args, a ∈ args

/-- A search that stands in an argument. -/
structure Within (k : Settings) (m₀ : Terms.Machine) (args : List Addr) (s : CallSearch) (S : Seen)
    (arg : Addr) (A : List Addr) (R : Set Addr) (ws : List Cell) : Prop where
  reading : Reading k m₀ args s A R ws
  phase : Pre k m₀.mem S arg s A R ws ∨ Post k m₀.mem S arg s A R ws
  closed : Closed k m₀.mem S.cuts S.attvs
  rest : ∀ T U, ReadsArg k m₀.mem S arg T → ReadsArgs k m₀.mem T s.args U →
    ReadsArgs k m₀.mem .start args U
  args : ∀ a ∈ s.args, a ∈ args

/-- An argument has been read. -/
theorem Within.done {A : List Addr} {R : Set Addr} {ws : List Cell}
    (h : Within k m₀ args s S arg A R ws) (hs : s.pdl = []) : ∃ T, Between k m₀ args s T := by
  have hstands := h.reading.stands
  rw [hs, forall₂_nil_left_iff] at hstands
  subst hstands
  obtain ⟨T, hreads, hsecond, rfl, rfl, hclosed⟩ : ∃ T, ReadsArg k m₀.mem S arg T ∧
      T.second = s.secondCheckingPhase ∧ T.cuts = A ∧ T.attvs = R ∧
      Closed k m₀.mem T.cuts T.attvs := h.phase.elim Pre.done Post.done
  exact ⟨T, hs, h.reading, hsecond.symm, hclosed, fun U hU => h.rest T U hreads hU, h.args⟩

/-- The cells below an argument. -/
theorem Between.callArg {rest : List Addr} (h : Between k m₀ args s S) (hcall : Callable k m₀ args)
    (hargs : s.args = arg :: rest)
    (hstep : { s with args := rest }.callArg k fuel arg = .ok s') :
    ∃ A R ws, Within k m₀ args s' S arg A R ws := by
  have hocc : Occurs k m₀.mem args (.ref arg) := by
    apply Occurs.arg
    apply h.args
    rw [hargs]
    exact mem_cons_self
  set s0 : CallSearch := { s with
    args := rest
    canAbstract := true
    sizeCtr := some (if k.cyclicCheckSize < k.predSubgoalSizeLimit then k.cyclicCheckSize
      else k.predSubgoalSizeLimit) }
  have h0 : Reading k m₀ args s0 S.cuts S.attvs [] :=
    ⟨h.reading.sim, h.reading.ctr_le, h.reading.stands, h.reading.occurs, fun _ => h.pdl,
      h.reading.attvs, h.reading.cuts, h.reading.factor, h.reading.factorAttvs⟩
  obtain ⟨s1, hs1, R, ws, hadd⟩ : ∃ s1 : CallSearch, (s1.canAbstract = true ∧ s1.args = rest ∧
      (s1.secondCheckingPhase, s1.sizeCtr) = k.counter S.second 0) ∧
      ∃ R ws, Added k m₀ args s1 s' S.cuts S.attvs (.ref arg) [] R ws := by
    have hcounter : (s0.secondCheckingPhase, s0.sizeCtr) = k.counter S.second 0 :=
      Prod.ext h.second rfl
    unfold CallSearch.callArg at hstep
    dsimp only at hstep
    cases hd : deref s0.machine.mem fuel (.ref arg) with
    | none =>
      rw [hd] at hstep
      cases hstep
    | some r =>
      obtain ⟨r0, hsees, hshows⟩ := h0.sim.deref_occurs hcall hocc hd
      rw [hd] at hstep
      by_cases hvar : ∃ a, r = .ref a
      · obtain ⟨a, rfl⟩ := hvar
        dsimp only at hstep
        split at hstep
        next => exact ⟨s0, ⟨rfl, rfl, hcounter⟩, h0.add hcall hsees hshows hstep⟩
        next hstd =>
          obtain ⟨hsim, hshows', hnum, hused⟩ :=
            h0.sim.globalize hcall (Bool.not_eq_true _ ▸ hstd) hshows
          have h1 : Reading k m₀ args
              { s0 with machine := (CallSearch.globalize s0.machine a).1 } S.cuts S.attvs [] :=
            ⟨hsim, hnum ▸ h0.ctr_le, forall₂_mono h0.stands hused, h0.occurs, h0.same, h0.attvs,
              h0.cuts, h0.factor, h0.factorAttvs⟩
          exact ⟨{ s0 with machine := (CallSearch.globalize s0.machine a).1 }, ⟨rfl, rfl, hcounter⟩,
            h1.add hcall hsees hshows' hstep⟩
      · have hstep' : s0.add k r = .ok s' := by
          cases r with
          | ref a => exact absurd ⟨a, rfl⟩ hvar
          | _ => exact hstep
        exact ⟨s0, ⟨rfl, rfl, hcounter⟩, h0.add hcall hsees hshows hstep'⟩
  obtain ⟨hcan, hrest, hcounter⟩ := hs1
  refine ⟨S.cuts, R, ws, hadd.reading, Or.inl ⟨rfl, fun hcan' => (hadd.canAbstract hcan').2,
    (h.closed.explores [.ref arg]).advance hadd.advances, R, ws, 0, hadd.advances,
    fun i R' d rest' _ ↦ by rw [Nat.zero_add], fun i hi hle ↦ by omega, fun _ ↦ ?_, ?_⟩, h.closed,
    fun T U hT hU => h.rest U ?_, fun a ha => h.args a ?_⟩
  · exact (Nat.eq_zero_or_pos _)
  · rw [hadd.second, hadd.sizeCtr]
    exact hcounter
  · rw [hargs]
    rw [hadd.args, hrest] at hU
    exact .cons hT hU
  · rw [hargs]
    rw [hadd.args, hrest] at ha
    exact mem_cons_of_mem arg ha

theorem Nth.subset {d : Cell} {rest : List Cell}
    (h : Nth k m₀.mem A n R ws R' d rest) : R ⊆ R' := by
  induction h with
  | here => exact subset_rfl
  | compound _ _ _ ih => exact ih
  | attv _ _ _ ih => exact (Set.subset_insert _ _).trans ih
  | skip _ _ _ _ ih => exact ih

theorem Advances.subset (h : Advances k m₀.mem A R c ws R' ws') :
    R ⊆ R' := by
  cases h with
  | compound _ _ => exact subset_rfl
  | attv _ _ => exact Set.subset_insert _ _
  | skip _ _ _ => exact subset_rfl

/-- A counter that has been 0 does not come back. -/
theorem tick_spent {ctr : Option Nat} (hctr : ctr = some 0 ∨ ctr = none)
    (ht : t = k.tick (second, ctr)) : t.1 = second ∧ t.2 = none := by
  have hdec : CallSearch.decrement ctr = none := by
    rcases hctr with rfl | rfl <;> rfl
  rw [ht, Settings.tick, hdec, if_neg]
  · exact ⟨rfl, rfl⟩
  · rintro ⟨hnone, -⟩
    cases hnone

/-- The subterm that is abstracted is the one that exceeds the limit. -/
theorem Pre.abstracted {a : Addr}
    (h : Pre k m₀.mem S arg s A R (.ref a :: ws)) (hsees : Sees m₀.mem A (.ref a) r)
    (hr : r.isCompound) (habstracts : k.Abstracts) (hcan : s.canAbstract = true)
    (ht : t = k.tick (s.secondCheckingPhase, s.sizeCtr)) (hzero : t.2 = some 0)
    (hclosed : Closed k m₀.mem S.cuts S.attvs) :
    Post k m₀.mem S arg (CallSearch.applySubgoalSizeAbstraction
      { s with pdl := ws, secondCheckingPhase := t.1, sizeCtr := t.2 } a r) (a :: A) R ws := by
  obtain ⟨R1, ws1, n, hopens, hnth, hmet, -, hcounter⟩ := h.progress
  have hcuts := h.cuts
  subst hcuts
  obtain rfl := h.fresh hcan
  have hhere := (hnth 1 _ _ _ Nat.one_pos).mp (.here hsees hr)
  obtain rfl : R1 = S.attvs := Set.Subset.antisymm hhere.subset (Advances.subset hopens)
  have htick : t = k.counter S.second (n + 1) := by
    rw [ht, hcounter]
    rfl
  have hlimit : n + 1 = k.limitAt S.second := by
    rw [← (counter_spec k S.second (n + 1)).1 (Nat.succ_pos n), ← htick]
    exact hzero
  refine ⟨⟨a, ws, ⟨habstracts, ws1, hopens, hlimit ▸ hhere⟩, rfl, (hclosed.cut a).explores ws⟩, ?_,
    Or.inl hzero⟩
  show t.1 = true ↔ _
  rw [htick]
  refine checks_iff hopens (fun i hi hle => ?_) fun R' d rest _ => ?_
  · rcases Nat.lt_or_eq_of_le hle with hlt | rfl
    · exact hmet i hi (Nat.le_of_lt_succ hlt)
    · exact ⟨_, _, _, hhere⟩
  · rw [Settings.limitAt] at hlimit
    cases hsecond : S.second with
    | true => exact Or.inl rfl
    | false =>
      split at hlimit
      next => omega
      next =>
        rw [if_pos (Or.inl hsecond)] at hlimit
        right
        omega

/-- One more cell of an argument. -/
theorem Within.recvariantCall {A : List Addr} {R : Set Addr} {ws : List Cell} {pdl : List Cell}
    (h : Within k m₀ args s S arg A R ws) (hcall : Callable k m₀ args) (hpdl : s.pdl = c' :: pdl)
    (hstep : { s with pdl := pdl }.recvariantCall k fuel c' = .ok s') :
    ∃ A R ws, Within k m₀ args s' S arg A R ws := by
  have hstands := h.reading.stands
  rw [hpdl, forall₂_cons_left_iff] at hstands
  obtain ⟨c, ws, hc, hstands, rfl⟩ := hstands
  have hocc : Occurs k m₀.mem args c := h.reading.occurs c mem_cons_self
  have hsame : s.canAbstract → c' = c ∧ pdl = ws := by
    intro hcan
    have heq := h.reading.same hcan
    rw [hpdl] at heq
    exact List.cons.inj heq
  have h0 : Reading k m₀ args { s with pdl := pdl } A R ws :=
    ⟨h.reading.sim, h.reading.ctr_le, hstands,
      fun d hd => h.reading.occurs d (mem_cons_of_mem c hd), fun hcan => (hsame hcan).2,
      h.reading.attvs, h.reading.cuts, h.reading.factor, h.reading.factorAttvs⟩
  have hrest : ∀ s' : CallSearch, s'.args = s.args → ∀ T U, ReadsArg k m₀.mem S arg T →
      ReadsArgs k m₀.mem T s'.args U → ReadsArgs k m₀.mem .start args U := by
    intro s' heq T U hT hU
    rw [heq] at hU
    exact h.rest T U hT hU
  have hmem : ∀ s' : CallSearch, s'.args = s.args → ∀ a ∈ s'.args, a ∈ args := by
    intro s' heq a ha
    rw [heq] at ha
    exact h.args a ha
  rw [CallSearch.recvariantCall] at hstep
  cases hd : deref s.machine.mem fuel c' with
  | none =>
    rw [hd] at hstep
    cases hstep
  | some r =>
    obtain ⟨r0, hsees, hshows⟩ := h0.sim.deref_stands hcall hc hd
    rw [hd] at hstep
    cases hr : r.isCompound with
    | false =>
      obtain ⟨R', ws', hadd⟩ := h0.add hcall hsees hshows (by simpa [hr] using hstep)
      refine ⟨A, R', ws', hadd.reading, ?_, h.closed, hrest s' hadd.args, hmem s' hadd.args⟩
      have hr0 : r0.isCompound = false := by
        cases hshows with
        | list a _ | struct a _ => exact hr
        | _ => rfl
      rcases h.phase with hpre | hpost
      · have hadd' : Added k m₀ args s s' A R c ws R' ws' :=
          ⟨hadd.reading, hadd.advances, hadd.canAbstract, hadd.args, hadd.sizeCtr, hadd.second⟩
        exact Or.inl (hpre.advance hadd' hsees hr0)
      · exact Or.inr (hpost.advance hadd rfl hpost.sizeCtr)
    | true =>
      obtain ⟨rfl, hoccr⟩ : r0 = r ∧ Occurs k m₀.mem args r := by
        cases hshows with
        | list a hocc | struct a hocc => exact ⟨rfl, hocc⟩
        | _ => cases hr
      simp only [hr, if_true] at hstep
      obtain ⟨t, ht, hsize⟩ := checkSubgoalSize_ok hstep
      have hlater : Reading k m₀ args
          { s with pdl := pdl, secondCheckingPhase := t.1, sizeCtr := t.2 } A R ws :=
        ⟨h0.sim, h0.ctr_le, h0.stands, h0.occurs, h0.same, h0.attvs, h0.cuts, h0.factor,
          h0.factorAttvs⟩
      have hadded : (k.Abstracts → t.2 ≠ some 0) →
          { s with pdl := pdl, secondCheckingPhase := t.1, sizeCtr := t.2 }.add k r0 = .ok s' →
          ∃ A R ws, Within k m₀ args s' S arg A R ws := by
        intro hnot hadd
        obtain ⟨R', ws', hadd⟩ := hlater.add hcall hsees hshows hadd
        refine ⟨A, R', ws', hadd.reading, ?_, h.closed, hrest s' hadd.args, hmem s' hadd.args⟩
        have hadd' : Added k m₀ args { s with secondCheckingPhase := t.1, sizeCtr := t.2 } s' A R c
            ws R' ws' :=
          ⟨hadd.reading, hadd.advances, hadd.canAbstract, hadd.args, hadd.sizeCtr, hadd.second⟩
        rcases h.phase with hpre | hpost
        · exact Or.inl (hpre.compound ht hadd' hsees hr hnot)
        · obtain ⟨hsecond, hnone⟩ := tick_spent hpost.sizeCtr ht
          exact Or.inr (hpost.advance hadd hsecond (Or.inr hnone))
      by_cases hzero : t.2 = some 0
      case neg =>
        rw [if_neg hzero] at hsize
        exact hadded (fun _ => hzero) hsize
      case pos =>
        rw [if_pos hzero] at hsize
        rcases handleSubgoalSize_ok hsize with ⟨habstracts, hcan, a, rfl, rfl⟩ | ⟨hnot, hadd⟩
        case inr => exact hadded (fun habstracts => absurd habstracts hnot) hadd
        case inl =>
          obtain ⟨rfl, rfl⟩ := hsame hcan
          refine ⟨a :: A, R, pdl, hlater.abstracted hcall hocc hsees hr hcan, Or.inr ?_, h.closed,
            hrest _ rfl, hmem _ rfl⟩
          rcases h.phase with hpre | hpost
          case inr =>
            have hnone := (tick_spent hpost.sizeCtr ht).2
            rw [hzero] at hnone
            cases hnone
          case inl =>
            exact hpre.abstracted hsees hr habstracts hcan ht hzero h.closed

/-- Where a search can stand. -/
def Stage (k : Settings) (m₀ : Terms.Machine) (args : List Addr) (s : CallSearch) : Prop :=
  (∃ S, Between k m₀ args s S) ∨ ∃ S arg A R ws, Within k m₀ args s S arg A R ws

theorem Stage.step (h : Stage k m₀ args s) (hcall : Callable k m₀ args)
    (hstep : s.step k fuel = .ok s') : Stage k m₀ args s' := by
  rw [CallSearch.step] at hstep
  split at hstep
  next cell pdl hpdl =>
    rcases h with ⟨S, hbetween⟩ | ⟨S, arg, A, R, ws, hwithin⟩
    · rw [hbetween.pdl] at hpdl
      cases hpdl
    · obtain ⟨A', R', ws', hwithin'⟩ := hwithin.recvariantCall hcall hpdl hstep
      exact Or.inr ⟨S, arg, A', R', ws', hwithin'⟩
  next arg rest hpdl hargs =>
    obtain ⟨S, hbetween⟩ : ∃ S, Between k m₀ args s S := by
      rcases h with hbetween | ⟨S, arg, A, R, ws, hwithin⟩
      · exact hbetween
      · exact hwithin.done hpdl
    obtain ⟨A, R, ws, hwithin⟩ := hbetween.callArg hcall hargs hstep
    exact Or.inr ⟨S, arg, A, R, ws, hwithin⟩
  next =>
    obtain rfl := Except.ok.inj hstep
    exact h

theorem Callable.between (hcall : Callable k m₀ args) :
    Between k m₀ args (.start m₀ args) .start where
  pdl := rfl
  reading := ⟨hcall.sim, Nat.zero_le _, .nil, fun _ hc => absurd hc not_mem_nil, fun _ => rfl,
    Set.encard_empty, rfl, rfl, rfl⟩
  second := rfl
  closed := ⟨∅, fun x hx ↦ absurd hx (Set.notMem_empty x), fun c hc ↦
    absurd hc (Set.notMem_empty c)⟩
  rest _ hT := hT
  args _ ha := ha

/-- The counts of a search that returns. -/
theorem Admitted.counts {r : CallSearch.CallLookup} (h : Admitted k m₀ args r)
    (hcall : Callable k m₀ args) : ∃ S, ReadsArgs k m₀.mem .start args S ∧
      S.attvs.encard = r.subsFact.countP isAttv ∧ S.cuts.length = r.absStk.length ∧
      r.subsFact.length < 2 ^ 16 ∧ r.template =
        encodeAnsTemplCtrs (r.subsFact.countP isAttv) r.absStk.length r.subsFact.length := by
  obtain ⟨fuel, n, s, hrun, hhalted, hfinish⟩ := h
  have hstage : Stage k m₀ args s :=
    (Machine.reaches_of_run hrun).invariant (Or.inl ⟨_, hcall.between⟩)
      fun _ _ hs _ hstep => hs.step hcall hstep
  obtain ⟨hpdl, hargs⟩ : s.pdl = [] ∧ s.args = [] := by
    simpa [callSearch] using hhalted
  obtain ⟨S, hbetween⟩ : ∃ S, Between k m₀ args s S := by
    rcases hstage with hbetween | ⟨S, arg, A, R, ws, hwithin⟩
    · exact hbetween
    · exact hwithin.done hpdl
  have hreading := hbetween.reading
  rw [CallSearch.finish] at hfinish
  split at hfinish
  next => cases hfinish
  next =>
    split at hfinish
    next => cases hfinish
    next hvars =>
      obtain rfl := Except.ok.inj hfinish
      refine ⟨S, hbetween.rest S (hargs ▸ .nil S), ?_, hreading.cuts.symm, ?_, ?_⟩
      · rw [hreading.attvs, hreading.factorAttvs]
      · have hlt := k.varNum_lt
        rw [hreading.factor]
        omega
      · simp only [hreading.factor, hreading.factorAttvs]

/-- The counts of variables, attributed variables and abstracted subterms are recovered from the
answer template exactly if fewer than 8 attributed variables can be reached outside the abstracted
subterms, and fewer than 64 arguments have a subterm that is abstracted. -/
theorem template_recovered_iff {r : CallSearch.CallLookup} (hcall : Callable k m₀ args)
    (h : Admitted k m₀ args r) :
    Recovered r.template (r.subsFact.countP isAttv) r.absStk.length r.subsFact.length ↔
      ∃ S, ReadsArgs k m₀.mem .start args S ∧ S.attvs.encard < 8 ∧ S.cuts.length < 64 := by
  obtain ⟨S, hreads, hattvs, hcuts, hvars, htemplate⟩ := h.counts hcall
  rw [htemplate, recovered_iff hvars]
  constructor
  case mp =>
    rintro ⟨hlt, hlt'⟩
    refine ⟨S, hreads, ?_, hcuts ▸ hlt'⟩
    rw [hattvs]
    exact_mod_cast hlt
  case mpr =>
    rintro ⟨T, hreads', hlt, hlt'⟩
    obtain rfl := hreads.unique hreads'
    rw [hattvs] at hlt
    exact ⟨by exact_mod_cast hlt, hcuts ▸ hlt'⟩

/-! ### Calls with attributed variables -/

/-- Local stack cells with attributed variables on the heap, whose attribute is an integer. -/
def attvMemory : Memory := fun a =>
  match a.area with
  | .localStack => .attv ⟨.heap, 2 * a.pos⟩
  | .heap => if a.pos % 2 = 0 then .ref a else .const .int 0
  | .tableSpace => .ref a

/-- The cells of `n` attributed variables on the heap. -/
def attvMachine (n : Nat) : Terms.Machine where
  mem := attvMemory
  hreg := 2 * n
  tableTop := 16
  varEnumerator := 0
  numTrievars := 16
  trail := []

/-- The registers of a call `p(A1, …, An)`. -/
def attvArgs (n : Nat) : List Addr := (List.range n).map (Addr.mk .localStack)

def attvSettings : Settings where
  arity _ := 0
  interned _ := false
  isCyclic _ _ := false
  predSubgoalSizeLimit := 2000
  cyclicCheckSize := 1000
  action := .abstract
  tnotCall := false
  maxTableSubgoalVarNum := 64000
  varNum_lt := by decide

/-- The cells of the call. -/
def AttvCell (n : Nat) : Cell → Prop
  | .ref a => a.area = .localStack ∧ a.pos < n ∨ a.area = .heap ∧ a.pos % 2 = 1 ∧ a.pos < 2 * n
  | .attv x => x.area = .heap ∧ x.pos % 2 = 0 ∧ x.pos < 2 * n
  | .const _ _ => True
  | _ => False

theorem attv_occurs {n : Nat} {c : Cell} (h : Occurs attvSettings attvMemory (attvArgs n) c) :
    AttvCell n c := by
  induction h with
  | arg ha =>
    obtain ⟨i, hi, rfl⟩ := mem_map.mp ha
    exact Or.inl ⟨rfl, mem_range.mp hi⟩
  | @content a _ _ ih =>
    rcases ih with ⟨harea, hlt⟩ | ⟨harea, hodd, -⟩
    · simp only [attvMemory, harea]
      refine ⟨rfl, ?_⟩
      simp only
      omega
    · simp [attvMemory, harea, hodd, AttvCell]
  | @bound a _ hne ih =>
    obtain ⟨harea, heven, -⟩ := ih
    exact absurd (by simp [attvMemory, harea, heven]) hne
  | @child c c' _ hc' ih =>
    cases c with
    | attv x =>
      obtain ⟨harea, heven, hlt⟩ := ih
      simp only [children, attvMemory, harea, heven, if_true, mem_singleton] at hc'
      subst hc'
      refine Or.inr ⟨harea, ?_⟩
      simp only [Addr.plus]
      omega
    | ref a | const tag val => cases hc'
    | list a | struct a | functor psc => cases ih

theorem attv_callable (n : Nat) : Callable attvSettings (attvMachine n) (attvArgs n) := by
  constructor
  case ok => exact ⟨Nat.zero_lt_succ _, le_rfl, fun _ _ => rfl⟩
  case ref =>
    intro a ha
    rcases attv_occurs ha with ⟨harea, -⟩ | ⟨harea, -, hlt⟩
    · simp [Old, Used, isStandardizedVariable, harea]
    · simp [Old, Used, isStandardizedVariable, harea, attvMachine, hlt]
  case attv =>
    intro a ha
    obtain ⟨harea, -, hlt⟩ := attv_occurs ha
    simp [Old, Used, isStandardizedVariable, harea, attvMachine, hlt]
  case struct =>
    intro a ha
    cases attv_occurs ha
  case free =>
    intro x hx hself href
    obtain ⟨harea, heven, -⟩ := attv_occurs hx
    rcases attv_occurs href with ⟨harea', -⟩ | ⟨-, hodd, -⟩
    · rw [harea] at harea'
      cases harea'
    · omega

/-- Two attributed variables are counted right. -/
theorem two_attvs_recovered : ∃ r, Admitted attvSettings (attvMachine 2) (attvArgs 2) r ∧
    (Recovered r.template (r.subsFact.countP isAttv) r.absStk.length r.subsFact.length ↔
      ∃ S, ReadsArgs attvSettings attvMemory .start (attvArgs 2) S ∧
        S.attvs.encard < 8 ∧ S.cuts.length < 64) :=
  ⟨_, ⟨3, 9, _, rfl, rfl, rfl⟩,
    template_recovered_iff (attv_callable 2) ⟨3, 9, _, rfl, rfl, rfl⟩⟩

/-- The count of eight attributed variables is read as a negative number. -/
theorem eight_attvs_not_recovered : ¬ ∀ (k : Settings) (m : Terms.Machine) (args : List Addr)
    (r : CallSearch.CallLookup), Callable k m args → Admitted k m args r →
      Recovered r.template (r.subsFact.countP isAttv) r.absStk.length r.subsFact.length := by
  intro h
  have hrecovered := h attvSettings (attvMachine 8) (attvArgs 8) _ (attv_callable 8)
    ⟨3, 30, _, rfl, rfl, rfl⟩
  have hattv : (getVarAndAttvNums (encodeAnsTemplCtrs 8 0 8)).attvNum.toInt = 8 :=
    hrecovered.attvNum
  revert hattv
  decide

end XSBEngine.Calls
