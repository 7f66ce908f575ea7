import XSBEngine.Library.Yields
import XSBEngine.Reading.Canonical

/-!
# The stacks of the canonical reader

What each operation on `opstk` and `funstk` does to the operands and brackets in use, and when it
stays within the stacks, `XSB/emu/io_builtins_xsb.c:834–847, 946–1239`.
-/

namespace XSBEngine.Reading

open Library List

namespace ReadState

variable {τ F : Type}

/-- The operands and the brackets in use. -/
structure Shows (s : ReadState τ F) (ops : List (Operand F)) (brs : List FunEntry) : Prop where
  ops_eq : s.opstk.take s.optop = ops
  brs_eq : s.funstk.take s.funtop = brs
  optop_eq : s.optop = ops.length
  funtop_eq : s.funtop = brs.length
  opstk_pos : 0 < s.opstk.length
  funstk_pos : 0 < s.funstk.length

/-- The states agree apart from the stacks and `postopreq`. -/
structure Same (s s' : ReadState τ F) : Prop where
  stream : s'.stream = s.stream
  prevchar : s'.prevchar = s.prevchar
  vars : s'.vars = s.vars
  size : s'.size = s.size
  h : s'.h = s.h
  mode : s'.mode = s.mode

variable {s s' : ReadState τ F} {ops lower args : List (Operand F)} {brs : List FunEntry}
  {x y : Operand F} {e : FunEntry}

theorem Same.refl (s : ReadState τ F) : Same s s := ⟨rfl, rfl, rfl, rfl, rfl, rfl⟩

section

variable (h : Shows s ops brs)
include h

/-- Only the stacks matter. -/
theorem Shows.of_eq (hopstk : s'.opstk = s.opstk)
    (hfunstk : s'.funstk = s.funstk) (hoptop : s'.optop = s.optop)
    (hfuntop : s'.funtop = s.funtop) :
    Shows s' ops brs := by
  refine ⟨?_, ?_, hoptop.trans h.optop_eq, hfuntop.trans h.funtop_eq, ?_, ?_⟩
  · rw [hopstk, hoptop, h.ops_eq]
  · rw [hfunstk, hfuntop, h.brs_eq]
  · rw [hopstk]
    exact h.opstk_pos
  · rw [hfunstk]
    exact h.funstk_pos

theorem Shows.optop_le : s.optop ≤ s.opstk.length := by
  have := h.optop_eq
  rw [← h.ops_eq, length_take] at this
  omega

theorem Shows.funtop_le : s.funtop ≤ s.funstk.length := by
  have := h.funtop_eq
  rw [← h.brs_eq, length_take] at this
  omega

theorem Shows.length_le : ops.length ≤ s.opstk.length := by
  rw [← h.optop_eq]
  exact h.optop_le

theorem Shows.getElem?_op {j : Nat} (hj : j < ops.length) :
    s.opstk[j]? = ops[j]? := by
  rw [← h.ops_eq, List.getElem?_take_of_lt (by rw [h.optop_eq]; exact hj)]

theorem Shows.getElem?_fun {j : Nat} (hj : j < brs.length) :
    s.funstk[j]? = brs[j]? := by
  rw [← h.brs_eq, List.getElem?_take_of_lt (by rw [h.funtop_eq]; exact hj)]

end

/-- Operands in use are read. -/
theorem Shows.readOp (h : Shows s (lower ++ x :: args) brs) : s.readOp lower.length = .ok x := by
  rw [ReadState.readOp, h.getElem?_op (by simp)]
  simp

theorem Shows.readOps (h : Shows s ops brs) (i : Nat) {k : Nat} (hk : k ≤ ops.length) :
    s.readOps i k = .ok ((ops.take k).drop i) := by
  have hle := h.length_le
  rw [ReadState.readOps, if_pos (Or.inr (Nat.le_trans hk hle)), ← h.ops_eq, take_take,
    Nat.min_eq_left (by rw [h.optop_eq]; exact hk)]

theorem Shows.readFun (h : Shows s ops (brs ++ [e])) : s.readFun brs.length = .ok e := by
  rw [ReadState.readFun, h.getElem?_fun (by simp)]
  simp

/-- A write to an entry of `opstk` below the next one to be used. -/
theorem Shows.writeOp (h : Shows s (lower ++ args) brs) (hlt : lower.length < s.opstk.length) :
    ∃ s', s.writeOp lower.length x = .ok s' ∧ s'.opstk.take (lower.length + 1) = lower ++ [x] ∧
      s'.opstk.length = s.opstk.length ∧ s' = { s with opstk := s'.opstk } := by
  refine ⟨_, if_pos hlt, ?_, by simp, rfl⟩
  have htake : s.opstk.take lower.length = lower := by
    have hle : lower.length ≤ s.optop := by
      rw [h.optop_eq]
      simp
    rw [← Nat.min_eq_left hle, ← take_take, h.ops_eq, take_left']
    rfl
  rw [take_add_one, take_set_of_le (Nat.le_refl _), htake]
  simp [hlt]

/-- There is room for an operand where `expand_opstk` may be used. -/
theorem Shows.roomOp (h : Shows s ops brs) :
    Shows s.roomOp ops brs ∧ ops.length < s.roomOp.opstk.length ∧ Same s s.roomOp ∧
      s.roomOp.postopreq = s.postopreq ∧ s.opstk.length ≤ s.roomOp.opstk.length := by
  have hpos := h.opstk_pos
  have hop := h.optop_eq
  have hle := h.optop_le
  rw [ReadState.roomOp]
  split
  · next hfull =>
    refine ⟨⟨?_, h.brs_eq, hop, h.funtop_eq, ?_, h.funstk_pos⟩, ?_,
      ⟨rfl, rfl, rfl, rfl, rfl, rfl⟩, rfl, ?_⟩
    · show (s.opstk ++ _).take s.optop = ops
      rw [take_append_of_le_length hle]
      exact h.ops_eq
    · simp
      omega
    · simp
      omega
    · simp
  · next hroom => exact ⟨h, by omega, Same.refl s, rfl, Nat.le_refl _⟩

/-- An operand is pushed. -/
theorem Shows.pushOp (h : Shows s ops brs) (x : Operand F) :
    ∃ s', s.pushOp x = .ok s' ∧ Shows s' (ops ++ [x]) brs ∧ Same s s' ∧ s'.postopreq = true ∧
      s.opstk.length ≤ s'.opstk.length := by
  obtain ⟨hroom, hlt, hsame, -, hlen⟩ := h.roomOp
  have hshows : Shows s.roomOp (ops ++ []) brs := by
    rw [append_nil]
    exact hroom
  obtain ⟨s', heq, htake, hlen', hs'⟩ := hshows.writeOp (x := x) hlt
  have hop := h.optop_eq
  refine ⟨{ s' with optop := s'.optop + 1, postopreq := true }, ?_, ?_, ?_, rfl, ?_⟩
  · rw [ReadState.pushOp, hop, heq]
    rfl
  · have hop' : s'.optop = ops.length := by
      rw [hs']
      exact hroom.optop_eq
    refine ⟨?_, ?_, ?_, ?_, ?_, ?_⟩
    · show s'.opstk.take (s'.optop + 1) = _
      rw [hop', htake]
    · rw [hs']
      exact hroom.brs_eq
    · simp [hop']
    · rw [hs']
      exact hroom.funtop_eq
    · show 0 < s'.opstk.length
      omega
    · rw [hs']
      exact hroom.funstk_pos
  · rw [hs']
    exact ⟨hsame.stream, hsame.prevchar, hsame.vars, hsame.size, hsame.h, hsame.mode⟩
  · show s.opstk.length ≤ s'.opstk.length
    omega

/-- A bracket or a functor is pushed. -/
theorem Shows.pushFun (h : Shows s ops brs) (name : List UInt8) (funtyp : FunType) :
    ∃ s', s.pushFun name funtyp = .ok s' ∧ Shows s' ops (brs ++ [⟨name, ops.length, funtyp⟩]) ∧
      Same s s' ∧ s'.postopreq = s.postopreq ∧ s'.opstk = s.opstk := by
  have hpos := h.funstk_pos
  have hfun := h.funtop_eq
  have hle := h.funtop_le
  have hroom : s.roomFun.funstk.take s.funtop = brs ∧ s.funtop < s.roomFun.funstk.length ∧
      s.roomFun = { s with funstk := s.roomFun.funstk } := by
    rw [ReadState.roomFun]
    split
    · next hfull =>
      refine ⟨?_, ?_, rfl⟩
      · show (s.funstk ++ _).take s.funtop = brs
        rw [take_append_of_le_length hle]
        exact h.brs_eq
      · simp
        omega
    · exact ⟨h.brs_eq, by omega, rfl⟩
  obtain ⟨htake, hlt, heq⟩ := hroom
  refine ⟨{ s with
    funstk := s.roomFun.funstk.set s.funtop ⟨name, s.optop, funtyp⟩, funtop := s.funtop + 1 },
    ?_, ?_, ⟨rfl, rfl, rfl, rfl, rfl, rfl⟩, rfl, rfl⟩
  · rw [ReadState.pushFun, writeFun, if_pos hlt, heq]
    rfl
  · refine ⟨h.ops_eq, ?_, h.optop_eq, ?_, h.opstk_pos, ?_⟩
    · show (s.roomFun.funstk.set s.funtop _).take (s.funtop + 1) = _
      rw [take_add_one, take_set_of_le (Nat.le_refl _), htake, h.optop_eq]
      simp [hlt]
    · simp [hfun]
    · show 0 < (s.roomFun.funstk.set s.funtop _).length
      rw [length_set]
      omega

/-- The uppermost bracket is removed. -/
theorem Shows.pop (h : Shows s ops (brs ++ [e])) :
    Shows { s with funtop := s.funtop - 1 } ops brs := by
  have hfun := h.funtop_eq
  rw [length_append, length_singleton] at hfun
  refine ⟨h.ops_eq, ?_, h.optop_eq, ?_, h.opstk_pos, h.funstk_pos⟩
  · show s.funstk.take (s.funtop - 1) = brs
    have htake := congrArg (List.take (s.funtop - 1)) h.brs_eq
    rw [take_take, Nat.min_eq_left (by omega)] at htake
    rw [htake, hfun, Nat.add_sub_cancel, take_left']
    rfl
  · show s.funtop - 1 = brs.length
    omega

/-- The type of the uppermost bracket is changed. -/
theorem Shows.writeFun (h : Shows s ops (brs ++ [e])) (e' : FunEntry) :
    ∃ s', s.writeFun brs.length e' = .ok s' ∧ Shows s' ops (brs ++ [e']) ∧ Same s s' ∧
      s'.postopreq = s.postopreq ∧ s'.opstk = s.opstk := by
  have hfun := h.funtop_eq
  have hle := h.funtop_le
  rw [length_append, length_singleton] at hfun
  refine ⟨_, if_pos (by omega), ⟨h.ops_eq, ?_, h.optop_eq, ?_, h.opstk_pos, ?_⟩,
    ⟨rfl, rfl, rfl, rfl, rfl, rfl⟩, rfl, rfl⟩
  · show (s.funstk.set brs.length e').take s.funtop = _
    have htake : s.funstk.take brs.length = brs := by
      have heq := congrArg (List.take brs.length) h.brs_eq
      rw [take_take, Nat.min_eq_left (by omega)] at heq
      rw [heq, take_left']
      rfl
    rw [hfun, take_add_one, take_set_of_le (Nat.le_refl _), htake]
    simp [show brs.length < s.funstk.length by omega]
  · simp [hfun]
  · rw [length_set]
    exact h.funstk_pos

/-- Operands are replaced by a term. -/
theorem Shows.build (h : Shows s (lower ++ args) brs) (hlt : lower.length < s.opstk.length)
    (n : Nat) (t : Term F) :
    ∃ s', s.build lower.length n t = .ok s' ∧ Shows s' (lower ++ [⟨.FUNC, t⟩]) brs ∧
      s'.stream = s.stream ∧ s'.prevchar = s.prevchar ∧ s'.vars = s.vars ∧ s'.mode = s.mode ∧
      s'.size = s.size + n ∧ s'.h = s.h + n ∧ s'.postopreq = s.postopreq := by
  obtain ⟨s', heq, htake, hlen, hs'⟩ := h.writeOp (x := ⟨.FUNC, t⟩) hlt
  refine ⟨{ s' with optop := lower.length + 1, size := s'.size + n, h := s'.h + n }, ?_, ?_, ?_⟩
  · rw [ReadState.build, heq]
    rfl
  · refine ⟨htake, ?_, by simp, ?_, ?_, ?_⟩
    · rw [hs']
      exact h.brs_eq
    · rw [hs']
      exact h.funtop_eq
    · show 0 < s'.opstk.length
      omega
    · rw [hs']
      exact h.funstk_pos
  · rw [hs']
    exact ⟨rfl, rfl, rfl, rfl, rfl, rfl, rfl⟩

/-- Without room for the term the write is outside of the stack. -/
theorem build_full {op1 : Nat} (h : s.opstk.length ≤ op1) (n : Nat) (t : Term F) :
    s.build op1 n t = .error .stack := by
  rw [ReadState.build, ReadState.writeOp, if_neg (by omega)]
  rfl

end ReadState

section Closing

variable {τ F : Type} {s : ReadState τ F} {lower args middle : List (Operand F)}
  {brs : List FunEntry} {x y : Operand F} {e : FunEntry}

/-- The term that is built for a functor. -/
def funTerm (name : List UInt8) (args : List (Term F)) : Term F :=
  match args with
  | [head, tail] => if name = [46] then .list head tail else .struct name args
  | _ => .struct name args

/-- The cells that are written for a functor. -/
def funCells (name : List UInt8) (args : List (Term F)) : Nat :=
  if args.length = 2 ∧ name = [46] then 2 else args.length + 1

/-- The term that is built for a list. -/
def listTerm (funtyp : FunType) (ts : List (Term F)) (last : Term F) : Term F :=
  if funtyp = .FUNLIST ∨ ts = [] then .listOf (ts ++ [last]) .nil else .listOf ts last

theorem funTerm_of_ne {name : List UInt8} {ts : List (Term F)}
    (h : ¬ (ts.length = 2 ∧ name = [46])) : funTerm name ts = .struct name ts := by
  rcases ts with _ | ⟨head, _ | ⟨tail, _ | ⟨third, rest⟩⟩⟩
  · rfl
  · rfl
  · exact if_neg fun hname => h ⟨rfl, hname⟩
  · rfl

theorem closeFun_eq (h : s.Shows (lower ++ args) brs) (hop : e.funop = lower.length) :
    s.closeFun e = s.build lower.length (funCells e.name (args.map Operand.op))
      (funTerm e.name (args.map Operand.op)) := by
  have hlen := h.optop_eq
  rw [length_append] at hlen
  rw [ReadState.closeFun, hop]
  have harity : s.optop - lower.length = args.length := by omega
  rw [harity, funCells, length_map]
  split
  · next hlist =>
    obtain ⟨hargs, hname⟩ := hlist
    match args, hargs with
    | [x, y], _ =>
      have hsecond : s.Shows ((lower ++ [x]) ++ y :: []) brs := by
        rw [append_assoc]
        exact h
      have hread := hsecond.readOp
      rw [length_append, length_singleton] at hread
      rw [h.readOp, hread]
      simp [funTerm, hname, bind, Except.bind]
  · next hlist =>
    have hargs := h.readOps lower.length (Nat.le_refl _)
    rw [← h.optop_eq, hlen] at hargs
    rw [hlen, hargs, take_of_length_le (by simp), drop_left']
    · rw [funTerm_of_ne (by rwa [length_map])]
      rfl
    · rfl

theorem closeCommaList_single (h : s.Shows (lower ++ [x]) brs) (hop : e.funop = lower.length) :
    s.closeCommaList e = .ok s := by
  have hlen := h.optop_eq
  rw [length_append] at hlen
  rw [ReadState.closeCommaList, hop]
  exact if_pos hlen.symm

section

variable (h : s.Shows (lower ++ x :: middle ++ [y]) brs)
include h

/-- The operands between the first and the last one. -/
theorem readOps_middle :
    s.readOps (lower.length + 1) (s.optop - 1) = .ok middle := by
  have hlen := h.optop_eq
  rw [length_append, length_singleton] at hlen
  have hread := h.readOps (lower.length + 1) (k := (lower ++ x :: middle).length) (by simp)
  rw [take_left' rfl] at hread
  rw [hlen, Nat.add_sub_cancel, hread]
  simp [drop_append]

theorem readOp_last :
    s.readOp (s.optop - 1) = .ok y := by
  have hlen := h.optop_eq
  rw [length_append, length_singleton] at hlen
  rw [hlen, Nat.add_sub_cancel]
  exact h.readOp

theorem readOp_first :
    s.readOp lower.length = .ok x := by
  rw [append_assoc, cons_append] at h
  exact h.readOp

theorem closeCommaList_eq (hop : e.funop = lower.length) :
    s.closeCommaList e = s.build lower.length (3 * (middle.length + 1))
      (.commas (x.op :: middle.map Operand.op) y.op) := by
  have hlen := h.optop_eq
  simp only [length_append, length_cons, length_nil] at hlen
  rw [ReadState.closeCommaList, hop]
  simp only
  rw [if_neg (by omega), readOp_first h, readOps_middle h, readOp_last h]
  simp [bind, Except.bind]

end

theorem closeList_single (h : s.Shows (lower ++ [x]) brs) (hop : e.funop = lower.length) :
    s.closeList e = s.build lower.length 2 (listTerm e.funtyp [] x.op) := by
  have hlen := h.optop_eq
  rw [length_append, length_singleton] at hlen
  have hread : s.readOp lower.length = .ok x := h.readOp
  rw [ReadState.closeList, hop]
  simp only
  rw [hread]
  simp only [bind, Except.bind]
  rw [if_pos hlen.symm]
  simp [listTerm, Term.listOf]

theorem closeList_eq (h : s.Shows (lower ++ x :: middle ++ [y]) brs)
    (hop : e.funop = lower.length) :
    s.closeList e = s.build lower.length
      (2 * (middle.length + 1) + if e.funtyp = .FUNLIST then 2 else 0)
      (listTerm e.funtyp (x.op :: middle.map Operand.op) y.op) := by
  have hlen := h.optop_eq
  simp only [length_append, length_cons, length_nil] at hlen
  rw [ReadState.closeList, hop]
  simp only
  rw [readOp_first h]
  simp only [bind, Except.bind]
  rw [if_neg (by omega), readOps_middle h, readOp_last h]
  by_cases htype : e.funtyp = .FUNLIST
  · simp [htype, listTerm]
  · simp [htype, listTerm]

end Closing

end XSBEngine.Reading
