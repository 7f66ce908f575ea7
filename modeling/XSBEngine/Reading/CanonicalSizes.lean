import XSBEngine.Reading.CanonicalBounds

/-!
# The size of a canonical term

The count of the cells of a term that `read_canonical_term` keeps in `size`, against the cells that
the term takes in the term buffer, `XSB/emu/io_builtins_xsb.c:900–908, 946–1290`.
-/

namespace XSBEngine.Reading

open Library List Option

variable {τ F : Type}

namespace Term

variable {ts us : List (Term F)} {t u : Term F}

@[simp] theorem cells_nil : (Term.nil : Term F).cells = 0 := rfl

@[simp] theorem cellsAll_nil : cellsAll ([] : List (Term F)) = 0 := rfl

@[simp] theorem cellsAll_cons : cellsAll (t :: ts) = t.cells + cellsAll ts := rfl

@[simp] theorem cellsAll_append : cellsAll (ts ++ us) = cellsAll ts + cellsAll us := by
  induction ts with
  | nil => simp
  | cons t ts ih =>
    rw [cons_append, cellsAll_cons, cellsAll_cons, ih]
    omega

@[simp] theorem cells_list : (Term.list t u).cells = 2 + t.cells + u.cells := rfl

@[simp] theorem cells_struct (name : List UInt8) :
    (Term.struct name ts).cells = ts.length + 1 + cellsAll ts := rfl

@[simp] theorem cells_integer (i : Int) : (Term.integer i : Term F).cells = 0 := rfl

@[simp] theorem cells_atom (name : List UInt8) : (Term.atom name : Term F).cells = 0 := rfl

@[simp] theorem cells_var (i : Nat) : (Term.var i : Term F).cells = 0 := rfl

@[simp] theorem cells_boxedint (i : Int) : (Term.boxedint i : Term F).cells = 4 := rfl

@[simp] theorem cells_boxedfloat (x : F) : (Term.boxedfloat x).cells = 4 := rfl

theorem cells_listOf : (listOf ts t).cells = 2 * ts.length + cellsAll ts + t.cells := by
  induction ts with
  | nil => simp [listOf]
  | cons u ts ih =>
    rw [listOf] at ih ⊢
    rw [foldr_cons, cells_list, ih, length_cons, cellsAll_cons]
    omega

theorem cellsAll_integers (codes : List Int) :
    cellsAll (codes.map .integer : List (Term F)) = 0 := by
  induction codes with
  | nil => simp
  | cons c codes ih => simp [ih]

end Term

section Built

variable {x : Operand F} {args : List (Operand F)}

/-- The cells of some operands. -/
def cellsOf (args : List (Operand F)) : Nat := Term.cellsAll (args.map Operand.op)

@[simp] theorem cellsOf_append (args args' : List (Operand F)) :
    cellsOf (args ++ args') = cellsOf args + cellsOf args' := by
  rw [cellsOf, map_append, Term.cellsAll_append]
  rfl

@[simp] theorem cellsOf_cons (x : Operand F) (args : List (Operand F)) :
    cellsOf (x :: args) = x.op.cells + cellsOf args := by
  rw [cellsOf, map_cons, Term.cellsAll_cons]
  rfl

@[simp] theorem cellsOf_nil : cellsOf ([] : List (Operand F)) = 0 := by
  rw [cellsOf, map_nil, Term.cellsAll_nil]

theorem cells_funTerm (name : List UInt8) (ts : List (Term F)) :
    (funTerm name ts).cells = funCells name ts + Term.cellsAll ts := by
  by_cases h : ts.length = 2 ∧ name = [46]
  · obtain ⟨hlen, hname⟩ := h
    match ts, hlen with
    | [head, tail], _ =>
      simp [funTerm, funCells, hname]
      omega
  · rw [funTerm_of_ne h, funCells, if_neg h, Term.cells_struct]

theorem cells_commaOperand (args : List (Operand F)) :
    (commaOperand args).op.cells = 3 * (args.length - 1) + cellsOf args := by
  induction args with
  | nil => simp [commaOperand]
  | cons x args ih =>
    cases args with
    | nil => simp [commaOperand]
    | cons y args =>
      rw [commaOperand, Term.cells_struct]
      · simp only [Term.cellsAll_cons, Term.cellsAll_nil, ih, cellsOf_cons, length_cons,
          length_nil]
        omega
      · simp

theorem cells_tailed (ts : List (Term F)) :
    (tailed ts).cells = 2 * (ts.length - 1) + Term.cellsAll ts := by
  induction ts with
  | nil => simp [tailed]
  | cons t ts ih =>
    cases ts with
    | nil => simp [tailed]
    | cons u ts =>
      rw [tailed, Term.cells_list, ih]
      · simp only [Term.cellsAll_cons, length_cons]
        omega
      · simp

theorem cells_listOperand (funtyp : FunType) (args : List (Operand F)) :
    (listOperand funtyp args).op.cells = listCells funtyp args.length + cellsOf args := by
  simp only [listOperand, listCells, length_map, cellsOf]
  split
  · rw [Term.cells_listOf, length_map, Term.cells_nil]
    omega
  · rw [cells_tailed, length_map]

end Built

section Counting

variable {a a' : Parse F} {c : Int} {t : Token F} {fl : Doubles F}

/-- The cells of the operands in use. -/
def Parse.cells (a : Parse F) : Nat := cellsOf (Parse.operands a.base a.frames)

theorem cells_push (a : Parse F) (x : Operand F) : (a.push x).cells = a.cells + x.op.cells := by
  rw [Parse.push, Parse.cells]
  cases hframes : a.frames with
  | nil => simp [Parse.cells, Parse.operands, hframes]
  | cons f fs =>
    simp [Parse.cells, Parse.operands, hframes]
    omega

/-- An integer that is boxed and not counted. -/
def Parse.skips (a : Parse F) (t : Token F) : Bool :=
  !a.postopreq && (t.type = .INT && overflows t.integer)

/-- What is written is counted, apart from the given number of cells. -/
structure Counts (a a' : Parse F) (uncounted : Nat) : Prop where
  cells : a'.h + a.cells = a.h + a'.cells
  size : a'.h + a.size = a.h + a'.size + uncounted

theorem counts_push (hx : x.op.cells = 0) : Counts a (a.push x) 0 := by
  have hcells := cells_push a x
  rw [Parse.push] at hcells ⊢
  cases hframes : a.frames with
  | nil | cons f fs =>
    rw [hframes] at hcells
    exact ⟨by simp only at hcells ⊢; omega, rfl⟩

theorem counts_same (hcells : a'.cells = a.cells) (hsize : a'.size = a.size) (hh : a'.h = a.h) :
    Counts a a' 0 :=
  ⟨by rw [hcells, hh], by rw [hsize, hh]; rfl⟩

theorem counts_leave {f : Frame F} {fs : List (Frame F)} {n : Nat} {x : Operand F}
    (hframes : a.frames = f :: fs) (hx : x.op.cells = n + cellsOf f.args) :
    Counts a (a.leave fs n x) 0 := by
  have hcells : (a.leave fs n x).cells = cellsOf (Parse.operands a.base fs) + x.op.cells :=
    cells_push _ x
  have hold : a.cells = cellsOf (Parse.operands a.base fs) + cellsOf f.args := by
    rw [Parse.cells, hframes, Parse.operands, cellsOf_append]
  have hh : (a.leave fs n x).h = a.h + n ∧ (a.leave fs n x).size = a.size + n := by
    rw [Parse.leave, Parse.push]
    split <;> exact ⟨rfl, rfl⟩
  exact ⟨by omega, by omega⟩

theorem counts_closing (h : a.closing t = some a') : Counts a a' 0 := by
  rw [Parse.closing] at h
  cases hframes : a.frames with
  | nil =>
    rw [hframes] at h
    simp only at h
    split at h
    · obtain rfl := some.inj h
      exact counts_same (by rw [Parse.cells, Parse.cells, hframes]) rfl rfl
    · cases h
  | cons f fs =>
    rw [hframes] at h
    simp only at h
    split at h
    · split at h
      · obtain rfl := some.inj h
        exact counts_leave hframes (cells_funTerm _ _)
      · split at h
        · obtain rfl := some.inj h
          exact counts_leave hframes (cells_commaOperand _)
        · cases h
    · split at h
      · split at h
        · cases h
        · obtain rfl := some.inj h
          exact counts_leave hframes (cells_listOperand _ _)
      · split at h
        · obtain rfl := some.inj h
          exact counts_same (by rw [Parse.cells, Parse.cells, hframes]) rfl rfl
        · split at h
          · split at h
            · cases h
            · obtain rfl := some.inj h
              exact counts_same (by rw [Parse.cells, Parse.cells, hframes]; rfl) rfl rfl
          · cases h

/-- The cells of a negative number take the place of an atom. -/
theorem cells_negated {x : Operand F} {r : Operand F × Nat} (h : negated fl t x = some r) :
    x.op.cells = 0 ∧ r.1.op.cells = r.2 := by
  rw [negated] at h
  split at h
  · next hminus =>
    have hx : x.op.cells = 0 := by
      rw [Operand.isMinus] at hminus
      split at hminus
      · next name _ hop => rw [hop, Term.cells_atom]
      · cases hminus
    refine ⟨hx, ?_⟩
    split at h
    · obtain rfl := some.inj h
      split
      · exact Term.cells_boxedint _
      · exact Term.cells_integer _
    · split at h
      · obtain rfl := some.inj h
        exact Term.cells_boxedfloat _
      · cases h
  · cases h

theorem cells_negateLast {args : List (Operand F)} {r : List (Operand F) × Nat}
    (h : negateLast fl t args = some r) : cellsOf r.1 = cellsOf args + r.2 := by
  rcases eq_nil_or_concat args with rfl | ⟨front, x, rfl⟩
  · cases h
  · simp only [negateLast, concat_eq_append, List.getLast?_concat, bind_eq_bind,
      bind_some, dropLast_concat, bind_eq_some_iff] at h
    obtain ⟨r', hr', heq⟩ := h
    obtain rfl := some.inj heq
    obtain ⟨hx, hcells⟩ := cells_negated hr'
    simp [hx, hcells]

theorem counts_backpatch (h : a.backpatch fl t = some a') : Counts a a' 0 := by
  rw [Parse.backpatch] at h
  cases hframes : a.frames with
  | nil =>
    rw [hframes] at h
    simp only [bind_eq_bind, bind_eq_some_iff] at h
    obtain ⟨r, hr, heq⟩ := h
    obtain rfl := some.inj heq
    have hcells := cells_negateLast hr
    refine ⟨?_, ?_⟩
    · simp only [Parse.count, Parse.cells, hframes, Parse.operands]
      omega
    · simp only [Parse.count]
      omega
  | cons f fs =>
    rw [hframes] at h
    simp only [bind_eq_bind, bind_eq_some_iff] at h
    obtain ⟨r, hr, heq⟩ := h
    obtain rfl := some.inj heq
    have hcells := cells_negateLast hr
    refine ⟨?_, ?_⟩
    · simp only [Parse.count, Parse.cells, hframes, Parse.operands, cellsOf_append]
      omega
    · simp only [Parse.count]
      omega

theorem counts_variable {name : Option (List UInt8)} {known : Option Nat}
    (h : a.variableOperand name known = .parse a') : Counts a a' 0 := by
  cases known with
  | some i =>
    obtain rfl := Next.parse.inj h
    exact counts_push (Term.cells_var _)
  | none =>
    rw [Parse.variableOperand] at h
    split at h
    · cases h
    · obtain rfl := Next.parse.inj h
      obtain ⟨hcells, hsize⟩ := counts_push (a := { a with vars := a.vars ++ [name] })
        (x := ⟨.VAR, .var a.vars.length⟩) (Term.cells_var _)
      exact ⟨hcells, hsize⟩

/-- A number whose cells are written before it is pushed. -/
theorem counts_box {x : Operand F} {n : Nat} (hx : x.op.cells = 4) (hn : n ≤ 4) :
    Counts a (({ a with h := a.h + 4, size := a.size + (4 - n) } : Parse F).push x) n := by
  have hcells := cells_push ({ a with h := a.h + 4, size := a.size + (4 - n) } : Parse F) x
  have hold : ({ a with h := a.h + 4, size := a.size + (4 - n) } : Parse F).cells = a.cells := rfl
  rw [Parse.push] at hcells ⊢
  split at hcells
  · exact ⟨by simp only at hcells ⊢; omega, by simp only; omega⟩
  · exact ⟨by simp only at hcells ⊢; omega, by simp only; omega⟩

theorem counts_operand (hpost : a.postopreq = false) (h : a.operand fl t = .parse a') :
    Counts a a' (if a.skips t then 4 else 0) := by
  have hskips : a.skips t = (t.type = .INT && overflows t.integer) := by
    rw [Parse.skips, hpost]
    rfl
  rw [hskips]
  rw [Parse.operand] at h
  cases htype : t.type with
  | INT =>
    simp only [htype] at h
    split at h
    · next hover =>
      obtain rfl := Next.parse.inj h
      simp only [hover, decide_true, Bool.and_self, if_true]
      exact counts_box (Term.cells_boxedint _) (Nat.le_refl 4)
    · next hover =>
      obtain rfl := Next.parse.inj h
      simp only [hover, Bool.and_false, Bool.false_eq_true, if_false]
      exact counts_push (Term.cells_integer _)
  | REAL =>
    simp only [htype] at h
    obtain rfl := Next.parse.inj h
    exact counts_box (Term.cells_boxedfloat _) (Nat.zero_le 4)
  | PUNC =>
    have henter : ∀ funtyp, Counts a (a.enter [] funtyp) 0 := by
      intro funtyp
      apply counts_same
      · simp [Parse.cells, Parse.enter, Parse.operands]
      · rfl
      · rfl
    simp only [htype] at h
    split at h
    · obtain rfl := Next.parse.inj h
      exact henter _
    · split at h
      · obtain rfl := Next.parse.inj h
        exact henter _
      · cases h
  | VVAR =>
    simp only [htype] at h
    split at h
    · exact counts_variable h
    · exact counts_variable h
  | VAR =>
    simp only [htype] at h
    exact counts_variable h
  | ATOM =>
    simp only [htype] at h
    obtain rfl := Next.parse.inj h
    exact counts_push (Term.cells_atom _)
  | LIST =>
    simp only [htype] at h
    split at h
    · obtain rfl := Next.parse.inj h
      exact counts_push (Term.cells_atom _)
    · cases h
  | FUNC => simp [htype] at h
  | EOF => simp [htype] at h
  | VARFUNC => simp [htype] at h
  | EOC => simp [htype] at h
  | VVARFUNC => simp [htype] at h
  | HPUNC => simp [htype] at h
  | INTFUNC => simp [htype] at h
  | REALFUNC => simp [htype] at h

theorem counts_turn (h : a.turn fl t = .parse a') :
    Counts a a' (if a.skips t then 4 else 0) := by
  rw [Parse.turn] at h
  cases hpost : a.postopreq with
  | false =>
    rw [hpost, if_neg Bool.false_ne_true] at h
    exact counts_operand hpost h
  | true =>
    have hskips : a.skips t = false := by
      rw [Parse.skips, hpost]
      rfl
    rw [hskips, if_neg Bool.false_ne_true]
    rw [if_pos hpost] at h
    split at h
    · cases hclose : a.closing t with
      | none =>
        rw [hclose] at h
        cases h
      | some a1 =>
        rw [hclose] at h
        obtain rfl := Next.parse.inj h
        exact counts_closing hclose
    · cases hpatch : a.backpatch fl t with
      | none =>
        rw [hpatch] at h
        cases h
      | some a1 =>
        rw [hpatch] at h
        obtain rfl := Next.parse.inj h
        exact counts_backpatch hpatch

end Counting

namespace ReadState

variable (src : TokenSource τ F) (charset : Charset) (fl : Doubles F)

/-- The next token is an integer that is boxed and not counted. -/
def skips (s : ReadState τ F) : Prop :=
  s.mode = .reading ∧ s.postopreq = false ∧ ∃ t st,
    src.getToken s.prevchar s.stream = .ok (t, st) ∧ t.type = .INT ∧ overflows t.integer

/-- All cells that are written are those of operands, and the given number of them is not
counted. -/
def Counted (n : Nat) (s : ReadState τ F) : Prop :=
  match s.mode with
  | .reading => ∃ a, s.Ready a ∧ a.h = a.cells ∧ a.h = a.size + n
  | .string codes rest =>
    ∃ a, s.Copies a codes rest ∧ a.h = a.cells + 2 * codes.length ∧ a.h = a.size + n
  | .finished (.term t) => s.h = t.cells ∧ s.h = s.size + n
  | _ => True

variable {src charset} {s s' : ReadState τ F} {a a' : Parse F} {t : Token F} {c : Int} {st : τ}
  {n : Nat} {x : Except ReadStop (ReadState τ F)}

theorem Finishes.counted {minus : Bool} (h : Finishes src a minus c st (.ok s'))
    (hmoved : a.Moved minus) (hcells : a.h = a.cells) (hsize : a.h = a.size + n) :
    s'.Counted n := by
  rw [Finishes] at h
  split at h
  · next hopen =>
    obtain ⟨s1, heq, hholds, hat⟩ := h
    obtain rfl := Except.ok.inj heq
    rw [Counted, hat.mode]
    refine ⟨a, ⟨hholds, hat.mode, ?_⟩, hcells, hsize⟩
    rw [hat.prevchar]
    exact hmoved.sound hopen c
  · next hclosed =>
    split at h
    · cases h
    · split at h
      · obtain ⟨y, hy, s1, heq, hat, hs1, hh1⟩ := h
        obtain rfl := Except.ok.inj heq
        rw [Counted, hat.mode]
        have hframes : a.frames = [] := by
          simp only [not_or, not_not] at hclosed
          exact hclosed.2
        have hbase : a.base = [y] := by
          obtain ⟨z, hz⟩ := List.length_eq_one_iff.mp (hmoved.inner hframes).1
          rw [hz] at hy ⊢
          exact congrArg (fun z => [z]) (some.inj hy)
        have hy : a.cells = y.op.cells := by
          rw [Parse.cells, hframes, Parse.operands, hbase, cellsOf_cons, cellsOf_nil]
          rfl
        exact ⟨by omega, by omega⟩
      · obtain ⟨s1, heq, hat⟩ := h
        obtain rfl := Except.ok.inj heq
        rw [Counted, hat.mode]
        trivial

theorem Counted.of_at {type : TokenType} (hat : s'.At c st (.skipping type)) : s'.Counted n := by
  rw [Counted, hat.mode]
  trivial

/-- A step where a token is read counts the cells that it writes, apart from those of an integer. -/
theorem Ready.counted (h : s.Ready a) (hcells : a.h = a.cells) (hsize : a.h = a.size + n)
    (hfits : ∀ t st, src.getToken s.prevchar s.stream = .ok (t, st) → Fits charset s t)
    (hstep : s.step src charset fl = .ok s') :
    ∃ k, s'.Counted (n + k) ∧ (k = 0 ↔ ¬ s.skips src) := by
  cases hget : src.getToken s.prevchar s.stream with
  | error e =>
    rw [ReadState.step, h.mode] at hstep
    simp only [ReadState.getToken, hget] at hstep
    cases hstep
  | ok r =>
    obtain ⟨t, st⟩ := r
    have hturns := h.step src charset fl hget (hfits t st hget)
    rw [hstep] at hturns
    have hskips : a.skips t = true ↔ s.skips src := by
      rw [Parse.skips, ← h.holds.postopreq]
      constructor
      · intro hs
        simp only [Bool.and_eq_true, Bool.not_eq_true', decide_eq_true_eq] at hs
        exact ⟨h.mode, hs.1, t, st, hget, hs.2.1, hs.2.2⟩
      · rintro ⟨-, hpost, t', st', hget', htype, hover⟩
        obtain ⟨rfl, rfl⟩ := Prod.mk.inj (Except.ok.inj (hget.symm.trans hget'))
        simp [hpost, htype, hover]
    have hnone : (∀ a', a.turn fl t ≠ .parse a') → ¬ s.skips src := by
      intro hno hs
      have hs' := hskips.mpr hs
      simp only [Parse.skips, Bool.and_eq_true, Bool.not_eq_true', decide_eq_true_eq] at hs'
      obtain ⟨hpost, htype, hover⟩ := hs'
      apply hno
      rw [Parse.turn, if_neg (by simp [hpost]), Parse.operand, htype]
      simp only [hover, if_true]
      rfl
    cases hturn : a.turn fl t with
    | parse a' =>
      rw [hturn] at hturns
      have hcounts := counts_turn hturn
      refine ⟨if a.skips t then 4 else 0, ?_, ?_⟩
      · refine Finishes.counted hturns (moved_turn h.sound hturn) ?_ ?_
        · have := hcounts.cells
          omega
        · have := hcounts.size
          omega
      · rw [← hskips]
        split
        · next hs => simp [hs]
        · next hs => simp [hs]
    | functor =>
      rw [hturn] at hturns
      refine ⟨0, ?_, fun _ => hnone (by simp [hturn]), fun _ => rfl⟩
      simp only [Turns] at hturns
      split at hturns
      · obtain ⟨s1, heq, hat⟩ := hturns
        obtain rfl := Except.ok.inj heq
        exact Counted.of_at hat
      · split at hturns
        · cases hturns
        · next par st' hget' =>
          obtain ⟨s1, heq, hat, hholds⟩ := hturns
          obtain rfl := Except.ok.inj heq
          rw [Counted, hat.mode]
          refine ⟨_, ⟨hholds, hat.mode, ?_⟩, ?_, hsize⟩
          · rw [hat.prevchar]
            exact sound_functor h.sound (turn_functor hturn).1 _ _
          · show a.h = _
            rw [hcells, Parse.cells, Parse.cells, Parse.enter, Parse.operands, append_nil]
    | string =>
      rw [hturn] at hturns
      refine ⟨0, ?_, fun _ => hnone (by simp [hturn]), fun _ => rfl⟩
      obtain ⟨-, s1, heq, hat, hholds⟩ := hturns
      obtain rfl := Except.ok.inj heq
      rw [Counted, hat.mode]
      have hpost := (turn_string hturn).1
      refine ⟨a.count 2, ⟨hholds, hat.mode, (h.sound.operand hpost _).count 2, hpost⟩, ?_, ?_⟩
      · show a.h + 2 = a.cells + 2 * 1
        omega
      · show a.h + 2 = a.size + 2 + (n + 0)
        omega
    | outcome o =>
      rw [hturn] at hturns
      refine ⟨0, ?_, fun _ => hnone (by simp [hturn]), fun _ => rfl⟩
      obtain ⟨s1, heq, hat⟩ := hturns
      obtain rfl := Except.ok.inj heq
      rw [Counted, hat.mode]
      rcases turn_outcome hturn with rfl | rfl <;> trivial
    | fail =>
      rw [hturn] at hturns
      refine ⟨0, ?_, fun _ => hnone (by simp [hturn]), fun _ => rfl⟩
      obtain ⟨s1, heq, hat⟩ := hturns
      obtain rfl := Except.ok.inj heq
      exact Counted.of_at hat

/-- The characters of a string are all counted. -/
theorem Copies.counted {codes : List Int} {rest : List UInt8} (h : s.Copies a codes rest)
    (hcells : a.h = a.cells + 2 * codes.length) (hsize : a.h = a.size + n)
    (hstep : s.step src charset fl = .ok s') : s'.Counted n := by
  by_cases hrest : rest = []
  · subst hrest
    have hfin := h.finish src charset fl
    rw [hstep] at hfin
    have hbase := h.sound.base_eq_nil h.postopreq
    refine hfin.counted (moved_push h.sound.outer (fun _ => hbase) _) ?_ ?_
    · rw [cells_push, Term.cells_listOf, Term.cellsAll_integers, length_map, Term.cells_nil]
      have hh : (a.push ⟨.FUNC, .listOf (codes.map .integer) .nil⟩).h = a.h := by
        rw [Parse.push]
        split <;> rfl
      omega
    · rw [Parse.push]
      split <;> exact hsize
  · obtain ⟨s1, heq, hcopies, -, -⟩ := h.next src charset fl hrest
    obtain rfl := Except.ok.inj (hstep.symm.trans heq)
    rw [Counted, hcopies.mode]
    refine ⟨_, hcopies, ?_, ?_⟩
    · show a.h + 2 = a.cells + 2 * (codes ++ [_]).length
      rw [length_append, length_singleton]
      omega
    · show a.h + 2 = a.size + 2 + n
      omega

/-- What one step does to the count. -/
theorem Counted.step (h : s.Counted n)
    (hhalted : (readCanonicalTerm src charset fl).halted s = false)
    (hfits : s.mode = .reading →
      ∀ t st, src.getToken s.prevchar s.stream = .ok (t, st) → Fits charset s t)
    (hstep : s.step src charset fl = .ok s') :
    ∃ k, s'.Counted (n + k) ∧ (k = 0 ↔ ¬ s.skips src) := by
  have hno : s.mode ≠ .reading → ¬ s.skips src := fun hne hs => hne hs.1
  cases hmode : s.mode with
  | reading =>
    rw [Counted, hmode] at h
    obtain ⟨a, ha, hcells, hsize⟩ := h
    exact ha.counted fl hcells hsize (hfits hmode) hstep
  | string codes rest =>
    rw [Counted, hmode] at h
    obtain ⟨a, ha, hcells, hsize⟩ := h
    exact ⟨0, ha.counted fl hcells hsize hstep, fun _ => hno (by simp [hmode]), fun _ => rfl⟩
  | skipping type =>
    refine ⟨0, ?_, fun _ => hno (by simp [hmode]), fun _ => rfl⟩
    rw [ReadState.step, hmode] at hstep
    simp only at hstep
    split at hstep
    · obtain rfl := Except.ok.inj hstep
      trivial
    · rw [ReadState.getToken] at hstep
      split at hstep
      · obtain rfl := Except.ok.inj hstep
        trivial
      · cases hstep
  | finished o =>
    simp only [readCanonicalTerm, hmode] at hhalted
    cases hhalted

/-- The cells that are not counted in a run to the end of a term. -/
theorem Counted.run {u : Term F} (hr : (readCanonicalTerm src charset fl).Reaches s s')
    (hend : s'.mode = .finished (.term u)) (hvalid : s.Valid charset) (h : s.Counted n) :
    ∃ k, s'.Counted (n + k) ∧
      (k = 0 ↔ ∀ s1, (readCanonicalTerm src charset fl).Reaches s s1 → ¬ s1.skips src) := by
  have hhalted' : (readCanonicalTerm src charset fl).halted s' = true := by
    simp [readCanonicalTerm, hend]
  induction hr generalizing n with
  | refl s =>
    refine ⟨0, h, fun _ s1 hs1 hskips => ?_, fun _ => rfl⟩
    obtain rfl := hs1.eq_of_halted hhalted'
    rw [hskips.1] at hend
    cases hend
  | @step s s1 s' hhalted hstep hrest ih =>
    have hends : EndsInside src charset fl s :=
      (hrest.ends hhalted' trivial).of_step hhalted hstep
    have hfits : s.mode = .reading →
        ∀ t st, src.getToken s.prevchar s.stream = .ok (t, st) → Fits charset s t :=
      fun hm t st hg => fits_of_endsInside fl hvalid hends hm hg
    have hvalid1 : s1.Valid charset := by
      rcases hvalid.proceeds fl hhalted hfits with ⟨s2, heq, hs2, -⟩ | ⟨e, heq, -⟩
      · obtain rfl := Except.ok.inj (hstep.symm.trans heq)
        exact hs2
      · cases hstep.symm.trans heq
    obtain ⟨k1, hk1, hskips1⟩ := h.step fl hhalted hfits hstep
    obtain ⟨k2, hk2, hskips2⟩ := ih hend hvalid1 hk1 hhalted'
    refine ⟨k1 + k2, by rwa [← Nat.add_assoc], ?_⟩
    constructor
    · intro hzero s2 hs2
      cases hs2 with
      | refl _ => exact hskips1.mp (by omega)
      | step _ hstep2 hrest2 =>
        obtain rfl := Except.ok.inj (hstep.symm.trans hstep2)
        exact hskips2.mp (by omega) s2 hrest2
    · intro hall
      have h1 := hskips1.mpr (hall s (.refl s))
      have h2 := hskips2.mpr fun s2 hs2 => hall s2 (.step hhalted hstep hs2)
      omega

end ReadState

/-- The cells of a term that `read_canonical_term` reads from a stream are at most as many as `size`
says exactly if in no state of the call a positive integer is boxed. -/
theorem cells_le_size_iff {σ : Type} (src : CharSource σ) (charset : Charset) (fl : Doubles F)
    (old : CanonicalStacks F) (st : σ) (b : StrBuff) (lastc : Int)
    {s' : ReadState (σ × StrBuff × Int) F} {u : Term F}
    (hr : (readCanonicalTerm (tokens src charset fl) charset fl).Reaches
      (ReadState.start old (st, b, lastc)) s')
    (hend : s'.mode = .finished (.term u)) :
    u.cells ≤ s'.size ↔ ∀ s, (readCanonicalTerm (tokens src charset fl) charset fl).Reaches
      (ReadState.start old (st, b, lastc)) s → ¬ s.skips (tokens src charset fl) := by
  have hready : (ReadState.start old (st, b, lastc)).Ready ⟨[], [], [], 0, 0, false⟩ :=
    ReadState.ready_start old (st, b, lastc)
  have hcounted : (ReadState.start old (st, b, lastc)).Counted 0 :=
    ⟨_, hready, cellsOf_nil.symm, rfl⟩
  obtain ⟨k, hk, hskips⟩ := ReadState.Counted.run fl hr hend ⟨_, hready⟩ hcounted
  rw [ReadState.Counted, hend] at hk
  simp only at hk
  rw [← hskips]
  omega

theorem cells_le_size_iff_atom :
    ∃ (s' : ReadState (List UInt8 × StrBuff × Int) Int) (u : Term Int),
      (u.cells ≤ s'.size ↔ ∀ s, (readCanonicalTerm
        (tokens fileSource .utf8 (⟨fun _ => 0, id, fun x _ _ => x, Int.neg⟩ : Doubles Int)) .utf8
        ⟨fun _ => 0, id, fun x _ _ => x, Int.neg⟩).Reaches
          (ReadState.start ⟨[], [], Or.inl rfl⟩ ([97, 46, 10], ⟨[], 10000, by decide⟩, 32)) s →
        ¬ s.skips (tokens fileSource .utf8
          (⟨fun _ => 0, id, fun x _ _ => x, Int.neg⟩ : Doubles Int))) :=
  ⟨_, .atom [97], cells_le_size_iff fileSource .utf8 _ ⟨[], [], Or.inl rfl⟩ [97, 46, 10]
    ⟨[], 10000, by decide⟩ 32 (.step rfl rfl (.refl _)) rfl⟩

/-- The term of a call is as large as `size` says. -/
def ReadState.covers (s : ReadState τ F) : Bool :=
  match s.mode with
  | .finished (.term u) => u.cells ≤ s.size
  | _ => true

/-- The cells of an integer are not counted. -/
theorem large_integer_not_counted :
    ∃ (s' : ReadState (List UInt8 × StrBuff × Int) Int) (u : Term Int),
      (readCanonicalTerm
        (tokens fileSource .utf8 (⟨fun _ => 0, id, fun x _ _ => x, Int.neg⟩ : Doubles Int)) .utf8
        ⟨fun _ => 0, id, fun x _ _ => x, Int.neg⟩).Reaches
          (ReadState.start ⟨[], [], Or.inl rfl⟩
            ([49, 49, 53, 50, 57, 50, 49, 53, 48, 52, 54, 48, 54, 56, 52, 54, 57, 55, 54, 46, 10],
              ⟨[], 10000, by decide⟩, 32)) s' ∧
        s'.mode = .finished (.term u) ∧ ¬ u.cells ≤ s'.size := by
  have hcovers : (((readCanonicalTerm
      (tokens fileSource .utf8 (⟨fun _ => 0, id, fun x _ _ => x, Int.neg⟩ : Doubles Int)) .utf8
      ⟨fun _ => 0, id, fun x _ _ => x, Int.neg⟩).run 1 (ReadState.start ⟨[], [], Or.inl rfl⟩
        ([49, 49, 53, 50, 57, 50, 49, 53, 48, 52, 54, 48, 54, 56, 52, 54, 57, 55, 54, 46, 10],
          ⟨[], 10000, by decide⟩, 32))).map ReadState.covers).toOption = some false := by
    decide +kernel
  rcases hrun : (readCanonicalTerm _ _ _).run 1 _ with e | s'
  · rw [hrun] at hcovers
    cases hcovers
  · rw [hrun] at hcovers
    have hfalse : s'.covers = false := some.inj hcovers
    rw [ReadState.covers] at hfalse
    split at hfalse
    · next u hmode =>
      exact ⟨s', u, Machine.reaches_of_run hrun, hmode, of_decide_eq_false hfalse⟩
    · cases hfalse

end XSBEngine.Reading
