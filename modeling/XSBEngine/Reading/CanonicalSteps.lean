import XSBEngine.Reading.CanonicalParse

/-!
# Steps of the canonical reader

What a step of `read_canonical_term` does in a state in which a token is read, told by the open
brackets and their operands, and what it keeps, `XSB/emu/io_builtins_xsb.c:946–1275`.
-/

namespace XSBEngine.Reading

open Library Option

variable {τ F : Type}

/-- A parse, or an error. -/
def Next.ofOption : Option (Parse F) → Next F
  | some a => .parse a
  | none => .fail

/-- What a token leads to. -/
def Parse.turn (a : Parse F) (fl : Doubles F) (t : Token F) : Next F :=
  if a.postopreq then .ofOption (if t.type = .PUNC then a.closing t else a.backpatch fl t)
  else a.operand fl t

/-- A token that the stacks have room for. -/
structure Fits (charset : Charset) (s : ReadState τ F) (t : Token F) : Prop where
  opened : s.postopreq → t.type = .PUNC → t.mark = 41 ∨ t.mark = 93 ∨ t.mark = 124 → s.funtop ≠ 0
  room : s.postopreq → t.type = .PUNC → t.mark = 41 → ∀ e, s.funstk[s.funtop - 1]? = some e →
    e.funtyp = .FUNFUN → e.funop = s.optop → s.optop < s.opstk.length
  pending : s.postopreq → t.type ≠ .PUNC → s.optop ≠ 0
  advances : s.postopreq = false → t.type = .LIST → t.text ≠ [] → charset ≠ .latin1

/-- What holds of a parse in front of a token, where `c` is the character behind the last one. -/
structure Parse.Sound (a : Parse F) (c : Int) : Prop where
  filled : a.postopreq → ∀ f fs, a.frames = f :: fs → f.args ≠ [] ∨ f.funtyp = .FUNFUN ∧ c = 41
  outer : a.frames ≠ [] → a.base = []
  inner : a.frames = [] → a.base.length = if a.postopreq then 1 else 0

/-- What holds behind a token: unless the term is finished it holds in front of the next one. -/
structure Parse.Moved (a : Parse F) (minus : Bool) : Prop where
  filled : a.postopreq → ∀ f fs, a.frames = f :: fs → f.args ≠ []
  outer : a.frames ≠ [] → a.base = []
  inner : a.frames = [] → a.base.length = 1 ∧ (minus → a.postopreq)

theorem Parse.Moved.sound {a : Parse F} {minus : Bool} (h : a.Moved minus)
    (hopen : minus ∨ a.frames ≠ []) (c : Int) : a.Sound c := by
  refine ⟨fun hpost f fs hframes => Or.inl (h.filled hpost f fs hframes), h.outer, ?_⟩
  intro hframes
  have hminus : minus = true := hopen.resolve_right fun hne => hne hframes
  rw [(h.inner hframes).2 hminus]
  exact (h.inner hframes).1

section Moves

variable {a a' : Parse F} {c : Int} {t : Token F} {fl : Doubles F} {minus : Bool}

/-- An operand behind which nothing is missing. -/
theorem moved_push (houter : a.frames ≠ [] → a.base = []) (hinner : a.frames = [] → a.base = [])
    (x : Operand F) : (a.push x).Moved minus := by
  rw [Parse.push]
  cases hframes : a.frames with
  | nil =>
    refine ⟨(by rintro - _ _ ⟨⟩), fun hne => absurd rfl hne, fun _ => ⟨?_, fun _ => rfl⟩⟩
    simp [hinner hframes]
  | cons f fs =>
    refine ⟨?_, ?_, (by rintro ⟨⟩)⟩
    · rintro - f' fs' heq
      obtain ⟨rfl, rfl⟩ := List.cons.inj heq
      simp
    · exact fun _ => houter (by simp [hframes])

theorem moved_leave {f : Frame F} {fs : List (Frame F)} (hframes : a.frames = f :: fs)
    (houter : a.frames ≠ [] → a.base = []) (n : Nat) (x : Operand F) :
    (a.leave fs n x).Moved minus := by
  have hbase : a.base = [] := houter (by simp [hframes])
  exact moved_push (a := ({ a with frames := fs } : Parse F).count n) (fun _ => hbase)
    (fun _ => hbase) x

theorem moved_closing (h : a.Sound c) (hpost : a.postopreq = true)
    (hclose : a.closing t = some a') (hminus : t.isMinus = false) : a'.Moved t.isMinus := by
  have hinner := h.inner
  rw [hpost] at hinner
  rw [Parse.closing] at hclose
  cases hframes : a.frames with
  | nil =>
    rw [hframes] at hclose
    simp only at hclose
    split at hclose
    · obtain rfl := some.inj hclose
      refine ⟨(by rintro - _ _ ⟨⟩), fun hne => absurd rfl hne, fun _ => ⟨hinner hframes, ?_⟩⟩
      rw [hminus]
      rintro ⟨⟩
    · cases hclose
  | cons f fs =>
    rw [hframes] at hclose
    simp only at hclose
    split at hclose
    · split at hclose
      · obtain rfl := some.inj hclose
        exact moved_leave hframes h.outer _ _
      · split at hclose
        · obtain rfl := some.inj hclose
          exact moved_leave hframes h.outer _ _
        · cases hclose
    · split at hclose
      · split at hclose
        · cases hclose
        · obtain rfl := some.inj hclose
          exact moved_leave hframes h.outer _ _
      · split at hclose
        · obtain rfl := some.inj hclose
          exact ⟨(by rintro ⟨⟩), fun _ => h.outer (by simp [hframes]), (by rintro ⟨⟩)⟩
        · split at hclose
          · split at hclose
            · cases hclose
            · obtain rfl := some.inj hclose
              exact ⟨(by rintro ⟨⟩), fun _ => h.outer (by simp [hframes]), (by rintro ⟨⟩)⟩
          · cases hclose

theorem negateLast_ne_nil {args : List (Operand F)} {r : List (Operand F) × Nat}
    (h : negateLast fl t args = some r) : r.1 ≠ [] ∧ r.1.length = args.length := by
  rw [negateLast] at h
  cases hlast : args.getLast? with
  | none =>
    rw [hlast] at h
    cases h
  | some x =>
    rw [hlast] at h
    cases hneg : negated fl t x with
    | none =>
      simp [hneg] at h
    | some r' =>
      simp only [hneg, bind_eq_bind, bind_some] at h
      obtain rfl := some.inj h
      have hargs : args ≠ [] := by
        rintro rfl
        cases hlast
      have := List.length_pos_iff.mpr hargs
      refine ⟨by simp, ?_⟩
      simp
      omega

theorem moved_backpatch (h : a.Sound c) (hpost : a.postopreq = true)
    (hpatch : a.backpatch fl t = some a') : a'.Moved t.isMinus := by
  have hinner := h.inner
  rw [hpost] at hinner
  rw [Parse.backpatch] at hpatch
  cases hframes : a.frames with
  | nil =>
    rw [hframes] at hpatch
    simp only [bind_eq_bind, bind_eq_some_iff] at hpatch
    obtain ⟨r, hr, heq⟩ := hpatch
    obtain rfl := some.inj heq
    refine ⟨(by rintro - _ _ ⟨⟩), fun hne => absurd rfl hne, fun _ => ⟨?_, fun _ => hpost⟩⟩
    exact (negateLast_ne_nil hr).2.trans (hinner hframes)
  | cons f fs =>
    rw [hframes] at hpatch
    simp only [bind_eq_bind, bind_eq_some_iff] at hpatch
    obtain ⟨r, hr, heq⟩ := hpatch
    obtain rfl := some.inj heq
    refine ⟨?_, fun _ => h.outer (by simp [hframes]), (by rintro ⟨⟩)⟩
    rintro - f' fs' heq
    obtain ⟨rfl, -⟩ := List.cons.inj heq
    exact (negateLast_ne_nil hr).1

theorem moved_variable {name : Option (List UInt8)} {known : Option Nat}
    (houter : a.frames ≠ [] → a.base = []) (hinner : a.frames = [] → a.base = [])
    (h : a.variableOperand name known = .parse a') : a'.Moved minus := by
  cases known with
  | some i =>
    obtain rfl := Next.parse.inj h
    exact moved_push houter hinner _
  | none =>
    rw [Parse.variableOperand] at h
    split at h
    · cases h
    · obtain rfl := Next.parse.inj h
      exact moved_push (a := { a with vars := a.vars ++ [name] }) houter hinner _

theorem moved_operand (h : a.Sound c) (hpost : a.postopreq = false)
    (hoperand : a.operand fl t = .parse a') : a'.Moved t.isMinus := by
  have hinner : a.frames = [] → a.base = [] := by
    intro hframes
    have hlen := h.inner hframes
    rw [hpost] at hlen
    exact List.length_eq_zero_iff.mp hlen
  have henter : ∀ name funtyp, (a.enter name funtyp).Moved t.isMinus := by
    intro name funtyp
    refine ⟨fun hp => ?_, fun _ => ?_, nofun⟩
    · exact absurd hp (by simp [Parse.enter, hpost])
    · by_cases hframes : a.frames = []
      · exact hinner hframes
      · exact h.outer hframes
  rw [Parse.operand] at hoperand
  cases htype : t.type with
  | PUNC =>
    simp only [htype] at hoperand
    split at hoperand
    · obtain rfl := Next.parse.inj hoperand
      exact henter _ _
    · split at hoperand
      · obtain rfl := Next.parse.inj hoperand
        exact henter _ _
      · cases hoperand
  | VVAR =>
    simp only [htype] at hoperand
    split at hoperand
    · exact moved_variable h.outer hinner hoperand
    · exact moved_variable h.outer hinner hoperand
  | VAR =>
    simp only [htype] at hoperand
    exact moved_variable h.outer hinner hoperand
  | REAL =>
    simp only [htype] at hoperand
    obtain rfl := Next.parse.inj hoperand
    exact moved_push (a := a.count 4) h.outer hinner _
  | INT =>
    simp only [htype] at hoperand
    split at hoperand
    · obtain rfl := Next.parse.inj hoperand
      exact moved_push (a := { a with h := a.h + 4 }) h.outer hinner _
    · obtain rfl := Next.parse.inj hoperand
      exact moved_push h.outer hinner _
  | ATOM =>
    simp only [htype] at hoperand
    obtain rfl := Next.parse.inj hoperand
    exact moved_push h.outer hinner _
  | LIST =>
    simp only [htype] at hoperand
    split at hoperand
    · obtain rfl := Next.parse.inj hoperand
      exact moved_push h.outer hinner _
    · cases hoperand
  | FUNC => simp [htype] at hoperand
  | EOF => simp [htype] at hoperand
  | VARFUNC => simp [htype] at hoperand
  | EOC => simp [htype] at hoperand
  | VVARFUNC => simp [htype] at hoperand
  | HPUNC => simp [htype] at hoperand
  | INTFUNC => simp [htype] at hoperand
  | REALFUNC => simp [htype] at hoperand

theorem moved_turn (h : a.Sound c) (hturn : a.turn fl t = .parse a') : a'.Moved t.isMinus := by
  rw [Parse.turn] at hturn
  by_cases hpost : a.postopreq
  · rw [if_pos hpost] at hturn
    by_cases htype : t.type = .PUNC
    · rw [if_pos htype] at hturn
      cases hclose : a.closing t with
      | none =>
        rw [hclose] at hturn
        cases hturn
      | some a1 =>
        rw [hclose] at hturn
        obtain rfl := Next.parse.inj hturn
        exact moved_closing h hpost hclose (by simp [Token.isMinus, htype])
    · rw [if_neg htype] at hturn
      cases hpatch : a.backpatch fl t with
      | none =>
        rw [hpatch] at hturn
        cases hturn
      | some a1 =>
        rw [hpatch] at hturn
        obtain rfl := Next.parse.inj hturn
        exact moved_backpatch h hpost hpatch
  · rw [if_neg hpost] at hturn
    exact moved_operand h (by simpa using hpost) hturn

/-- Only numbers stand behind the atom `-`. -/
theorem backpatch_eq_none (hint : t.type ≠ .INT) (hreal : t.type ≠ .REAL) :
    a.backpatch fl t = none := by
  have hneg : ∀ x : Operand F, negated fl t x = none := by
    intro x
    simp [negated, hint, hreal]
  have hlast : ∀ args : List (Operand F), negateLast fl t args = none := by
    intro args
    simp [negateLast, hneg]
  rw [Parse.backpatch]
  split <;> rw [hlast] <;> rfl

/-- The end leads to nothing. -/
theorem turn_end (h : t.isEnd) : a.turn fl t = .outcome .endOfFile ∨ a.turn fl t = .fail := by
  simp only [Token.isEnd, decide_eq_true_eq] at h
  rw [Parse.turn]
  split
  · right
    rcases h with h | h
    · rw [if_neg (by simp [h]), backpatch_eq_none (by simp [h]) (by simp [h])]
      rfl
    · rw [if_neg (by simp [h]), backpatch_eq_none (by simp [h]) (by simp [h])]
      rfl
  · rw [Parse.operand]
    rcases h with h | h
    · simp [h]
    · simp [h]

/-- What a token is that leads to something else than a parse or an error. -/
def Parse.Explains (a : Parse F) (t : Token F) : Next F → Prop
  | .parse _ => True
  | .functor =>
    a.postopreq = false ∧ (t.type = .FUNC ∨ t.type = .PUNC ∧ t.mark ≠ 91 ∧ t.mark ≠ 40)
  | .string => a.postopreq = false ∧ t.type = .LIST ∧ t.text ≠ []
  | .outcome o => o = .endOfFile ∨ o = .tooManyVariables
  | .fail => True

theorem explains_variable (name : Option (List UInt8)) (known : Option Nat) :
    a.Explains t (a.variableOperand name known) := by
  cases known with
  | some i => trivial
  | none =>
    rw [Parse.variableOperand]
    split
    · exact Or.inr rfl
    · trivial

theorem explains_operand (hpost : a.postopreq = false) : a.Explains t (a.operand fl t) := by
  rw [Parse.operand]
  cases htype : t.type with
  | PUNC =>
    simp only
    split
    · trivial
    · next hopen =>
      split
      · trivial
      · next hparen => exact ⟨hpost, Or.inr ⟨htype, hopen, hparen⟩⟩
  | FUNC => exact ⟨hpost, Or.inl htype⟩
  | VVAR =>
    simp only
    split
    · exact explains_variable _ _
    · exact explains_variable _ _
  | VAR => exact explains_variable _ _
  | INT =>
    simp only
    split <;> trivial
  | LIST =>
    simp only
    split
    · trivial
    · next htext => exact ⟨hpost, htype, htext⟩
  | EOF => exact Or.inl rfl
  | REAL => trivial
  | ATOM => trivial
  | VARFUNC => trivial
  | EOC => trivial
  | VVARFUNC => trivial
  | HPUNC => trivial
  | INTFUNC => trivial
  | REALFUNC => trivial

theorem explains_turn (a : Parse F) (fl : Doubles F) (t : Token F) :
    a.Explains t (a.turn fl t) := by
  rw [Parse.turn]
  cases hpost : a.postopreq with
  | false => exact explains_operand hpost
  | true =>
    rw [if_pos rfl]
    cases (if t.type = .PUNC then a.closing t else a.backpatch fl t) <;> trivial

/-- Strings that are not empty are read character by character. -/
theorem turn_string (h : a.turn fl t = .string) :
    a.postopreq = false ∧ t.type = .LIST ∧ t.text ≠ [] := by
  have hexplains := explains_turn a fl t
  rw [h] at hexplains
  exact hexplains

/-- Functors are in front of a parenthesis. -/
theorem turn_functor (h : a.turn fl t = .functor) :
    a.postopreq = false ∧ (t.type = .FUNC ∨ t.type = .PUNC ∧ t.mark ≠ 91 ∧ t.mark ≠ 40) := by
  have hexplains := explains_turn a fl t
  rw [h] at hexplains
  exact hexplains

/-- A token alone is not a term. -/
theorem turn_outcome {o : Outcome F} (h : a.turn fl t = .outcome o) :
    o = .endOfFile ∨ o = .tooManyVariables := by
  have hexplains := explains_turn a fl t
  rw [h] at hexplains
  exact hexplains

theorem Parse.Sound.base_eq_nil (h : a.Sound c) (hpost : a.postopreq = false) : a.base = [] := by
  by_cases hframes : a.frames = []
  · have hlen := h.inner hframes
    rw [hpost] at hlen
    exact List.length_eq_zero_iff.mp hlen
  · exact h.outer hframes

/-- In front of an operand the character behind the last token does not matter. -/
theorem Parse.Sound.operand (h : a.Sound c) (hpost : a.postopreq = false) (d : Int) :
    a.Sound d :=
  ⟨fun hp => absurd (hpost.symm.trans hp) nofun, h.outer, h.inner⟩

theorem Parse.Sound.count (h : a.Sound c) (n : Nat) : (a.count n).Sound c :=
  ⟨h.filled, h.outer, h.inner⟩

/-- The parse behind a functor and its parenthesis. -/
theorem sound_functor (h : a.Sound c) (hpost : a.postopreq = false) (name : List UInt8) (d : Int) :
    ({ a.enter name .FUNFUN with postopreq := d = 41 } : Parse F).Sound d := by
  refine ⟨?_, fun _ => h.base_eq_nil hpost, nofun⟩
  intro hd f fs hframes
  obtain ⟨rfl, -⟩ := List.cons.inj hframes
  exact Or.inr ⟨rfl, by simpa using hd⟩

end Moves

namespace ReadState

/-- A state in which a token is read. -/
structure Ready (s : ReadState τ F) (a : Parse F) : Prop where
  holds : s.Holds a
  mode : s.mode = .reading
  sound : a.Sound s.prevchar

/-- The place where a state reads on. -/
structure At (s : ReadState τ F) (c : Int) (st : τ) (mode : Mode F) : Prop where
  prevchar : s.prevchar = c
  stream : s.stream = st
  mode : s.mode = mode

variable (src : TokenSource τ F) (charset : Charset) (fl : Doubles F)

/-- What is left to do with a term that may be finished. -/
def Finishes (a : Parse F) (minus : Bool) (c : Int) (st : τ)
    (x : Except ReadStop (ReadState τ F)) : Prop :=
  if minus ∨ a.frames ≠ [] then ∃ s', x = .ok s' ∧ s'.Holds a ∧ s'.At c st .reading
  else
    match src.getToken c st with
    | .error e => x = .error (.token e)
    | .ok (t, st') =>
      if t.isEnd then ∃ y, a.base.head? = some y ∧ ∃ s', x = .ok s' ∧
        s'.At t.nextch st' (.finished (.term y.op)) ∧ s'.size = a.size ∧ s'.h = a.h
      else ∃ s', x = .ok s' ∧ s'.At t.nextch st' (.skipping t.type)

/-- What a step does with a token. -/
def Turns (a : Parse F) (t : Token F) (st : τ) (x : Except ReadStop (ReadState τ F)) :
    Next F → Prop
  | .parse a' => Finishes src a' t.isMinus t.nextch st x
  | .functor =>
    if t.nextch ≠ 40 then ∃ s', x = .ok s' ∧ s'.At t.nextch st (.skipping t.type)
    else
      match src.getToken 40 st with
      | .error e => x = .error (.token e)
      | .ok (par, st') => ∃ s', x = .ok s' ∧ s'.At par.nextch st' .reading ∧
          s'.Holds { a.enter t.text .FUNFUN with postopreq := par.nextch = 41 }
  | .string =>
    let r := charToCodepoint charset t.text
    t.text ≠ [] ∧ ∃ s', x = .ok s' ∧ s'.At t.nextch st (.string [r.1] r.2) ∧ s'.Holds (a.count 2)
  | .outcome o => ∃ s', x = .ok s' ∧ s'.At t.nextch st (.finished o)
  | .fail => ∃ s', x = .ok s' ∧ s'.At t.nextch st (.skipping t.type)

variable {src charset} {s : ReadState τ F} {a : Parse F} {t : Token F} {st : τ}

theorem length_entries (base : List (Operand F)) (fs : List (Frame F)) :
    (Parse.entries base fs).length = fs.length := by
  induction fs with
  | nil => rfl
  | cons f fs ih => simp [Parse.entries, ih]

theorem Holds.funtop_eq (h : s.Holds a) : s.funtop = a.frames.length := by
  rw [h.shows.funtop_eq, length_entries]

theorem Holds.withMode (h : s.Holds a) (mode : Mode F) :
    ({ s with mode := mode } : ReadState τ F).Holds a :=
  ⟨h.shows.of_eq rfl rfl rfl rfl, h.vars, h.size, h.h, h.postopreq⟩

variable (src) in
theorem Holds.finish (h : s.Holds a) (hmode : s.mode = .reading) (minus : Bool)
    (hbase : a.frames = [] → a.base ≠ []) :
    Finishes src a minus s.prevchar s.stream (s.finish src minus) := by
  have hfun := h.funtop_eq
  rw [Finishes, ReadState.finish, hmode]
  simp only
  by_cases hopen : minus = true ∨ a.frames ≠ []
  · have hopen' : minus = true ∨ s.funtop ≠ 0 := by
      rw [hfun]
      simpa using hopen
    rw [if_pos hopen, if_pos hopen']
    exact ⟨s, rfl, h, rfl, rfl, hmode⟩
  · have hopen' : ¬ (minus = true ∨ s.funtop ≠ 0) := by
      rw [hfun]
      simpa using hopen
    have hframes : a.frames = [] := by
      simp only [not_or, not_not] at hopen
      exact hopen.2
    rw [if_neg hopen, if_neg hopen', ReadState.getToken]
    cases hget : src.getToken s.prevchar s.stream with
    | error e => rfl
    | ok r =>
      obtain ⟨t, st'⟩ := r
      simp only [bind, Except.bind]
      by_cases hend : t.isEnd
      · obtain ⟨y, base, hy⟩ := List.exists_cons_of_ne_nil (hbase hframes)
        have hshows : Shows { s with stream := st', prevchar := t.nextch } ([] ++ y :: base)
            (Parse.entries a.base a.frames) := by
          have hs := h.shows
          rw [hframes, hy] at hs
          rw [hframes, hy]
          exact hs.of_eq rfl rfl rfl rfl
        have hread : readOp { s with stream := st', prevchar := t.nextch } 0 = .ok y :=
          hshows.readOp
        simp only [hend, not_true_eq_false, if_false, if_true, hread, hy]
        refine ⟨y, rfl, _, rfl, ⟨?_, ?_, rfl⟩, ?_, ?_⟩
        · show (if _ then _ else _ : ReadState τ F).prevchar = _
          split <;> rfl
        · show (if _ then _ else _ : ReadState τ F).stream = _
          split <;> rfl
        · show (if _ then _ else _ : ReadState τ F).size = _
          rw [← h.size]
          split <;> rfl
        · show (if _ then _ else _ : ReadState τ F).h = _
          rw [← h.h]
          split <;> rfl
      · simp only [hend]
        exact ⟨_, rfl, rfl, rfl, rfl⟩

theorem finish_of_ne (h : s.mode ≠ .reading) (minus : Bool) : s.finish src minus = .ok s := by
  rw [ReadState.finish]
  split
  · next hmode => exact absurd hmode h
  · rfl

theorem Follows.turns {o : Option (Parse F)} {x : Except ReadStop (ReadState τ F)}
    (h : s.Follows t x o) (hmode : s.mode = .reading) (hprev : s.prevchar = t.nextch)
    (hbase : ∀ a', o = some a' → a'.frames = [] → a'.base ≠ []) :
    Turns src charset a t s.stream (x >>= fun s' => s'.finish src t.isMinus) (.ofOption o) := by
  cases o with
  | none =>
    obtain ⟨s', rfl, hfails⟩ := h
    refine ⟨s', finish_of_ne (by simp [hfails.mode]) _, ?_, hfails.stream, hfails.mode⟩
    exact hfails.prevchar.trans hprev
  | some a' =>
    obtain ⟨s', rfl, hholds, hkept⟩ := h
    have hfin := hholds.finish src (hkept.mode.trans hmode) t.isMinus (hbase a' rfl)
    rw [hkept.prevchar.trans hprev, hkept.stream] at hfin
    exact hfin

theorem Leads.turns {o : Next F} {x : Except ReadStop (ReadState τ F)}
    (h : s.Leads src charset t x o) (hholds : s.Holds a) (hpost : s.postopreq = false)
    (hmode : s.mode = .reading) (hprev : s.prevchar = t.nextch)
    (hbase : ∀ a', o = .parse a' → a'.frames = [] → a'.base ≠ []) :
    Turns src charset a t s.stream (x >>= fun s' => s'.finish src t.isMinus) o := by
  cases o with
  | fail =>
    obtain ⟨s', rfl, hfails⟩ := h
    refine ⟨s', finish_of_ne (by simp [hfails.mode]) _, ?_, hfails.stream, hfails.mode⟩
    exact hfails.prevchar.trans hprev
  | parse a' =>
    obtain ⟨s', rfl, hholds', hkept⟩ := h
    have hfin := hholds'.finish src (hkept.mode.trans hmode) t.isMinus (hbase a' rfl)
    rw [hkept.prevchar.trans hprev, hkept.stream] at hfin
    exact hfin
  | outcome o =>
    obtain rfl : x = _ := h
    exact ⟨{ s with mode := .finished o }, rfl, hprev, rfl, rfl⟩
  | string =>
    obtain ⟨rfl, htext⟩ := h
    rw [ReadState.string, if_neg htext]
    exact ⟨htext, _, rfl, ⟨hprev, rfl, rfl⟩, (hholds.count 2).withMode _⟩
  | functor =>
    obtain rfl : x = _ := h
    obtain ⟨s', heq, hs', hkept⟩ := hholds.pushFun t.text .FUNFUN
    have hprev' := hkept.prevchar.trans hprev
    rw [ReadState.functor, heq]
    simp only [Turns, bind, Except.bind]
    by_cases hparen : t.nextch = 40
    · rw [if_neg (not_not_intro hparen), if_neg (not_not_intro hparen), ReadState.getToken,
        hprev', hkept.stream, hparen]
      cases hget : src.getToken 40 s.stream with
      | error e => rfl
      | ok r =>
        obtain ⟨par, st'⟩ := r
        simp only
        have hopened : ∀ s1 : ReadState τ F, s1.mode = .reading →
            s1.Holds { a.enter t.text .FUNFUN with postopreq := par.nextch = 41 } →
            s1.finish src t.isMinus = .ok s1 := by
          intro s1 hm hs1
          have hne : s1.funtop ≠ 0 := by
            rw [hs1.funtop_eq]
            simp [Parse.enter]
          rw [ReadState.finish, hm]
          exact if_pos (Or.inr hne)
        have hpost' := hs'.postopreq
        by_cases hclose : par.nextch = 41
        · have hholds' : ({ s' with stream := st', prevchar := par.nextch, postopreq := true } :
              ReadState τ F).Holds { a.enter t.text .FUNFUN with postopreq := par.nextch = 41 } :=
            ⟨hs'.shows.of_eq rfl rfl rfl rfl, hs'.vars, hs'.size, hs'.h, by simp [hclose]⟩
          simp only [if_pos hclose]
          exact ⟨_, hopened _ (hkept.mode.trans hmode) hholds', ⟨rfl, rfl, hkept.mode.trans hmode⟩,
            hholds'⟩
        · have hfalse : s'.postopreq = false := by
            rw [hpost', Parse.enter, ← hholds.postopreq, hpost]
          have hholds' : ({ s' with stream := st', prevchar := par.nextch } :
              ReadState τ F).Holds { a.enter t.text .FUNFUN with postopreq := par.nextch = 41 } :=
            ⟨hs'.shows.of_eq rfl rfl rfl rfl, hs'.vars, hs'.size, hs'.h, by simp [hclose, hfalse]⟩
          simp only [if_neg hclose]
          exact ⟨_, hopened _ (hkept.mode.trans hmode) hholds', ⟨rfl, rfl, hkept.mode.trans hmode⟩,
            hholds'⟩
    · rw [if_pos hparen, if_pos hparen]
      exact ⟨s'.fail t.type, rfl, hprev', hkept.stream, rfl⟩

theorem getElem?_of_readFun {j : Nat} {e : FunEntry} (h : s.readFun j = .ok e) :
    s.funstk[j]? = some e := by
  rw [ReadState.readFun] at h
  split at h
  · next heq =>
    obtain rfl := Except.ok.inj h
    exact heq
  · cases h

section Branches

variable (hmode : s.mode = .reading) (hget : src.getToken s.prevchar s.stream = .ok (t, st))
include hmode hget

/-- A step with a punctuation mark behind an operand. -/
theorem step_closing (hp : s.postopreq = true) (htype : t.type = .PUNC) :
    s.step src charset fl = closing { s with stream := st, prevchar := t.nextch } t >>=
      fun s' => s'.finish src t.isMinus := by
  have hgetToken : s.getToken src = .ok (t, { s with stream := st, prevchar := t.nextch }) := by
    rw [ReadState.getToken, hget]
  conv_lhs => rw [ReadState.step, hmode]
  simp only [hgetToken, bind, Except.bind, hp, htype, if_true]

/-- A step with another token behind an operand. -/
theorem step_backpatch (hp : s.postopreq = true) (htype : t.type ≠ .PUNC) :
    s.step src charset fl = backpatch { s with stream := st, prevchar := t.nextch } fl t >>=
      fun s' => s'.finish src t.isMinus := by
  have hgetToken : s.getToken src = .ok (t, { s with stream := st, prevchar := t.nextch }) := by
    rw [ReadState.getToken, hget]
  conv_lhs => rw [ReadState.step, hmode]
  simp only [hgetToken, bind, Except.bind, hp, htype, if_true, if_false]

/-- A step with a token where an operand has to be. -/
theorem step_operand (hp : s.postopreq = false) :
    s.step src charset fl =
      operand src charset fl { s with stream := st, prevchar := t.nextch } t >>=
        fun s' => s'.finish src t.isMinus := by
  have hgetToken : s.getToken src = .ok (t, { s with stream := st, prevchar := t.nextch }) := by
    rw [ReadState.getToken, hget]
  conv_lhs => rw [ReadState.step, hmode]
  simp only [hgetToken, bind, Except.bind, hp, if_false, Bool.false_eq_true]

end Branches

variable (src charset) in
/-- What a step does where a token is read. -/
theorem Ready.step (h : s.Ready a) (hget : src.getToken s.prevchar s.stream = .ok (t, st))
    (hfits : Fits charset s t) :
    Turns src charset a t st (s.step src charset fl) (a.turn fl t) := by
  have hholds : ({ s with stream := st, prevchar := t.nextch } : ReadState τ F).Holds a :=
    ⟨h.holds.shows.of_eq rfl rfl rfl rfl, h.holds.vars, h.holds.size, h.holds.h,
      h.holds.postopreq⟩
  have hpost := h.holds.postopreq
  have hmoved : ∀ a', a.turn fl t = .parse a' → a'.frames = [] → a'.base ≠ [] := by
    intro a' ha' hframes
    have hlen := ((moved_turn h.sound ha').inner hframes).1
    rintro hnil
    rw [hnil] at hlen
    cases hlen
  have hfun := h.holds.funtop_eq
  by_cases hp : s.postopreq
  · have hp' : a.postopreq = true := hpost.symm.trans hp
    have hfilled := h.sound.filled hp'
    rw [Parse.turn, if_pos hp'] at hmoved ⊢
    by_cases htype : t.type = .PUNC
    · rw [if_pos htype] at hmoved ⊢
      rw [step_closing fl h.mode hget hp htype]
      refine (hholds.closing hp ?_ ?_ ?_).turns h.mode rfl ?_
      · intro hmark hframes
        apply hfits.opened hp htype hmark
        rw [hfun, hframes]
        rfl
      · intro f fs hframes
        rcases hfilled f fs hframes with hargs | ⟨hfunfun, hprev⟩
        · exact Or.inl hargs
        · rw [hprev] at hget
          exact Or.inr ⟨hfunfun, by rw [Token.mark, (src.closeParen hget).2]; rfl⟩
      · intro f fs hframes hmark hfunfun
        by_cases hargs : f.args = []
        · obtain ⟨-, -, hread⟩ := h.holds.pop hframes
          have hlen := h.holds.optop_eq
          rw [hframes, Parse.operands, hargs, List.append_nil] at hlen
          exact Or.inr (hfits.room hp htype hmark _ (getElem?_of_readFun hread) hfunfun hlen.symm)
        · exact Or.inl hargs
      · intro a' ha'
        apply hmoved
        rw [ha', Next.ofOption]
    · rw [if_neg htype] at hmoved ⊢
      rw [step_backpatch fl h.mode hget hp htype]
      refine (hholds.backpatch fl ?_ ?_).turns h.mode rfl ?_
      · intro hnil
        apply hfits.pending hp htype
        rw [h.holds.optop_eq, hnil]
        rfl
      · intro f fs hframes
        rcases hfilled f fs hframes with hargs | ⟨-, hprev⟩
        · exact Or.inl hargs
        · rw [hprev] at hget
          exact Or.inr ((src.closeParen hget).1.resolve_left fun hpunc => htype hpunc.1)
      · intro a' ha'
        apply hmoved
        rw [ha', Next.ofOption]
  · have hp' : a.postopreq = false := by
      rw [← hpost]
      simpa using hp
    rw [Parse.turn, if_neg (by simp [hp'])] at hmoved ⊢
    rw [step_operand fl h.mode hget (by simpa using hp)]
    exact (hholds.operand fl (src.bracket hget)).turns hholds (by simpa using hp) h.mode rfl hmoved

end ReadState

end XSBEngine.Reading
