import XSBEngine.Reading.CanonicalSteps
import XSBEngine.Reading.TokenProgress

/-!
# The canonical reader stays within its stacks

When `read_canonical_term` comes to an end and uses only entries that `opstk` and `funstk` have,
`XSB/emu/io_builtins_xsb.c:911–1290` and `XSB/emu/token_xsb.c:446–512`.
-/

namespace XSBEngine.Reading

open Library

variable {τ F : Type}

theorem utf8CharToCodepoint_shorter {string : List UInt8} (h : string ≠ []) :
    (utf8CharToCodepoint string).2.length < string.length := by
  cases string with
  | nil => exact absurd rfl h
  | cons b rest =>
    have hdrop : ∀ k, (rest.drop k).length < (b :: rest).length := by
      intro k
      rw [List.length_drop, List.length_cons]
      omega
    have hrest : rest.length < (b :: rest).length := Nat.lt_succ_self _
    simp only [utf8CharToCodepoint]
    repeat' split
    all_goals first | exact hdrop _ | exact hrest

/-- Each character of a string takes bytes, apart from those of `LATIN_1`. -/
theorem charToCodepoint_shorter {charset : Charset} (hcharset : charset ≠ .latin1)
    {string : List UInt8} (h : string ≠ []) :
    (charToCodepoint charset string).2.length < string.length := by
  cases charset with
  | latin1 => exact absurd rfl hcharset
  | utf8 => exact utf8CharToCodepoint_shorter h
  | cp1252 =>
    have := List.length_pos_iff.mpr h
    simp only [charToCodepoint, List.length_tail]
    omega

namespace ReadState

/-- A state in the loop over the characters of a string. -/
structure Copies (s : ReadState τ F) (a : Parse F) (codes : List Int) (rest : List UInt8) :
    Prop where
  holds : s.Holds a
  mode : s.mode = .string codes rest
  sound : a.Sound s.prevchar
  postopreq : a.postopreq = false

variable (src : TokenSource τ F) (charset : Charset) (fl : Doubles F)

/-- What holds of each state of a call. -/
def Valid (s : ReadState τ F) : Prop :=
  match s.mode with
  | .reading => ∃ a, s.Ready a
  | .string codes rest => charset ≠ .latin1 ∧ ∃ a, s.Copies a codes rest
  | _ => True

/-- What becomes smaller with each step: the tokens that are left, then the characters of the
string. -/
def rank (s : ReadState τ F) : Nat × Nat :=
  let n := src.size s.prevchar s.stream + 1
  match s.mode with
  | .reading => (n, 0)
  | .string _ rest => (n, rest.length + 1)
  | .skipping type => if type = .EOC ∨ type = .EOF then (0, 1) else (n, 0)
  | .finished _ => (0, 0)

/-- The order in which it becomes smaller. -/
abbrev Smaller : Nat × Nat → Nat × Nat → Prop := Prod.Lex (· < ·) (· < ·)

/-- A step that goes on, or is ended by a token that cannot be read. -/
def Proceeds (r : Nat × Nat) (x : Except ReadStop (ReadState τ F)) : Prop :=
  (∃ s', x = .ok s' ∧ s'.Valid charset ∧ Smaller (s'.rank src) r) ∨
    ∃ e, x = .error e ∧ e ≠ .stack ∧ e ≠ .token .unfinished

variable {src charset} {s s' : ReadState τ F} {a : Parse F} {t : Token F} {c : Int} {st : τ}
  {r : Nat × Nat} {x : Except ReadStop (ReadState τ F)}

theorem proceeds_finished {o : Outcome F} (hr : r.1 ≠ 0) (hx : x = .ok s')
    (hat : s'.At c st (.finished o)) : Proceeds src charset r x := by
  refine Or.inl ⟨s', hx, ?_, ?_⟩
  · rw [Valid, hat.mode]
    trivial
  · rw [rank, hat.mode]
    exact Prod.Lex.left _ _ (Nat.pos_of_ne_zero hr)

theorem proceeds_skipping {type : TokenType} (hx : x = .ok s') (hat : s'.At c st (.skipping type))
    (hr : r.1 ≠ 0) (hsize : ¬ (type = .EOC ∨ type = .EOF) → src.size c st + 1 < r.1) :
    Proceeds src charset r x := by
  refine Or.inl ⟨s', hx, ?_, ?_⟩
  · rw [Valid, hat.mode]
    trivial
  · rw [rank, hat.mode, hat.prevchar, hat.stream]
    simp only
    split
    · exact Prod.Lex.left _ _ (Nat.pos_of_ne_zero hr)
    · next hend => exact Prod.Lex.left _ _ (hsize hend)

theorem proceeds_error {e : Stop} (h : src.getToken c st = .error e) (hx : x = .error (.token e)) :
    Proceeds src charset r x := by
  refine Or.inr ⟨_, hx, nofun, ?_⟩
  rintro heq
  obtain rfl := ReadStop.token.inj heq
  exact src.finishes c st h

theorem not_isEnd {t : Token F} (h : ¬ (t.type = .EOC ∨ t.type = .EOF)) : ¬ t.isEnd := by
  simpa [Token.isEnd] using h

theorem proceeds_reading (hx : x = .ok s') (hat : s'.At c st .reading) (hholds : s'.Holds a)
    (hsound : a.Sound c) (hlt : Smaller (src.size c st + 1, 0) r) : Proceeds src charset r x := by
  refine Or.inl ⟨s', hx, ?_, ?_⟩
  · rw [Valid, hat.mode]
    refine ⟨a, hholds, hat.mode, ?_⟩
    rw [hat.prevchar]
    exact hsound
  · rw [rank, hat.mode, hat.prevchar, hat.stream]
    exact hlt

theorem Finishes.proceeds {minus : Bool} (h : Finishes src a minus c st x)
    (hmoved : a.Moved minus) (hlt : Smaller (src.size c st + 1, 0) r) :
    Proceeds src charset r x := by
  have hle : src.size c st + 1 ≤ r.1 := by
    rcases Prod.lex_def.mp hlt with h | ⟨h, -⟩
    · exact Nat.le_of_lt h
    · exact Nat.le_of_eq h
  rw [Finishes] at h
  split at h
  · next hopen =>
    obtain ⟨s', hx, hholds, hat⟩ := h
    exact proceeds_reading hx hat hholds (hmoved.sound hopen c) hlt
  · split at h
    · next e hget => exact proceeds_error hget h
    · next t st' hget =>
      split at h
      · obtain ⟨y, -, s', hx, hat, -⟩ := h
        exact proceeds_finished (by omega) hx hat
      · obtain ⟨s', hx, hat⟩ := h
        refine proceeds_skipping hx hat (by omega) fun hend => ?_
        have := src.shorter hget (not_isEnd hend)
        omega

/-- A step that reads a token. -/
theorem Ready.proceeds (h : s.Ready a)
    (hfits : ∀ t st, src.getToken s.prevchar s.stream = .ok (t, st) → Fits charset s t) :
    Proceeds src charset (s.rank src) (s.step src charset fl) := by
  have hrank : s.rank src = (src.size s.prevchar s.stream + 1, 0) := by
    rw [rank, h.mode]
  rw [hrank]
  cases hget : src.getToken s.prevchar s.stream with
  | error e =>
    refine proceeds_error hget ?_
    rw [ReadState.step, h.mode]
    simp only [ReadState.getToken, hget]
    rfl
  | ok r =>
    obtain ⟨t, st⟩ := r
    have hturns := h.step src charset fl hget (hfits t st hget)
    have hshorter : ¬ (t.type = .EOC ∨ t.type = .EOF) →
        src.size t.nextch st + 1 < src.size s.prevchar s.stream + 1 := fun hend =>
      Nat.succ_lt_succ (src.shorter hget (not_isEnd hend))
    have hnext : a.turn fl t ≠ .outcome .endOfFile → a.turn fl t ≠ .fail →
        Smaller (src.size t.nextch st + 1, 0) (src.size s.prevchar s.stream + 1, 0) := by
      intro heof hfail
      refine Prod.Lex.left _ _ (hshorter fun hend => ?_)
      have hisEnd : t.isEnd := by simpa [Token.isEnd] using hend
      rcases turn_end hisEnd with h | h
      · exact heof h
      · exact hfail h
    cases hturn : a.turn fl t with
    | parse a' =>
      rw [hturn] at hturns hnext
      exact hturns.proceeds (moved_turn h.sound hturn) (hnext (by rintro ⟨⟩) (by rintro ⟨⟩))
    | functor =>
      rw [hturn] at hturns hnext
      have hlt := hnext (by rintro ⟨⟩) (by rintro ⟨⟩)
      have hsize : src.size t.nextch st + 1 < src.size s.prevchar s.stream + 1 := by
        rcases Prod.lex_def.mp hlt with h | ⟨-, h⟩
        · exact h
        · exact absurd h (Nat.lt_irrefl 0)
      simp only [Turns] at hturns
      by_cases hparen : t.nextch = 40
      · rw [if_neg (not_not_intro hparen)] at hturns
        rw [hparen] at hsize
        cases hget' : src.getToken 40 st with
        | error e =>
          rw [hget'] at hturns
          exact proceeds_error hget' hturns
        | ok r =>
          obtain ⟨par, st'⟩ := r
          rw [hget'] at hturns
          obtain ⟨s', hx, hat, hholds⟩ := hturns
          refine proceeds_reading hx hat hholds ?_ (Prod.Lex.left _ _ ?_)
          · exact sound_functor h.sound (turn_functor hturn).1 _ _
          · have := src.shorter hget' (by simp [Token.isEnd, (src.openParen hget').1])
            omega
      · rw [if_pos hparen] at hturns
        obtain ⟨s', hx, hat⟩ := hturns
        exact proceeds_skipping hx hat (Nat.succ_ne_zero _) fun _ => hsize
    | string =>
      rw [hturn] at hturns hnext
      obtain ⟨-, s', hx, hat, hholds⟩ := hturns
      obtain ⟨hpost, htype, htext⟩ := turn_string hturn
      refine Or.inl ⟨s', hx, ?_, ?_⟩
      · rw [Valid, hat.mode]
        refine ⟨(hfits t st hget).advances (h.holds.postopreq.trans hpost) htype htext, ?_⟩
        exact ⟨a.count 2, hholds, hat.mode, (h.sound.operand hpost _).count 2, hpost⟩
      · rw [rank, hat.mode, hat.prevchar, hat.stream]
        rcases Prod.lex_def.mp (hnext (by rintro ⟨⟩) (by rintro ⟨⟩)) with h | ⟨-, h⟩
        · exact Prod.Lex.left _ _ h
        · exact absurd h (Nat.lt_irrefl 0)
    | outcome o =>
      rw [hturn] at hturns
      obtain ⟨s', hx, hat⟩ := hturns
      exact proceeds_finished (Nat.succ_ne_zero _) hx hat
    | fail =>
      rw [hturn] at hturns
      obtain ⟨s', hx, hat⟩ := hturns
      exact proceeds_skipping hx hat (Nat.succ_ne_zero _) hshorter

variable (src charset) in
/-- The end of a string. -/
theorem Copies.finish {codes : List Int} (h : s.Copies a codes []) :
    Finishes src (a.push ⟨.FUNC, .listOf (codes.map .integer) .nil⟩) false s.prevchar s.stream
      (s.step src charset fl) := by
  have hholds := h.holds.withMode .reading
  obtain ⟨s', heq, hholds', hkept⟩ := hholds.pushOp ⟨.FUNC, .listOf (codes.map .integer) .nil⟩
  have hbase := h.sound.base_eq_nil h.postopreq
  have hmoved : (a.push ⟨.FUNC, .listOf (codes.map .integer) .nil⟩).Moved false :=
    moved_push h.sound.outer (fun _ => hbase) _
  have hfin := hholds'.finish src hkept.mode false fun hframes hnil => by
    have hlen := (hmoved.inner hframes).1
    rw [hnil] at hlen
    cases hlen
  rw [hkept.prevchar, hkept.stream] at hfin
  rw [ReadState.step, h.mode]
  simp only [if_true, heq]
  exact hfin

variable (src charset) in
/-- The next character of a string. -/
theorem Copies.next {codes : List Int} {rest : List UInt8} (h : s.Copies a codes rest)
    (hrest : rest ≠ []) :
    let r := charToCodepoint charset rest
    ∃ s', s.step src charset fl = .ok s' ∧ s'.Copies (a.count 2) (codes ++ [r.1]) r.2 ∧
      s'.prevchar = s.prevchar ∧ s'.stream = s.stream := by
  refine ⟨_, ?_, ⟨(h.holds.count 2).withMode _, rfl, h.sound.count 2, h.postopreq⟩, rfl, rfl⟩
  rw [ReadState.step, h.mode]
  exact if_neg hrest

theorem Copies.proceeds {codes : List Int} {rest : List UInt8} (h : s.Copies a codes rest)
    (hcharset : charset ≠ .latin1) :
    Proceeds src charset (s.rank src) (s.step src charset fl) := by
  have hrank : s.rank src = (src.size s.prevchar s.stream + 1, rest.length + 1) := by
    rw [rank, h.mode]
  rw [hrank]
  by_cases hrest : rest = []
  · rw [hrest] at h ⊢
    refine (h.finish src charset fl).proceeds (moved_push h.sound.outer (fun _ => ?_) _) ?_
    · exact h.sound.base_eq_nil h.postopreq
    · exact Prod.Lex.right _ (Nat.succ_pos _)
  · obtain ⟨s', hx, hcopies, hprev, hstream⟩ := h.next src charset fl hrest
    refine Or.inl ⟨s', hx, ?_, ?_⟩
    · rw [Valid, hcopies.mode]
      exact ⟨hcharset, _, hcopies⟩
    · rw [rank, hcopies.mode, hprev, hstream]
      exact Prod.Lex.right _ (Nat.succ_lt_succ (charToCodepoint_shorter hcharset hrest))

/-- A step behind an error. -/
theorem proceeds_skip {type : TokenType} (h : s.mode = .skipping type) :
    Proceeds src charset (s.rank src) (s.step src charset fl) := by
  have hstep : s.step src charset fl =
      if type = .EOC ∨ type = .EOF then .ok { s with mode := .finished .formatError }
      else s.getToken src >>= fun r => .ok (r.2.fail r.1.type) := by
    rw [ReadState.step, h]
    rfl
  rw [hstep, rank, h]
  simp only
  split
  · refine Or.inl ⟨_, rfl, trivial, ?_⟩
    exact Prod.Lex.right _ (Nat.succ_pos 0)
  · rw [ReadState.getToken]
    cases hget : src.getToken s.prevchar s.stream with
    | error e => exact proceeds_error hget rfl
    | ok r =>
      obtain ⟨t, st⟩ := r
      refine proceeds_skipping rfl ⟨rfl, rfl, rfl⟩ (Nat.succ_ne_zero _) fun hend' => ?_
      exact Nat.succ_lt_succ (src.shorter hget (not_isEnd hend'))

variable (src charset) in
/-- The next token fits in each state of a call. -/
def AllFit (s : ReadState τ F) : Prop :=
  ∀ s', (readCanonicalTerm src charset fl).Reaches s s' → s'.mode = .reading →
    ∀ t st, src.getToken s'.prevchar s'.stream = .ok (t, st) → Fits charset s' t

theorem Valid.proceeds (h : s.Valid charset)
    (hhalted : (readCanonicalTerm src charset fl).halted s = false)
    (hfits : s.mode = .reading →
      ∀ t st, src.getToken s.prevchar s.stream = .ok (t, st) → Fits charset s t) :
    Proceeds src charset (s.rank src) (s.step src charset fl) := by
  cases hmode : s.mode with
  | reading =>
    rw [Valid, hmode] at h
    obtain ⟨a, ha⟩ := h
    exact ha.proceeds fl (hfits hmode)
  | string codes rest =>
    rw [Valid, hmode] at h
    obtain ⟨hcharset, a, ha⟩ := h
    exact ha.proceeds fl hcharset
  | skipping type => exact proceeds_skip fl hmode
  | finished o =>
    simp only [readCanonicalTerm, hmode] at hhalted
    cases hhalted

theorem ready_start (old : CanonicalStacks F) (st : τ) :
    (ReadState.start old st).Ready ⟨[], [], [], 0, 0, false⟩ := by
  have hsized := old.sized
  refine ⟨⟨⟨rfl, rfl, rfl, rfl, ?_, ?_⟩, rfl, rfl, rfl, rfl⟩, rfl, nofun, nofun, fun _ => rfl⟩
  · show 0 < List.length (if _ then _ else _)
    split
    · rw [List.length_replicate]
      decide
    · next hold =>
      have := (hsized.resolve_left hold).1
      rw [INIT_STK_SIZE] at this
      omega
  · show 0 < List.length (if _ then _ else _)
    split
    · rw [List.length_replicate]
      decide
    · next hold =>
      have := (hsized.resolve_left hold).2
      rw [INIT_STK_SIZE] at this
      omega

/-- Without room in the stacks an access is outside of them. -/
theorem Ready.step_outside (h : s.Ready a)
    (hget : src.getToken s.prevchar s.stream = .ok (t, st)) (hnot : ¬ Fits charset s t) :
    s.step src charset fl = .error .stack ∨ charset = .latin1 ∧
      ∃ s' codes rest, s.step src charset fl = .ok s' ∧ s'.mode = .string codes rest ∧
        rest ≠ [] := by
  by_contra hcontra
  rw [not_or] at hcontra
  obtain ⟨hstack, hstring⟩ := hcontra
  apply hnot
  refine ⟨?_, ?_, ?_, ?_⟩
  · intro hp htype hmark hfun
    apply hstack
    rw [step_closing fl h.mode hget hp htype, ReadState.closing]
    rcases hmark with hmark | hmark | hmark <;> simp [hmark, hfun, bind, Except.bind]
  · intro hp htype hmark e he hfunfun hop
    by_contra hfull
    apply hstack
    rw [step_closing fl h.mode hget hp htype, ReadState.closing, if_pos hmark]
    split
    · rfl
    · have hread : readFun { s with stream := st, prevchar := t.nextch, funtop := s.funtop - 1 }
          (s.funtop - 1) = .ok e := by
        rw [ReadState.readFun]
        simp only [he]
      have hfull' : ∀ n (u : Term F), build { s with
          stream := st, prevchar := t.nextch, funtop := s.funtop - 1 } s.optop n u =
            .error .stack := fun n u => build_full (s := { s with
              stream := st, prevchar := t.nextch, funtop := s.funtop - 1 })
                (Nat.not_lt.mp hfull) n u
      have hargs : readOps { s with stream := st, prevchar := t.nextch, funtop := s.funtop - 1 }
          s.optop s.optop = .ok ((s.opstk.take s.optop).drop s.optop) :=
        if_pos (Or.inl (Nat.le_refl _))
      simp only [hread, bind, Except.bind, hfunfun, if_true, ReadState.closeFun, hop,
        Nat.sub_self]
      rw [if_neg (by simp), hargs]
      simp only [hfull']
  · intro hp htype hop
    apply hstack
    rw [step_backpatch fl h.mode hget hp htype, ReadState.backpatch, if_pos hop]
    rfl
  · intro hp htype htext hlatin
    apply hstring
    refine ⟨hlatin, { s with
      stream := st, prevchar := t.nextch, size := s.size + 2, h := s.h + 2,
      mode := .string [(charToCodepoint .latin1 t.text).1] t.text }, _, _, ?_, rfl, htext⟩
    rw [step_operand fl h.mode hget hp, ReadState.operand, htype]
    simp only [ReadState.string, if_neg htext, hlatin, charToCodepoint]
    rfl

/-- The loop over the characters of a string of `LATIN_1` does not end. -/
theorem not_ends_of_latin1 {P : ReadState τ F → Prop} {Q : ReadStop → Prop} {codes : List Int}
    {rest : List UInt8} (hmode : s.mode = .string codes rest) (hrest : rest ≠ []) :
    ¬ (readCanonicalTerm src .latin1 fl).Ends s P Q := by
  rintro ⟨n, hn⟩
  induction n generalizing s codes with
  | zero =>
    rcases hn with ⟨s', heq, hhalted, -⟩ | ⟨e, heq, -⟩
    · obtain rfl := Except.ok.inj heq
      simp [readCanonicalTerm, hmode] at hhalted
    · cases heq
  | succ n ih =>
    have hhalted : (readCanonicalTerm src .latin1 fl).halted s = false := by
      simp [readCanonicalTerm, hmode]
    have hstep : (readCanonicalTerm src .latin1 fl).step s = .ok { s with
        size := s.size + 2, h := s.h + 2,
        mode := .string (codes ++ [(charToCodepoint .latin1 rest).1]) rest } := by
      show s.step src .latin1 fl = _
      rw [ReadState.step, hmode]
      exact if_neg hrest
    rw [Machine.run_succ hhalted, hstep] at hn
    exact ih rfl hn

/-- The calls that end within the stacks. -/
abbrev EndsInside (src : TokenSource τ F) (charset : Charset) (fl : Doubles F)
    (s : ReadState τ F) : Prop :=
  (readCanonicalTerm src charset fl).Ends s (fun _ => True)
    fun e => e ≠ .stack ∧ e ≠ .token .unfinished

theorem halted_reading (h : s.mode = .reading) :
    (readCanonicalTerm src charset fl).halted s = false := by
  simp [readCanonicalTerm, h]

/-- A call that ends within the stacks has room for the next token. -/
theorem fits_of_endsInside (h : s.Valid charset) (hends : EndsInside src charset fl s)
    (hmode : s.mode = .reading) (hget : src.getToken s.prevchar s.stream = .ok (t, st)) :
    Fits charset s t := by
  rw [Valid, hmode] at h
  obtain ⟨a, ha⟩ := h
  by_contra hnot
  rcases ha.step_outside fl hget hnot with hstep | ⟨rfl, s', codes, rest, hstep, hstring, hrest⟩
  · exact (hends.of_error (halted_reading fl hmode) hstep).1 rfl
  · exact not_ends_of_latin1 fl hstring hrest (hends.step (halted_reading fl hmode) hstep)

variable (src charset) in
/-- A call comes to an end without an access outside of the stacks exactly if in each of its states
the stacks have room for what the next token does. -/
theorem ends_iff_allFit (old : CanonicalStacks F) (st : τ) :
    EndsInside src charset fl (ReadState.start old st) ↔
      AllFit src charset fl (ReadState.start old st) := by
  have hvalid : (ReadState.start old st).Valid charset := ⟨_, ready_start old st⟩
  constructor
  · intro hends s' hr hmode t st' hget
    have hall : s'.Valid charset ∧ EndsInside src charset fl s' := by
      refine hr.invariant (I := fun s => s.Valid charset ∧ EndsInside src charset fl s)
        ⟨hvalid, hends⟩ ?_
      rintro s₁ s2 ⟨h1, h2⟩ hhalted hstep
      refine ⟨?_, h2.step hhalted hstep⟩
      rcases h1.proceeds fl hhalted fun hm t st hg => fits_of_endsInside fl h1 h2 hm hg with
        ⟨s3, heq, hs3, -⟩ | ⟨e, heq, -⟩
      · obtain rfl := Except.ok.inj (hstep.symm.trans heq)
        exact hs3
      · cases hstep.symm.trans heq
    exact fits_of_endsInside fl hall.1 hall.2 hmode hget
  · intro hfit
    have hwf : WellFounded Smaller := (Prod.lex Nat.lt_wfRel Nat.lt_wfRel).wf
    refine Machine.ends_of_wellFounded (I := fun s => s.Valid charset ∧
      (readCanonicalTerm src charset fl).Reaches (ReadState.start old st) s) hwf (rank src) ?_
      (fun _ _ _ => trivial) ⟨hvalid, .refl _⟩
    rintro s ⟨hs, hr⟩ hhalted
    rcases hs.proceeds fl hhalted (hfit s hr) with ⟨s', heq, hs', hlt⟩ | ⟨e, heq, he⟩
    · exact Or.inl ⟨s', heq, ⟨hs', hr.trans (.step hhalted heq (.refl s'))⟩, hlt⟩
    · exact Or.inr ⟨e, heq, he⟩

end ReadState

/-- `read_canonical_term` comes to an end for a stream of characters, and uses only entries of
`opstk` and `funstk`, exactly if in each of its states the stacks have room for what the next token
does. -/
theorem readCanonicalTerm_ends_iff {σ : Type} (src : CharSource σ) (charset : Charset)
    (fl : Doubles F) (old : CanonicalStacks F) (st : σ) (b : StrBuff) (lastc : Int) :
    ReadState.EndsInside (tokens src charset fl) charset fl
        (ReadState.start old (st, b, lastc)) ↔
      ReadState.AllFit (tokens src charset fl) charset fl (ReadState.start old (st, b, lastc)) :=
  ReadState.ends_iff_allFit (tokens src charset fl) charset fl old (st, b, lastc)

/-- Behind a minus sign a closing parenthesis is looked for in front of `funstk`. -/
theorem minus_paren_outside :
    ¬ ReadState.EndsInside
      (tokens fileSource .utf8 (⟨fun _ => 0, id, fun x _ _ => x, Int.neg⟩ : Doubles Int)) .utf8
      ⟨fun _ => 0, id, fun x _ _ => x, Int.neg⟩
      (ReadState.start ⟨[], [], Or.inl rfl⟩ ([45, 41, 46, 10], ⟨[], 10000, by decide⟩, 32)) := by
  intro h
  have h' := h.step rfl rfl
  exact (h'.of_error rfl rfl).1 rfl

end XSBEngine.Reading
