import Mathlib
import XSBEngine.Interning.Loop
import XSBEngine.Library.System

/-!
# Runs of `intern_term`

A call returns the term with its ground subterms interned, in the room that `intern_term_size`
tells, just if there are areas for their records. Over all calls, ground compound terms that are
equal have one record.
-/

namespace XSBEngine.Interning

open Library List Option PrefixTerms

/-! ### One call -/

/-- What `intern_term` returns for a term. -/
structure Returned (w : Words) (n : Nat) (m : InternState) (t : Tuple Root Var) (c : Cell)
    (m' : InternState) : Prop where
  reads : Reads w n m'.heap m'.interns m.hreg (fun a => m.hreg ≤ a ∧ a < m'.hreg) NonGround [c] t
  direct : Derefs m'.heap m.hreg n c c
  heap : ∀ a < m.hreg, m'.heap a = m.heap a
  interns : InternsOK w m'.interns
  ext : Extends m.interns m'.interns
  used : m'.interns.used = m.interns.used ∪ (groundArities w t).filter (256 < ·)

/-- The call needs no more room than `intern_term_size` tells, in none of its states. -/
def Roomy (w : Words) (n : Nat) (m : InternState) (term : Cell) (m' : InternState) : Prop :=
  ∀ d size, (deref m.heap n term).bind (internTermSize w n m.interns m.heap d) = some size →
    m'.hreg ≤ m.hreg + size ∧ ∀ m₁ k mk, startIntern w n m term = some (.running m₁) →
      m₁.after w n k = some mk → mk.hreg ≤ m.hreg + size

variable {w : Words} {n : Nat} {m m₁ m' : InternState} {term c : Cell} {t : Tuple Root Var}

/-- A term that is returned at once. -/
theorem returned_at_once (hOK : InternsOK w m.interns)
    (hderef : Derefs m.heap m.hreg (n + 1) term c)
    (hstart : startIntern w (n + 1) m term = some (.done c m))
    (hreads : Reads w (n + 1) m.heap m.interns m.hreg (fun a => m.hreg ≤ a ∧ a < m.hreg) NonGround
      [c] t)
    (hused : m.interns.used ∪ (groundArities w t).filter (256 < ·) = m.interns.used) :
    ∃ fuel c m', internTerm w (n + 1) fuel m term = some (.ok (c, m')) ∧
      Returned w (n + 1) m t c m' ∧ Roomy w (n + 1) m term m' := by
  refine ⟨0, c, m, ?_, ⟨hreads, hderef.self, fun _ _ => rfl, hOK, .refl _, hused.symm⟩, ?_⟩
  · rw [internTerm, hstart]
    rfl
  · refine fun d size _ => ⟨Nat.le_add_right _ _, fun m₁ k mk hrun => ?_⟩
    rw [hstart] at hrun
    cases hrun

/-- A term that the loop copies. -/
theorem returned_compound {tag : StrTag} {a : Nat} {g : Root} {targs : Tuple Root Var}
    (hOK : InternsOK w m.interns)
    (hderef : Derefs m.heap m.hreg (n + 1) term (.str tag (.heap a)))
    (hheader : header m.heap tag a = some g) (hbelow : ∀ i < w.reclen g, a + i < m.hreg)
    (hargs : Reads w (n + 1) m.heap m.interns m.hreg (· < m.hreg) (fun _ => True)
      (w.args m.heap g a) targs) :
    (Fits m.interns.used (groundArities w (.app g targs .nil)) → ∃ fuel c m',
      internTerm w (n + 1) fuel m term = some (.ok (c, m')) ∧
        Returned w (n + 1) m (.app g targs .nil) c m' ∧ Roomy w (n + 1) m term m') ∧
    (¬ Fits m.interns.used (groundArities w (.app g targs .nil)) → ∃ fuel msg,
      internTerm w (n + 1) fuel m term = some (.error msg)) := by
  have hm : LoopOK w m.heap m.interns m.hreg m := ⟨fun _ _ => rfl, hOK, .refl _⟩
  obtain ⟨m₁, hpush, he⟩ : ∃ m₁, InternState.push w { m with frames := [] } tag a = some m₁ ∧
      Entered w m.heap m.interns m.hreg m [] tag a g m₁ := enter hm le_rfl hheader hbelow
  have hnot : m.interns.isinternstr w (.str tag (.heap a)) = some false := by cases tag <;> rfl
  have hstart : startIntern w (n + 1) m term = some (.running m₁) := by
    simp only [startIntern, hderef.eval, hnot, bind_eq_bind, bind_some,
      Bool.false_eq_true, if_false, hpush]
    rfl
  have hterm : ∀ fuel, internTerm w (n + 1) fuel m term = m₁.run w (n + 1) fuel := by
    intro fuel
    rw [internTerm, hstart]
    rfl
  have hcopied := hargs.copied he.loopOK he.frameOK
  have hused : m₁.interns.used = m.interns.used := by rw [he.interns]
  -- the last round returns the term
  have hresult : ∀ {m2 m' : InternState} {c : Cell}, Path w (n + 1) (fun _ => True) m₁ m2 →
      m2.step w (n + 1) = some (.ok (.done c m')) →
      ∃ fuel, internTerm w (n + 1) fuel m term = some (.ok (c, m')) := by
    intro m2 m' c hpath hdone
    obtain ⟨k, hk⟩ := hpath.run
    refine ⟨1 + k, ?_⟩
    rw [hterm, hk, InternState.run, hdone]
  -- the room for the record and for those of the arguments
  have hroomy : ∀ {m2 m' : InternState} {c : Cell}, m2.step w (n + 1) = some (.ok (.done c m')) →
      (m'.hreg = m.hreg ∨ m'.hreg = m2.hreg) →
      (∀ d size, Sized w (n + 1) m.interns m.heap d (w.args m.heap g a) size →
        m2.hreg ≤ m₁.hreg + size ∧ Path w (n + 1) (· ≤ m₁.hreg + size) m₁ m2) →
      Roomy w (n + 1) m term m' := by
    intro m2 m' c hdone hreg hsize d size hd
    rw [hderef.eval, bind_some] at hd
    obtain ⟨d', size', rfl, hd'⟩ := internTermSize_compound hd hheader
    obtain ⟨hle, hpath⟩ := hsize d' size' hd'
    have hreg1 := he.hreg
    refine ⟨by omega, fun m1' k mk hrun hk => ?_⟩
    rw [hstart] at hrun
    cases hrun
    have hmk := hpath.after hdone (Nat.le_add_right _ _) hk
    omega
  have habort : Aborts w (n + 1) m₁ → ∃ fuel msg,
      internTerm w (n + 1) fuel m term = some (.error msg) := by
    rintro ⟨fuel, msg, hrun⟩
    exact ⟨fuel, msg, (hterm fuel).trans hrun⟩
  have hheap : ∀ {m2 : InternState}, ArgsDone w (n + 1) m.hreg m₁ (childFrame m tag a g) []
      (w.args m.heap g a).length targs m2 → ∀ x < m.hreg, m2.heap x = m.heap x :=
    fun hdone => (hdone.loopOK he.loopOK he.frameOK.newterm
      ((Nat.le_add_right _ _).trans he.hreg.ge)).heap
  rw [groundArities, groundArities, Finset.union_empty]
  by_cases hground : targs.vars = []
  case pos =>
    rw [if_pos hground, fits_union, ← hused]
    constructor
    case left =>
      rintro ⟨hfits, hroot⟩
      obtain ⟨m2, hdone, hsize⟩ := hcopied.1 hfits
      obtain ⟨area, r, s, hleave, hs, hext, hrec, hused'⟩ :=
        (he.leave_record hdone hground).1 (hdone.used ▸ hroot)
      obtain ⟨fuel, hrun⟩ := hresult hdone.path hleave
      have hkept := hheap hdone
      refine ⟨fuel, _, _, hrun, ?_, hroomy hleave (.inl rfl) hsize⟩
      constructor
      case reads => exact .interned (.str _ _) hrec .nil
      case direct => exact .str _ _
      case heap => exact hkept
      case interns => exact hs
      case ext => exact (he.interns ▸ hdone.ext).trans hext
      case used =>
        show s.used = _
        rw [hused', hdone.used, hused, groundArities, groundArities, if_pos hground,
          Finset.union_empty, Finset.filter_union, Finset.union_assoc]
    case right =>
      intro hnot
      by_cases hfits : Fits m₁.interns.used (groundArities w targs)
      case pos =>
        obtain ⟨m2, hdone, -⟩ := hcopied.1 hfits
        have hroot := (he.leave_record hdone hground).2 fun hroot ↦ hnot ⟨hfits, hdone.used ▸ hroot⟩
        exact habort (hdone.path.aborts hroot)
      case neg => exact habort (hcopied.2 hfits)
  case neg =>
    rw [if_neg hground, Finset.union_empty, ← hused]
    refine ⟨fun hfits => ?_, fun hnot => habort (hcopied.2 hnot)⟩
    obtain ⟨m2, hdone, hsize⟩ := hcopied.1 hfits
    have hempty : targs.vars.isEmpty = false := by
      cases hv : targs.vars with
      | nil => exact absurd hv hground
      | cons v l => rfl
    have hleave := he.leave_heap hdone hempty
    obtain ⟨fuel, hrun⟩ := hresult hdone.path hleave
    have hkept := hheap hdone
    have hcopy : Reads w (n + 1) m2.heap m2.interns m.hreg (fun x => m.hreg ≤ x ∧ x < m2.hreg)
        NonGround [.str tag (.heap m.hreg)] (.app g targs .nil) :=
      he.reads_copy hdone hground fun _ _ => rfl
    refine ⟨fuel, _, _, hrun, ?_, hroomy hleave (.inr rfl) hsize⟩
    constructor
    case reads => exact hcopy
    case direct => exact .str _ _
    case heap => exact hkept
    case interns => exact hdone.interns
    case ext => exact he.interns ▸ hdone.ext
    case used =>
      show m2.interns.used = _
      rw [hdone.used, hused, groundArities, groundArities, if_neg hground,
        Finset.union_empty, Finset.union_empty]

/-- A term on the heap is returned with its ground subterms interned just if there are areas for
their records. -/
theorem internTerm_spec (hOK : InternsOK w m.interns)
    (h : Reads w (n + 1) m.heap m.interns m.hreg (· < m.hreg) (fun _ => True) [term] t) :
    (Fits m.interns.used (groundArities w t) → ∃ fuel c m',
      internTerm w (n + 1) fuel m term = some (.ok (c, m')) ∧ Returned w (n + 1) m t c m' ∧
        Roomy w (n + 1) m term m') ∧
    (¬ Fits m.interns.used (groundArities w t) → ∃ fuel msg,
      internTerm w (n + 1) fuel m term = some (.error msg)) := by
  have hempty : Fits m.interns.used ∅ ∧
      m.interns.used ∪ (∅ : Finset Nat).filter (256 < ·) = m.interns.used :=
    ⟨hOK.fits_empty, by rw [Finset.filter_empty, Finset.union_empty]⟩
  cases h with
  | ref hd hrest =>
    cases hrest
    refine ⟨fun _ => returned_at_once hOK hd ?_ (.ref hd.self .nil) hempty.2,
      fun hnot => absurd hempty.1 hnot⟩
    rw [startIntern, hd.eval]
    rfl
  | attv hd hrest =>
    cases hrest
    refine ⟨fun _ => returned_at_once hOK hd ?_ (.attv hd.self .nil) hempty.2,
      fun hnot => absurd hempty.1 hnot⟩
    rw [startIntern, hd.eval]
    rfl
  | @const _ _ val _ hd hrest =>
    cases hrest
    have harities : groundArities w (.app (.const val) .nil .nil) = ∅ := by
      simp [groundArities, rootArities]
    rw [harities]
    refine ⟨fun _ => returned_at_once hOK hd ?_ (.const hd.self .nil) (harities ▸ hempty.2),
      fun hnot => absurd hempty.1 hnot⟩
    rw [startIntern, hd.eval]
    rfl
  | interned hd hstands hrest =>
    cases hrest
    obtain ⟨hfits, hused⟩ := hstands.fits hOK
    refine ⟨fun _ => returned_at_once hOK hd ?_ (.interned hd.self hstands .nil) hused,
      fun hnot => absurd hfits hnot⟩
    simp only [startIntern, hd.eval, hstands.isinternstr hOK, bind_eq_bind,
      bind_some, if_true]
  | compound hd hheader hu _ hargs hrest =>
    cases hrest
    exact returned_compound hOK hd hheader hu hargs

/-- `intern_term_size` tells a size if no structure is without arguments. -/
theorem Reads.sizes {heap : Nat → Cell} {s : Interns} {bound : Nat} {user : Nat → Prop}
    {ok : Tuple Root Var → Prop} {cs : List Cell} (h : Reads w n heap s bound user ok cs t)
    (hOK : InternsOK w s) (hpos : ∀ psc, 0 < w.arity psc) :
    ∃ d0, ∀ d, d0 ≤ d → ∃ sizes, cs.mapM (fun c =>
      (deref heap n c).bind (internTermSize w n s heap d)) = some sizes := by
  -- one more cell, whose size is known
  have hcons : ∀ {c c' : Cell} {cs : List Cell} {d0 : Nat}, Derefs heap bound n c c' →
      (∃ d1, ∀ d, d1 ≤ d → ∃ size, internTermSize w n s heap d c' = some size) →
      (∀ d, d0 ≤ d → ∃ sizes, cs.mapM (fun c =>
        (deref heap n c).bind (internTermSize w n s heap d)) = some sizes) →
      ∃ d0, ∀ d, d0 ≤ d → ∃ sizes, (c :: cs).mapM (fun c =>
        (deref heap n c).bind (internTermSize w n s heap d)) = some sizes := by
    rintro c c' cs d0 hd ⟨d1, h1⟩ h0
    refine ⟨max d0 d1, fun d hle => ?_⟩
    obtain ⟨size, hsize⟩ := h1 d (by omega)
    obtain ⟨sizes, hsizes⟩ := h0 d (by omega)
    refine ⟨size :: sizes, ?_⟩
    rw [mapM_cons, hd.eval, bind_some, hsize, hsizes]
    rfl
  have hzero : ∀ {c : Cell}, (∀ d, internTermSize w n s heap (d + 1) c = some 0) →
      ∃ d1, ∀ d, d1 ≤ d → ∃ size, internTermSize w n s heap d c = some size := by
    intro c hc
    refine ⟨1, fun d hle => ⟨0, ?_⟩⟩
    obtain ⟨d, rfl⟩ := Nat.exists_eq_add_of_le' hle
    exact hc d
  induction h with
  | nil => exact ⟨0, fun d _ => ⟨[], rfl⟩⟩
  | ref hd _ ih | attv hd _ ih | const hd _ ih =>
    obtain ⟨d0, hrest⟩ := ih
    exact hcons hd (hzero fun d => rfl) hrest
  | interned hd hstands _ ih =>
    obtain ⟨d0, hrest⟩ := ih
    refine hcons hd (hzero fun d => ?_) hrest
    simp only [internTermSize, hstands.isinternstr hOK, bind_eq_bind, bind_some,
      if_true]
  | @compound c cs tag a f targs t hd hheader _ _ _ _ ihargs ih =>
    obtain ⟨d0, hrest⟩ := ih
    obtain ⟨d1, hargs⟩ := ihargs
    refine hcons hd ⟨d1 + 1, fun d hle => ?_⟩ hrest
    obtain ⟨e, rfl⟩ := Nat.exists_eq_add_of_le' (Nat.le_of_add_left_le hle)
    obtain ⟨sizes, hsizes⟩ := hargs e (by omega)
    obtain ⟨-, hconst⟩ := header_tag hheader
    have hnot : s.isinternstr w (.str tag (.heap a)) = some false := by cases tag <;> rfl
    have hlen : f.first + 1 ≤ w.reclen f := by
      cases f with
      | const val => exact absurd rfl (hconst val)
      | list => exact Nat.le_succ 1
      | struct psc => exact Nat.succ_le_succ (hpos psc)
    rw [Words.args, mapM_map] at hsizes
    refine ⟨w.reclen f + sizes.sum, ?_⟩
    simp only [internTermSize, hnot, hheader, bind_eq_bind, bind_some,
      Bool.false_eq_true, if_false, max_eq_left hlen]
    rw [show ((List.range' f.first (w.reclen f - f.first)).mapM fun i =>
      (deref heap n (heap (a + i))).bind (internTermSize w n s heap e)) = some sizes from hsizes]
    rfl

/-- More fuel does not change the result. -/
theorem internTerm_mono {fuel k : Nat} {res : Except String (Cell × InternState)}
    (h : internTerm w n fuel m term = some res) : internTerm w n (fuel + k) m term = some res := by
  rw [internTerm] at h ⊢
  cases hstart : startIntern w n m term with
  | none =>
    rw [hstart] at h
    exact absurd h.symm (some_ne_none res)
  | some start =>
    rw [hstart] at h
    cases start with
    | done c m => exact h
    | running m => exact run_mono h

theorem internTerm_unique {fuel fuel' : Nat} {res res' : Except String (Cell × InternState)}
    (h : internTerm w n fuel m term = some res) (h' : internTerm w n fuel' m term = some res') :
    res = res' := by
  have hmono := internTerm_mono (k := fuel') h
  have hmono' := internTerm_mono (k := fuel) h'
  rw [Nat.add_comm, hmono] at hmono'
  exact some.inj hmono'

/-! ### Runs -/

/-- A compound term without variables. -/
def groundCompound : Tuple Root Var → Bool
  | .app (.const _) _ _ => false
  | .app _ args _ => args.vars.isEmpty
  | _ => false

/-- The areas, and the ground compound terms that calls have returned. -/
structure TermState where
  interns : Interns
  results : List (Cell × Tuple Root Var)

/-- A call for a term on a heap. -/
structure TermCall where
  n : Nat
  heap : Nat → Cell
  hreg : Nat
  term : Cell
  t : Tuple Root Var

/-- The state in which the call starts. -/
def TermCall.start (e : TermCall) (s : Interns) : InternState := ⟨e.heap, e.hreg, s, []⟩

/-- The term of the call is on its heap. -/
def TermCall.Valid (w : Words) (s : Interns) (e : TermCall) : Prop :=
  Reads w (e.n + 1) e.heap s e.hreg (· < e.hreg) (fun _ => True) [e.term] e.t

/-- Runs of calls that return, from areas without blocks. -/
def termSystem (w : Words) : System TermState TermCall where
  init s := internSystem.init s.interns.hcBlock ∧ (∀ i, s.interns.bigArities i = 0) ∧
    s.results = []
  step s e s' := e.Valid w s.interns ∧ ∃ fuel c m',
    internTerm w (e.n + 1) fuel (e.start s.interns) e.term = some (.ok (c, m')) ∧
      s' = ⟨m'.interns, if groundCompound e.t then (c, e.t) :: s.results else s.results⟩

/-- The results are records for their terms. -/
structure TermsOK (w : Words) (s : TermState) : Prop where
  interns : InternsOK w s.interns
  results : ∀ c t, (c, t) ∈ s.results →
    Stands w s.interns [c] t ∧ s.interns.isinternstr w c = some true

/-- A ground compound term is returned as its record. -/
theorem Returned.record (h : Returned w (n + 1) m t c m') (ht : groundCompound t = true) :
    Stands w m'.interns [c] t ∧ m'.interns.isinternstr w c = some true := by
  have hreads := h.reads
  have hdirect := h.direct.eval
  cases hreads with
  | ref | attv | const => cases ht
  | interned hd hstands hrest =>
    cases hrest
    rw [some.inj (hdirect.symm.trans hd.eval)]
    exact ⟨hstands, hstands.isinternstr h.interns⟩
  | @compound _ _ tag a f targs _ hd hheader _ hok =>
    obtain ⟨-, hconst⟩ := header_tag hheader
    cases f with
    | const val => exact absurd rfl (hconst val)
    | list | struct psc => exact absurd (isEmpty_iff.mp ht) hok

theorem termSystem_ok : (termSystem w).Invariant (TermsOK w) where
  init s hs := by
    obtain ⟨hareas, hbig, hresults⟩ := hs
    refine ⟨⟨.init hareas, ⟨0, Nat.zero_le _, ?_, fun i _ => hbig i, ?_⟩, ?_⟩, ?_⟩
    · exact fun i hi => absurd hi (Nat.not_lt_zero i)
    · exact fun i hi => absurd hi (Nat.not_lt_zero i)
    · intro area r hr
      rw [HcBlockRec.Interned, HcBlockRec.isInternedRec, if_pos (hareas area).1] at hr
      cases some.inj hr
    · rw [hresults]
      exact fun c t hc => absurd hc not_mem_nil
  step s e s' h hstep := by
    obtain ⟨hvalid, fuel, c, m', hrun, rfl⟩ := hstep
    obtain ⟨hok, herror⟩ := internTerm_spec (m := e.start s.interns) h.interns hvalid
    by_cases hfits : Fits s.interns.used (groundArities w e.t)
    case neg =>
      obtain ⟨fuel', msg, herr⟩ := herror hfits
      cases internTerm_unique hrun herr
    case pos =>
      obtain ⟨fuel', c', m'', hrun', hret, -⟩ := hok hfits
      cases internTerm_unique hrun hrun'
      have hold : ∀ c t, (c, t) ∈ s.results →
          Stands w m'.interns [c] t ∧ m'.interns.isinternstr w c = some true := by
        intro c t hc
        obtain ⟨hstands, hfound⟩ := h.results c t hc
        have hmono := hstands.mono hret.ext
        refine ⟨hmono, ?_⟩
        cases hstands with
        | const => cases some.inj hfound
        | record => exact hmono.isinternstr hret.interns
      refine ⟨hret.interns, fun c1 t1 hc => ?_⟩
      dsimp only at hc
      split at hc
      next ht =>
        rcases mem_cons.mp hc with heq | hc
        · cases heq
          exact hret.record ht
        · exact hold c1 t1 hc
      next => exact hold c1 t1 hc

section Sample

/-- Words in which a PSC record is the arity that it tells. -/
def pairWords : Words where
  word
    | .ref a => Nat.pair 0 a
    | .attv a => Nat.pair 1 a
    | .const val => Nat.pair 2 val
    | .functor psc => Nat.pair 3 psc
    | .str .list (.heap a) => Nat.pair 4 a
    | .str .struct (.heap a) => Nat.pair 5 a
    | .str .list (.record area r) => Nat.pair 6 (Nat.pair area (Nat.pair r.block r.place))
    | .str .struct (.record area r) => Nat.pair 7 (Nat.pair area (Nat.pair r.block r.place))
  word_inj c c' h := by
    rcases c with a | a | val | ⟨_ | _, a | ⟨area, r⟩⟩ | psc <;>
    rcases c' with a' | a' | val' | ⟨_ | _, a' | ⟨area', r'⟩⟩ | psc' <;>
    simp_all [RecPtr.ext_iff]
  psc word := (Nat.unpair word).2
  psc_word psc := congrArg Prod.snd (Nat.unpair_pair 3 psc)
  arity psc := psc

/-- A structure with one constant for all its arguments. -/
def constantHeap (psc : Nat) (a : Nat) : Cell := if a = 0 then .functor psc else .const 7

/-- Its arguments. -/
def constants : Nat → Tuple Root Var
  | 0 => .nil
  | k + 1 => .app (.const 7) .nil (constants k)

/-- The call for it. -/
def constantCall (psc : Nat) : TermCall :=
  ⟨0, constantHeap psc, psc + 1, .str .struct (.heap 0), .app (.struct psc) (constants psc) .nil⟩

theorem constants_vars (k : Nat) : (constants k).vars = [] := by
  induction k with
  | zero => rfl
  | succ k ih => exact ih

theorem constantCall_valid (s : Interns) (psc : Nat) : (constantCall psc).Valid pairWords s := by
  have hargs : ∀ l : List Nat, (∀ i ∈ l, i ≠ 0) → Reads pairWords 1 (constantHeap psc) s (psc + 1)
      (· < psc + 1) (fun _ => True) (l.map fun i => constantHeap psc (0 + i))
      (constants l.length) := by
    intro l hl
    induction l with
    | nil => exact .nil
    | cons i l ih =>
      obtain ⟨hi, hl⟩ := forall_mem_cons.mp hl
      have hcell : constantHeap psc (0 + i) = .const 7 := by
        rw [Nat.zero_add, constantHeap, if_neg hi]
      rw [map_cons, hcell]
      exact .const (.const 7) (ih hl)
  have hread := hargs (List.range' 1 psc) fun i hi => by
    have hmem := mem_range'_1.mp hi
    omega
  rw [length_range'] at hread
  refine .compound (.str _ _) rfl (fun i hi => ?_) trivial hread .nil
  rw [Nat.zero_add]
  exact hi

/-- Areas without records. -/
def noTerms : TermState := ⟨⟨emptyAreas, fun _ => 0⟩, []⟩

theorem noTerms_reachable : (termSystem pairWords).Reachable noTerms :=
  .init ⟨fun _ => ⟨rfl, fun _ => rfl, fun _ => rfl, fun _ => rfl, rfl, rfl⟩, fun _ => rfl, rfl⟩

theorem constantCall_arities (psc : Nat) :
    groundArities pairWords (constantCall psc).t = {psc} := by
  have hconstants : ∀ k, groundArities pairWords (constants k) = ∅ := by
    intro k
    induction k with
    | zero => rfl
    | succ k ih =>
      rw [constants, groundArities, groundArities, ih]
      rfl
  show groundArities pairWords (constants psc) ∪
    (if (constants psc).vars = [] then {psc} else ∅) ∪ ∅ = _
  rw [hconstants, if_pos (constants_vars psc), Finset.empty_union, Finset.union_empty]

end Sample

end XSBEngine.Interning
