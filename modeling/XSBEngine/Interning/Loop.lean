import XSBEngine.Interning.Copies

/-!
# The loop of `intern_term`

What the loop does with the remaining arguments of the top frame: it copies them, and the cells of
their ground subterms are given back, unless a record has no area.
-/

namespace XSBEngine.Interning

open Function Library List Option PrefixTerms

variable {w : Words} {n : Nat} {heap₀ : Nat → Cell} {s₀ : Interns} {bound : Nat}
  {m m₁ m₂ m' : InternState} {fr : Frame} {rest : List Frame} {f : Root}
  {t t1 targs : Tuple Root Var} {cs : List Cell} {c : Cell} {len : Nat}

/-- The copies of the next arguments of a frame. -/
def Frame.copies (fr : Frame) (heap : Nat → Cell) (len : Nat) : List Cell :=
  (List.range' fr.subtermIndex len).map fun i => heap (fr.newterm + i)

/-- A frame after further arguments. -/
def Frame.advance (fr : Frame) (len : Nat) (t : Tuple Root Var) : Frame :=
  { fr with subtermIndex := fr.subtermIndex + len, ground := fr.ground && t.vars.isEmpty }

/-- The arguments of the top frame have been copied. The cells of the copies are new, those of the
ground ones are in records, and no other cell has changed. -/
structure ArgsDone (w : Words) (n bound : Nat) (m : InternState) (fr : Frame) (rest : List Frame)
    (len : Nat) (t : Tuple Root Var) (m' : InternState) : Prop where
  path : Path w n (fun _ => True) m m'
  frames : m'.frames = fr.advance len t :: rest
  hreg : m.hreg ≤ m'.hreg
  heap : ∀ a < m.hreg, ¬ (fr.newterm + fr.subtermIndex ≤ a ∧
    a < fr.newterm + (fr.subtermIndex + len)) → m'.heap a = m.heap a
  interns : InternsOK w m'.interns
  ext : Extends m.interns m'.interns
  used : m'.interns.used = m.interns.used ∪ (groundArities w t).filter (256 < ·)
  reads : Reads w n m'.heap m'.interns bound (fun a => m.hreg ≤ a ∧ a < m'.hreg) NonGround
    (fr.copies m'.heap len) t
  direct : ∀ c ∈ fr.copies m'.heap len, Derefs m'.heap bound n c c

theorem Frame.copies_add (fr : Frame) (heap : Nat → Cell) (i j : Nat) (t : Tuple Root Var) :
    fr.copies heap (i + j) = fr.copies heap i ++ (fr.advance i t).copies heap j := by
  rw [Frame.copies, ← List.range'_append_1, map_append]
  rfl

theorem Frame.advance_add (fr : Frame) (i j : Nat) (t t' : Tuple Root Var) :
    (fr.advance i t).advance j t' = fr.advance (i + j) (t.append t') := by
  have hground : (t.append t').vars.isEmpty = (t.vars.isEmpty && t'.vars.isEmpty) := by
    rw [Tuple.vars_append]
    cases t.vars <;> rfl
  simp only [Frame.advance, hground, Nat.add_assoc, Bool.and_assoc]

theorem groundArities_append (w : Words) (t t' : Tuple Root Var) :
    groundArities w (t.append t') = groundArities w t ∪ groundArities w t' := by
  induction t with
  | nil => rw [Tuple.append, groundArities, Finset.empty_union]
  | var v t ih => exact ih
  | app f args t _ ih => simp only [Tuple.append, groundArities, ih, Finset.union_assoc]

variable {s : Interns}

theorem Reads.append {heap : Nat → Cell} {user : Nat → Prop}
    {ok : Tuple Root Var → Prop} {cs' : List Cell} (h : Reads w n heap s bound user ok cs t)
    (h' : Reads w n heap s bound user ok cs' t1) :
    Reads w n heap s bound user ok (cs ++ cs') (t.append t1) := by
  induction h with
  | nil => exact h'
  | ref hd _ ih => exact .ref hd ih
  | attv hd _ ih => exact .attv hd ih
  | const hd _ ih => exact .const hd ih
  | interned hd hstands _ ih => exact .interned hd hstands ih
  | compound hd hheader hu hok hargs _ _ ih => exact .compound hd hheader hu hok hargs ih

/-- First some arguments and then others. -/
theorem ArgsDone.append {i j : Nat} (h : ArgsDone w n bound m fr rest i t m₁)
    (h' : ArgsDone w n bound m₁ (fr.advance i t) rest j t1 m') (hbound : bound ≤ fr.newterm)
    (hroom : fr.newterm + (fr.subtermIndex + (i + j)) ≤ m.hreg) :
    ArgsDone w n bound m fr rest (i + j) (t.append t1) m' := by
  have hnew : (fr.advance i t).newterm = fr.newterm := rfl
  have hindex : (fr.advance i t).subtermIndex = fr.subtermIndex + i := rfl
  have hreg := h.hreg
  have hreg' := h'.hreg
  have hkept : ∀ a, a < bound ∨ fr.newterm + fr.subtermIndex ≤ a ∧
      a < fr.newterm + (fr.subtermIndex + i) ∨ m.hreg ≤ a ∧ a < m₁.hreg →
      m'.heap a = m₁.heap a := by
    intro a ha
    apply h'.heap a
    · omega
    · rw [hnew, hindex]
      omega
  have hcopies : fr.copies m'.heap i = fr.copies m₁.heap i := by
    apply map_congr_left
    intro k hk
    have hk := mem_range'_1.mp hk
    exact hkept _ (by omega)
  constructor
  case path => exact h.path.trans h'.path
  case frames => rw [h'.frames, Frame.advance_add]
  case hreg => exact hreg.trans hreg'
  case heap =>
    intro a ha hnot
    rw [h'.heap a (by omega) (by rw [hnew, hindex]; omega), h.heap a ha (by omega)]
  case interns => exact h'.interns
  case ext => exact h.ext.trans h'.ext
  case used =>
    rw [h'.used, h.used, groundArities_append, Finset.filter_union, Finset.union_assoc]
  case reads =>
    rw [Frame.copies_add, hcopies]
    apply Reads.append
    · refine h.reads.mono (fun a ha => hkept a (by omega))
        (fun a ha => ⟨hkept a (by omega), ?_⟩) h'.ext
      omega
    · refine h'.reads.mono (fun _ _ => rfl) (fun a ha => ⟨rfl, ?_⟩) (.refl _)
      omega
  case direct =>
    intro c hc
    rw [Frame.copies_add fr _ i j t, hcopies] at hc
    rcases mem_append.mp hc with hc | hc
    · exact (h.direct c hc).congr fun a ha => hkept a (by omega)
    · exact h'.direct c hc

/-! ### One round -/

section Step

section

variable (hframes : m.frames = fr :: rest)
include hframes

/-- The next argument of the top frame. -/
theorem step_arg (hheader : header m.heap fr.tag fr.term = some f)
    (hlt : fr.subtermIndex < w.reclen f)
    (hderef : deref m.heap n (m.heap (fr.term + fr.subtermIndex)) = some c) :
    m.step w n = (m.stepArg w fr rest c).map fun m => .ok (.running m) := by
  simp only [InternState.step, hframes, hheader, hderef, bind_eq_bind, bind_some,
    if_neg (Nat.not_le.mpr hlt), map_eq_bind]
  rfl

/-- The top frame is left with a term on the heap. -/
theorem step_leave
    (hheader : header m.heap fr.tag fr.term = some f) (hle : w.reclen f ≤ fr.subtermIndex)
    (hground : fr.ground = false) :
    m.step w n = some (.ok (m.leave (.str fr.tag (.heap fr.newterm)) false rest)) := by
  simp only [InternState.step, hframes, hheader, bind_eq_bind, bind_some, if_pos hle,
    hground]
  rfl

/-- The top frame is left with a record. -/
theorem step_intern
    (hheader : header m.heap fr.tag fr.term = some f) (hle : w.reclen f ≤ fr.subtermIndex)
    (hground : fr.ground = true) {res : Except String (Cell × Interns)}
    (hintern : internRec w n m.interns m.heap fr.tag fr.newterm = some res) :
    m.step w n = some (res.map fun r =>
      InternState.leave { m with interns := r.2, hreg := fr.newterm } r.1 true rest) := by
  simp only [InternState.step, hframes, hheader, bind_eq_bind, bind_some, if_pos hle,
    hground, if_true, hintern]
  cases res <;> rfl

end

/-- An argument that needs no frame is copied. -/
theorem copyArg_done {g : Bool} (hbound : bound ≤ fr.newterm)
    (hstep : m.step w n = some (.ok (.running (m.copyArg fr rest c g))))
    (hOK : InternsOK w m.interns) (hg : g = t.vars.isEmpty)
    (hused : m.interns.used ∪ (groundArities w t).filter (256 < ·) = m.interns.used)
    (hreads : Reads w n m.heap m.interns bound (fun _ => False) NonGround [c] t)
    (hdirect : Derefs m.heap bound n c c) :
    ArgsDone w n bound m fr rest 1 t (m.copyArg fr rest c g) := by
  have hself : (m.copyArg fr rest c g).heap (fr.newterm + fr.subtermIndex) = c :=
    update_self ..
  have hne : ∀ a, a ≠ fr.newterm + fr.subtermIndex → (m.copyArg fr rest c g).heap a = m.heap a :=
    fun a ha => update_of_ne ha ..
  have hcopies : fr.copies (m.copyArg fr rest c g).heap 1 = [c] := by
    show [(m.copyArg fr rest c g).heap (fr.newterm + fr.subtermIndex)] = [c]
    rw [hself]
  have hbelow : ∀ a < bound, (m.copyArg fr rest c g).heap a = m.heap a :=
    fun a ha => hne a (by omega)
  constructor
  case path => exact .step hstep trivial (.refl _)
  case frames =>
    rw [hg]
    rfl
  case hreg => exact le_rfl
  case heap => exact fun a _ hnot => hne a (by omega)
  case interns => exact hOK
  case ext => exact .refl _
  case used => exact hused.symm
  case reads =>
    rw [hcopies]
    exact hreads.mono hbelow (fun _ hfalse => hfalse.elim) (.refl _)
  case direct =>
    intro c' hc'
    rw [hcopies] at hc'
    rw [mem_singleton.mp hc']
    exact hdirect.congr hbelow

end Step

/-! ### Compound arguments -/

section Compound

variable {a : Nat} {tag : StrTag} {g : Root}

theorem first_le_reclen (hconst : ∀ val, g ≠ .const val) : g.first ≤ w.reclen g := by
  cases g with
  | const val => exact absurd rfl (hconst val)
  | list => exact Nat.zero_le _
  | struct psc => exact Nat.succ_le_succ (Nat.zero_le _)

/-- The frame of a compound argument. -/
theorem push_spec (hheader : header m.heap tag a = some g) :
    ∃ m₁, m.push w tag a = some m₁ ∧ m₁.frames = ⟨tag, a, m.hreg, g.first, true⟩ :: m.frames ∧
      m₁.hreg = m.hreg + w.reclen g ∧ m₁.interns = m.interns ∧
      (∀ x < m.hreg, m₁.heap x = m.heap x) ∧ header m₁.heap tag m.hreg = some g := by
  have hpush : m.push w tag a = some { m with
      heap := InternState.newHeapFunctor m.heap m.hreg g
      hreg := m.hreg + w.reclen g
      frames := ⟨tag, a, m.hreg, g.first, true⟩ :: m.frames } := by
    simp only [InternState.push, hheader, bind_eq_bind, bind_some]
  refine ⟨_, hpush, rfl, rfl, rfl, ?_, ?_⟩
  · intro x hx
    cases g with
    | const val | list => rfl
    | struct psc => exact update_of_ne (Nat.ne_of_lt hx) ..
  · obtain ⟨htag, hconst⟩ := header_tag hheader
    cases g with
    | const val => exact absurd rfl (hconst val)
    | list =>
      obtain rfl : tag = .list := htag.symm
      rfl
    | struct psc =>
      obtain rfl : tag = .struct := htag.symm
      simp only [header, InternState.newHeapFunctor, update_self]

/-- The root of the copy is there until the frame is left. -/
theorem ArgsDone.header {child : Frame} (h : ArgsDone w n bound m₁ child rest len targs m₂)
    (hheader : header m₁.heap tag child.newterm = some g) (hfirst : child.subtermIndex = g.first)
    (hnew : child.newterm < m₁.hreg) : header m₂.heap tag child.newterm = some g := by
  obtain ⟨htag, hconst⟩ := header_tag hheader
  cases g with
  | const val => exact absurd rfl (hconst val)
  | list =>
    obtain rfl : tag = .list := htag.symm
    rfl
  | struct psc =>
    obtain rfl : tag = .struct := htag.symm
    have hsame : m₂.heap child.newterm = m₁.heap child.newterm :=
      h.heap _ hnew (by rw [hfirst]; show ¬ (_ + 1 ≤ _ ∧ _); omega)
    simp only [Interning.header] at hheader ⊢
    rw [hsame]
    exact hheader

/-- The sizes that `intern_term_size` adds up. -/
def Sized (w : Words) (n : Nat) (s : Interns) (heap : Nat → Cell) (d : Nat) (cs : List Cell)
    (size : Nat) : Prop :=
  ∃ l : List Nat, List.Forall₂ (fun c z =>
    (deref heap n c).bind (internTermSize w n s heap d) = some z) cs l ∧ l.sum ≤ size

theorem forall₂_of_mapM {α β : Type*} {q : α → Option β} {l : List α} {l' : List β}
    (h : l.mapM q = some l') : List.Forall₂ (fun x y => q x = some y) l l' := by
  induction l generalizing l' with
  | nil =>
    obtain rfl : [] = l' := some.inj h
    exact .nil
  | cons x l ih =>
    rw [mapM_cons] at h
    obtain ⟨y, hy, h⟩ := bind_eq_some_iff.mp h
    obtain ⟨ys, hys, h⟩ := bind_eq_some_iff.mp h
    obtain rfl : y :: ys = l' := some.inj h
    exact .cons hy (ih hys)

/-- The size of a compound term is that of its record and of its arguments. -/
theorem internTermSize_compound {s : Interns} {heap : Nat → Cell} {d size : Nat}
    (hsize : internTermSize w n s heap d (.str tag (.heap a)) = some size)
    (hheader : header heap tag a = some g) :
    ∃ d' rest, size = w.reclen g + rest ∧ Sized w n s heap d' (w.args heap g a) rest := by
  cases d with
  | zero => exact absurd hsize.symm (some_ne_none size)
  | succ d =>
    have hnot : s.isinternstr w (.str tag (.heap a)) = some false := by cases tag <;> rfl
    simp only [internTermSize, hnot, hheader, bind_eq_bind, bind_some,
      Bool.false_eq_true, if_false] at hsize
    obtain ⟨sizes, hsizes, hsum⟩ := bind_eq_some_iff.mp hsize
    refine ⟨d, sizes.sum, (some.inj hsum).symm, ?_⟩
    by_cases hargs : g.first + 1 ≤ w.reclen g
    · rw [max_eq_left hargs] at hsizes
      refine ⟨sizes, ?_, le_rfl⟩
      rw [Words.args, forall₂_map_left_iff]
      exact forall₂_of_mapM hsizes
    · have hnil : w.args heap g a = [] := by
        rw [Words.args, Nat.sub_eq_zero_of_le (by omega)]
        rfl
      rw [hnil]
      exact ⟨[], .nil, Nat.zero_le _⟩

end Compound

/-! ### The loop -/

/-- The state in the loop: the heap below the copies and the records are as they were. -/
structure LoopOK (w : Words) (heap₀ : Nat → Cell) (s₀ : Interns) (bound : Nat) (m : InternState) :
    Prop where
  heap : ∀ a < bound, m.heap a = heap₀ a
  interns : InternsOK w m.interns
  ext : Extends s₀ m.interns

/-- The top frame has the given cells left. -/
structure FrameOK (w : Words) (heap₀ : Nat → Cell) (bound : Nat) (m : InternState) (fr : Frame)
    (rest : List Frame) (f : Root) (cs : List Cell) : Prop where
  frames : m.frames = fr :: rest
  header : header heap₀ fr.tag fr.term = some f
  below : ∀ i < w.reclen f, fr.term + i < bound
  cells : cs = (List.range' fr.subtermIndex cs.length).map fun i => heap₀ (fr.term + i)
  index : fr.subtermIndex + cs.length = w.reclen f
  newterm : bound ≤ fr.newterm
  room : fr.newterm + w.reclen f ≤ m.hreg

/-- The loop copies cells and needs no more room than `intern_term_size` tells, or it ends with an
error if there is no area for a record. -/
def Copied (w : Words) (n : Nat) (heap₀ : Nat → Cell) (s₀ : Interns) (bound : Nat) (m : InternState)
    (fr : Frame) (rest : List Frame) (cs : List Cell) (t : Tuple Root Var) : Prop :=
  (Fits m.interns.used (groundArities w t) → ∃ m', ArgsDone w n bound m fr rest cs.length t m' ∧
    ∀ d size, Sized w n s₀ heap₀ d cs size →
      m'.hreg ≤ m.hreg + size ∧ Path w n (· ≤ m.hreg + size) m m') ∧
  (¬ Fits m.interns.used (groundArities w t) → Aborts w n m)

theorem ArgsDone.loopOK (h : ArgsDone w n bound m fr rest len t m')
    (hm : LoopOK w heap₀ s₀ bound m) (hbound : bound ≤ fr.newterm)
    (hroom : fr.newterm ≤ m.hreg) : LoopOK w heap₀ s₀ bound m' where
  heap a ha := by
    rw [h.heap a (by omega) (by omega), hm.heap a ha]
  interns := h.interns
  ext := hm.ext.trans h.ext

theorem FrameOK.header_now (h : FrameOK w heap₀ bound m fr rest f cs)
    (hm : LoopOK w heap₀ s₀ bound m) : Interning.header m.heap fr.tag fr.term = some f :=
  header_congr h.header fun i hi => hm.heap _ (h.below i hi)

/-- The first of the cells that are left. -/
theorem FrameOK.first (h : FrameOK w heap₀ bound m fr rest f (c :: cs))
    (hm : LoopOK w heap₀ s₀ bound m) :
    m.heap (fr.term + fr.subtermIndex) = c ∧ fr.subtermIndex < w.reclen f ∧
      cs = (List.range' (fr.subtermIndex + 1) cs.length).map fun i => heap₀ (fr.term + i) := by
  have hindex := h.index
  rw [length_cons] at hindex
  have hlt : fr.subtermIndex < w.reclen f := by omega
  obtain ⟨hc, hcs⟩ := List.cons.inj h.cells
  exact ⟨(hm.heap _ (h.below _ hlt)).trans hc.symm, hlt, hcs⟩

/-- The frame after its next argument. -/
theorem FrameOK.next (h : FrameOK w heap₀ bound m fr rest f (c :: cs))
    (hm : LoopOK w heap₀ s₀ bound m) (hdone : ArgsDone w n bound m fr rest 1 t1 m₁) :
    FrameOK w heap₀ bound m₁ (fr.advance 1 t1) rest f cs where
  frames := hdone.frames
  header := h.header
  below := h.below
  cells := (h.first hm).2.2
  index := by
    have hindex := h.index
    rw [length_cons] at hindex
    show fr.subtermIndex + 1 + cs.length = _
    omega
  newterm := h.newterm
  room := h.room.trans hdone.hreg

theorem Sized.cons {heap : Nat → Cell} {d size : Nat}
    (h : Sized w n s heap d (c :: cs) size) :
    ∃ i j, Sized w n s heap d [c] i ∧ Sized w n s heap d cs j ∧ i + j ≤ size := by
  obtain ⟨l, hl, hsum⟩ := h
  cases hl with
  | @cons _ z _ l hz hl =>
    rw [sum_cons] at hsum
    exact ⟨z, l.sum, ⟨[z], .cons hz .nil, by simp⟩, ⟨l, hl, le_rfl⟩, hsum⟩

/-- The first cell is copied and then the others. -/
theorem Copied.cons (hfr : FrameOK w heap₀ bound m fr rest f (c :: cs))
    (h : Copied w n heap₀ s₀ bound m fr rest [c] t1)
    (hrest : ∀ m₁, ArgsDone w n bound m fr rest 1 t1 m₁ →
      Copied w n heap₀ s₀ bound m₁ (fr.advance 1 t1) rest cs t) :
    Copied w n heap₀ s₀ bound m fr rest (c :: cs) (t1.append t) := by
  have hroom := hfr.room
  have hindex := hfr.index
  rw [length_cons] at hindex
  rw [Copied, groundArities_append, fits_union, length_cons, Nat.add_comm]
  constructor
  · rintro ⟨hfits1, hfits⟩
    obtain ⟨m₁, hdone, hsize1⟩ := h.1 hfits1
    rw [length_singleton] at hdone
    obtain ⟨m', hdone', hsize⟩ := (hrest m₁ hdone).1 (hdone.used ▸ hfits)
    refine ⟨m', hdone.append hdone' hfr.newterm (by omega), fun d size hsized => ?_⟩
    obtain ⟨i, j, hi, hj, hij⟩ := hsized.cons
    obtain ⟨hreg1, hpath1⟩ := hsize1 d i hi
    obtain ⟨hreg, hpath⟩ := hsize d j hj
    refine ⟨by omega, (hpath1.imp fun k hk => ?_).trans (hpath.imp fun k hk => ?_)⟩
    · omega
    · omega
  · intro hnot
    by_cases hfits1 : Fits m.interns.used (groundArities w t1)
    · obtain ⟨m₁, hdone, -⟩ := h.1 hfits1
      refine hdone.path.aborts ((hrest m₁ hdone).2 fun hfits => hnot ⟨hfits1, ?_⟩)
      exact hdone.used ▸ hfits
    · exact h.2 hfits1

/-- A cell that needs no frame is copied. -/
theorem Copied.copyArg {g : Bool} {c' : Cell} (hm : LoopOK w heap₀ s₀ bound m)
    (hfr : FrameOK w heap₀ bound m fr rest f (c :: cs)) (hderef : Derefs heap₀ bound n c c')
    (hstep : m.stepArg w fr rest c' = some (m.copyArg fr rest c' g)) (hg : g = t.vars.isEmpty)
    (hfits : Fits m.interns.used (groundArities w t))
    (hused : m.interns.used ∪ (groundArities w t).filter (256 < ·) = m.interns.used)
    (hreads : Reads w n m.heap m.interns bound (fun _ => False) NonGround [c'] t) :
    Copied w n heap₀ s₀ bound m fr rest [c] t := by
  obtain ⟨hc, hlt, -⟩ := hfr.first hm
  have hderef' := hderef.congr hm.heap
  have hrun : m.step w n = some (.ok (.running (m.copyArg fr rest c' g))) := by
    rw [step_arg hfr.frames (hfr.header_now hm) hlt (hc.symm ▸ hderef'.eval), hstep]
    rfl
  have hself : Derefs m.heap bound n c' c' := by
    cases n with
    | zero => cases hderef
    | succ n => exact hderef'.self
  refine ⟨fun _ => ⟨_, copyArg_done hfr.newterm hrun hm.interns hg hused hreads hself, ?_⟩,
    fun hnot => absurd hfits hnot⟩
  intro d size _
  exact ⟨Nat.le_add_right _ _, .step hrun (Nat.le_add_right _ _) (.refl _)⟩

/-- The arities of records have areas. -/
theorem Stands.arities (h : Stands w s cs t) (hOK : InternsOK w s) :
    256 ∉ groundArities w t ∧ (groundArities w t).filter (256 < ·) ⊆ s.used := by
  obtain ⟨k, hslots⟩ := hOK.slots
  induction h with
  | nil =>
    refine ⟨Finset.notMem_empty _, ?_⟩
    rw [groundArities, Finset.filter_empty]
    exact Finset.empty_subset _
  | const _ ih =>
    simpa [groundArities, rootArities] using ih
  | @record tag area r f args cs targs t htag harea hr hrec hlen hargs _ ihargs ih =>
    have hroot : 256 ∉ rootArities w f ∧ (rootArities w f).filter (256 < ·) ⊆ s.used := by
      cases f with
      | const val => exact harea.elim
      | list => exact ⟨Finset.notMem_empty _, Finset.empty_subset _⟩
      | struct psc =>
        rcases harea with ⟨hle, -⟩ | ⟨hlt, i, hi, hin, -⟩
        · constructor
          · intro hmem
            have heq := Finset.mem_singleton.mp hmem
            omega
          · rw [rootArities, Finset.filter_singleton, if_neg (by omega)]
            exact Finset.empty_subset _
        · constructor
          · intro hmem
            have heq := Finset.mem_singleton.mp hmem
            omega
          · rw [rootArities, Finset.filter_singleton, if_pos hlt, Finset.singleton_subset_iff,
              hslots.used_eq]
            exact Finset.mem_image.mpr ⟨i, Finset.mem_range.mpr (hslots.lt_of_eq (hin ▸ hlt)), hin⟩
    rw [groundArities, if_pos hargs.ground, Finset.notMem_union, Finset.notMem_union,
      Finset.filter_union, Finset.filter_union]
    exact ⟨⟨⟨ihargs.1, hroot.1⟩, ih.1⟩,
      Finset.union_subset (Finset.union_subset ihargs.2 hroot.2) ih.2⟩

/-! ### The frame of a compound argument -/

section Child

variable {a : Nat} {tag : StrTag} {g : Root}

/-- The frame of the argument of another frame. -/
def childFrame (m : InternState) (tag : StrTag) (a : Nat) (g : Root) : Frame :=
  ⟨tag, a, m.hreg, g.first, true⟩

/-- The frame below it, with the index of the argument after it. -/
def Frame.below (fr : Frame) : Frame := { fr with subtermIndex := fr.subtermIndex + 1 }

/-- The state that a compound term is entered in. -/
structure Entered (w : Words) (heap₀ : Nat → Cell) (s₀ : Interns) (bound : Nat)
    (m : InternState) (rest : List Frame) (tag : StrTag) (a : Nat) (g : Root)
    (m₁ : InternState) : Prop where
  loopOK : LoopOK w heap₀ s₀ bound m₁
  frameOK : FrameOK w heap₀ bound m₁ (childFrame m tag a g) rest g (w.args heap₀ g a)
  hreg : m₁.hreg = m.hreg + w.reclen g
  interns : m₁.interns = m.interns
  heap : ∀ x < m.hreg, m₁.heap x = m.heap x
  header : header m₁.heap tag m.hreg = some g

theorem args_length : (w.args heap₀ g a).length = w.reclen g - g.first := by
  rw [Words.args, length_map, length_range']

theorem enter (hm : LoopOK w heap₀ s₀ bound m) (hbound : bound ≤ m.hreg)
    (hheader : header heap₀ tag a = some g) (hbelow : ∀ i < w.reclen g, a + i < bound) :
    ∃ m₁, InternState.push w { m with frames := rest } tag a = some m₁ ∧
      Entered w heap₀ s₀ bound m rest tag a g m₁ := by
  obtain ⟨-, hconst⟩ := header_tag hheader
  have hheader' : Interning.header m.heap tag a = some g :=
    header_congr hheader fun i hi => hm.heap _ (hbelow i hi)
  obtain ⟨m₁, hpush, hframes, hreg, hinterns, hheap, hhead⟩ :=
    push_spec (w := w) (m := { m with frames := rest }) hheader'
  have hfirst := first_le_reclen (w := w) hconst
  refine ⟨m₁, hpush, ⟨fun x hx => ?_, ?_, ?_⟩, ?_, hreg, hinterns, hheap, hhead⟩
  · exact (hheap x (by show x < m.hreg; omega)).trans (hm.heap x hx)
  · exact hinterns.symm ▸ hm.interns
  · exact hinterns.symm ▸ hm.ext
  · constructor
    case frames => exact hframes
    case header => exact hheader
    case below => exact hbelow
    case cells =>
      rw [args_length]
      rfl
    case index =>
      rw [args_length]
      show g.first + _ = _
      omega
    case newterm => exact hbound
    case room => exact hreg.ge

/-- The step that enters an argument. -/
theorem enter_arg (hm : LoopOK w heap₀ s₀ bound m)
    (hfr : FrameOK w heap₀ bound m fr rest f (c :: cs))
    (hderef : Derefs heap₀ bound n c (.str tag (.heap a)))
    (hpush : InternState.push w { m with frames := fr.below :: rest } tag a = some m₁) :
    m.step w n = some (.ok (.running m₁)) := by
  obtain ⟨hc, hlt, -⟩ := hfr.first hm
  have hnot : m.interns.isinternstr w (.str tag (.heap a)) = some false := by cases tag <;> rfl
  rw [step_arg hfr.frames (hfr.header_now hm) hlt (hc.symm ▸ (hderef.congr hm.heap).eval)]
  simp only [InternState.stepArg, hnot, bind_eq_bind, bind_some,
    Bool.false_eq_true, if_false]
  exact congrArg (Option.map _) hpush

/-- The state after the child frame is left with a cell. -/
def Left (m₂ : InternState) (s : Interns) (k : Nat) (fr : Frame) (rest : List Frame) (c : Cell)
    (b : Bool) : InternState where
  heap := update m₂.heap (fr.newterm + fr.subtermIndex) c
  hreg := k
  interns := s
  frames := { fr.below with ground := fr.ground && b } :: rest

theorem left_eq (m₂ : InternState) (s : Interns) (k : Nat) (fr : Frame) (rest : List Frame)
    (c : Cell) (b : Bool) :
    InternState.leave { m₂ with interns := s, hreg := k } c b (fr.below :: rest) =
      .running (Left m₂ s k fr rest c b) := rfl

theorem Entered.left_done {s : Interns} {k : Nat} {b : Bool}
    (he : Entered w heap₀ s₀ bound m (fr.below :: rest) tag a g m₁)
    (hstep : m.step w n = some (.ok (.running m₁)))
    (hargs : ArgsDone w n bound m₁ (childFrame m tag a g) (fr.below :: rest) len targs m₂)
    (hk : m.hreg ≤ k) {c' : Cell}
    (hleave : m₂.step w n = some (.ok (.running (Left m₂ s k fr rest c' b))))
    (hb : b = t.vars.isEmpty) (hOK : InternsOK w s) (hext : Extends m.interns s)
    (hused : s.used = m.interns.used ∪ (groundArities w t).filter (256 < ·))
    (hreads : Reads w n (Left m₂ s k fr rest c' b).heap s bound
      (fun x => m.hreg ≤ x ∧ x < k) NonGround [c'] t)
    (hdirect : Derefs (Left m₂ s k fr rest c' b).heap bound n c' c') :
    ArgsDone w n bound m fr rest 1 t (Left m₂ s k fr rest c' b) := by
  have hcopies : fr.copies (Left m₂ s k fr rest c' b).heap 1 = [c'] := by
    show [update m₂.heap (fr.newterm + fr.subtermIndex) c' (fr.newterm + fr.subtermIndex)]
      = [c']
    rw [update_self]
  constructor
  case path => exact .step hstep trivial (hargs.path.trans (.step hleave trivial (.refl _)))
  case frames =>
    rw [hb]
    rfl
  case hreg => exact hk
  case heap =>
    intro x hx hnot
    have hchild : ¬((childFrame m tag a g).newterm + (childFrame m tag a g).subtermIndex ≤ x ∧
        x < (childFrame m tag a g).newterm + ((childFrame m tag a g).subtermIndex + len)) := by
      show ¬(m.hreg + g.first ≤ x ∧ _)
      omega
    show update m₂.heap (fr.newterm + fr.subtermIndex) c' x = _
    rw [update_of_ne (by omega), hargs.heap x (by rw [he.hreg]; omega) hchild,
      he.heap x hx]
  case interns => exact hOK
  case ext => exact hext
  case used => exact hused
  case reads =>
    rw [hcopies]
    exact hreads
  case direct =>
    intro x hx
    rw [hcopies] at hx
    rw [mem_singleton.mp hx]
    exact hdirect

/-- The copies of the arguments are those of the copied term. -/
theorem childFrame_copies (w : Words) (heap₀ : Nat → Cell) (m : InternState) (tag : StrTag)
    (a : Nat) (g : Root) (heap : Nat → Cell) :
    (childFrame m tag a g).copies heap (w.args heap₀ g a).length = w.args heap g m.hreg := by
  rw [Frame.copies, args_length]
  rfl

section Done

variable {below : List Frame}

section

variable (he : Entered w heap₀ s₀ bound m below tag a g m₁)
include he

section

variable (hargs : ArgsDone w n bound m₁ (childFrame m tag a g) below len targs m₂)
include hargs

theorem Entered.header_done :
    Interning.header m₂.heap tag m.hreg = some g := by
  obtain ⟨-, hconst⟩ := header_tag he.header
  have hpos : 0 < w.reclen g := by
    cases g with
    | const val => exact absurd rfl (hconst val)
    | list | struct psc => exact Nat.succ_pos _
  exact hargs.header he.header rfl (by rw [he.hreg]; show m.hreg < _; omega)

theorem Entered.header_term :
    Interning.header m₂.heap tag a = some g := by
  have hm2 := hargs.loopOK he.loopOK he.frameOK.newterm
    ((Nat.le_add_right _ _).trans he.hreg.ge)
  exact header_congr he.frameOK.header fun i hi => hm2.heap _ (he.frameOK.below i hi)

end

theorem Entered.index_done (targs : Tuple Root Var) : w.reclen g ≤
      ((childFrame m tag a g).advance (w.args heap₀ g a).length targs).subtermIndex := by
  obtain ⟨-, hconst⟩ := header_tag he.header
  have hfirst := first_le_reclen (w := w) hconst
  show _ ≤ g.first + (w.args heap₀ g a).length
  rw [args_length]
  omega

/-- A term whose copy is ground is left with a record. -/
theorem Entered.leave_record
    (hargs : ArgsDone w (n + 1) bound m₁ (childFrame m tag a g) below (w.args heap₀ g a).length
      targs m₂) (hground : targs.vars = []) :
    (Fits m₂.interns.used (rootArities w g) → ∃ area r s,
      m₂.step w (n + 1) = some (.ok (InternState.leave { m₂ with interns := s, hreg := m.hreg }
        (.str tag (.record area r)) true below)) ∧ InternsOK w s ∧ Extends m₂.interns s ∧
      Stands w s [.str tag (.record area r)] (.app g targs .nil) ∧
      s.used = m₂.interns.used ∪ (rootArities w g).filter (256 < ·)) ∧
    (¬ Fits m₂.interns.used (rootArities w g) → Aborts w (n + 1) m₂) := by
  obtain ⟨-, hconst⟩ := header_tag he.header
  have hfirst := first_le_reclen (w := w) hconst
  have hhead := he.header_done hargs
  have hlen : (w.args m₂.heap g m.hreg).length + g.first = w.reclen g := by
    rw [args_length]
    omega
  have hstands : Stands w m₂.interns (w.args m₂.heap g m.hreg) targs := by
    rw [← childFrame_copies w heap₀ m tag a g]
    exact hargs.reads.stands hground hargs.direct
  have htop : ((childFrame m tag a g).advance (w.args heap₀ g a).length targs).ground = true := by
    rw [Frame.advance, hground]
    rfl
  obtain ⟨hok, herr⟩ := hargs.interns.internRec hhead rfl hlen hstands n
  constructor
  case left =>
    intro hfits
    obtain ⟨area, r, s, hintern, hrest⟩ := hok hfits
    exact ⟨area, r, s, step_intern hargs.frames (he.header_term hargs) (he.index_done targs) htop
      hintern, hrest⟩
  case right =>
    intro hnot
    obtain ⟨msg, hintern⟩ := herr hnot
    refine ⟨1, msg, ?_⟩
    rw [InternState.run, step_intern hargs.frames (he.header_term hargs) (he.index_done targs) htop
      hintern]
    rfl

/-- Any other term is left where it was copied. -/
theorem Entered.leave_heap
    (hargs : ArgsDone w n bound m₁ (childFrame m tag a g) below (w.args heap₀ g a).length targs m₂)
    (hground : targs.vars.isEmpty = false) :
    m₂.step w n = some (.ok (m₂.leave (.str tag (.heap m.hreg)) false below)) := by
  have htop : ((childFrame m tag a g).advance (w.args heap₀ g a).length targs).ground = false := by
    rw [Frame.advance, hground, Bool.and_false]
  exact step_leave hargs.frames (he.header_term hargs) (he.index_done targs) htop

end

/-- The copy that is left on the heap. -/
theorem Entered.reads_copy {heap' : Nat → Cell} (he : Entered w heap₀ s₀ bound m below tag a g m₁)
    (hargs : ArgsDone w (n + 1) bound m₁ (childFrame m tag a g) below (w.args heap₀ g a).length
      targs m₂) (hground : targs.vars ≠ [])
    (hheap : ∀ x, x < bound ∨ m.hreg ≤ x → heap' x = m₂.heap x) :
    Reads w (n + 1) heap' m₂.interns bound (fun x => m.hreg ≤ x ∧ x < m₂.hreg) NonGround
      [.str tag (.heap m.hreg)] (.app g targs .nil) := by
  have hreg := hargs.hreg
  rw [he.hreg] at hreg
  have hreads := hargs.reads
  rw [childFrame_copies] at hreads
  refine .compound (.str _ _) ?_ (fun i hi => ⟨Nat.le_add_right _ _, by omega⟩) hground ?_ .nil
  · exact header_congr (w := w) (he.header_done hargs)
      fun i _ => hheap _ (.inr (Nat.le_add_right _ _))
  · rw [args_congr fun i _ => hheap _ (.inr (Nat.le_add_right _ _))]
    refine hreads.mono (fun x hx ↦ hheap x (.inl hx)) (fun x hx ↦ ⟨hheap x (.inr ?_), ?_⟩) (.refl _)
    · rw [he.hreg] at hx
      omega
    · rw [he.hreg] at hx
      omega

end Done

section

variable (he : Entered w heap₀ s₀ bound m (fr.below :: rest) tag a g m₁)
include he

/-- A ground argument becomes a record. -/
theorem Entered.left_ground (hstep : m.step w (n + 1) = some (.ok (.running m₁)))
    (hargs : ArgsDone w (n + 1) bound m₁ (childFrame m tag a g) (fr.below :: rest)
      (w.args heap₀ g a).length targs m₂) (hground : targs.vars = [])
    (hfits : Fits m₂.interns.used (rootArities w g)) :
    ∃ m3, ArgsDone w (n + 1) bound m fr rest 1 (.app g targs .nil) m3 ∧ m3.hreg = m.hreg ∧
      m₂.step w (n + 1) = some (.ok (.running m3)) := by
  obtain ⟨area, r, s, hleave, hs, hext, hrec, hused⟩ := (he.leave_record hargs hground).1 hfits
  rw [left_eq] at hleave
  have hdirect : ∀ heap, Derefs heap bound (n + 1) (.str tag (.record area r))
      (.str tag (.record area r)) := fun _ => .str _ _
  refine ⟨_, he.left_done hstep hargs le_rfl hleave ?_ hs ?_ ?_ ?_ (hdirect _), rfl, hleave⟩
  · rw [Tuple.vars, hground]
    rfl
  · rw [← he.interns]
    exact hargs.ext.trans hext
  · rw [hused, hargs.used, he.interns, groundArities, groundArities, if_pos hground,
      Finset.union_empty, Finset.filter_union, Finset.union_assoc]
  · exact .interned (hdirect _) hrec .nil

/-- An argument with a variable stays on the heap. -/
theorem Entered.left_heap (hstep : m.step w (n + 1) = some (.ok (.running m₁)))
    (hfr : FrameOK w heap₀ bound m fr rest f (c :: cs))
    (hargs : ArgsDone w (n + 1) bound m₁ (childFrame m tag a g) (fr.below :: rest)
      (w.args heap₀ g a).length targs m₂) (hground : targs.vars ≠ []) :
    ∃ m3, ArgsDone w (n + 1) bound m fr rest 1 (.app g targs .nil) m3 ∧ m3.hreg = m₂.hreg ∧
      m₂.step w (n + 1) = some (.ok (.running m3)) := by
  have hroom := hfr.room
  have hnew := hfr.newterm
  have hindex := hfr.index
  rw [length_cons] at hindex
  have hreg := hargs.hreg
  rw [he.hreg] at hreg
  have hempty : targs.vars.isEmpty = false := by
    cases hv : targs.vars with
    | nil => exact absurd hv hground
    | cons v l => rfl
  have hleave : m₂.step w (n + 1) = some (.ok (.running
      (Left m₂ m₂.interns m₂.hreg fr rest (.str tag (.heap m.hreg)) false))) :=
    he.leave_heap hargs hempty
  refine ⟨_, he.left_done hstep hargs (by omega) hleave ?_ hargs.interns ?_ ?_ ?_ (.str _ _), rfl,
    hleave⟩
  · rw [Tuple.vars, Tuple.vars, append_nil, hempty]
  · rw [← he.interns]
    exact hargs.ext
  · rw [hargs.used, he.interns, groundArities, groundArities, if_neg hground,
      Finset.union_empty, Finset.union_empty]
  · exact he.reads_copy hargs hground fun x hx => update_of_ne (by omega) ..

end

/-- A compound argument is copied, or becomes a record. -/
theorem Copied.compound (hm : LoopOK w heap₀ s₀ bound m)
    (hfr : FrameOK w heap₀ bound m fr rest f (c :: cs))
    (hderef : Derefs heap₀ bound (n + 1) c (.str tag (.heap a)))
    (hheader : header heap₀ tag a = some g) (hbelow : ∀ i < w.reclen g, a + i < bound)
    (ih : ∀ m₁ child rest', LoopOK w heap₀ s₀ bound m₁ →
      FrameOK w heap₀ bound m₁ child rest' g (w.args heap₀ g a) →
      Copied w (n + 1) heap₀ s₀ bound m₁ child rest' (w.args heap₀ g a) targs) :
    Copied w (n + 1) heap₀ s₀ bound m fr rest [c] (.app g targs .nil) := by
  have hroom : bound ≤ m.hreg := hfr.newterm.trans ((Nat.le_add_right _ _).trans hfr.room)
  obtain ⟨m₁, hpush, he⟩ := enter hm hroom hheader hbelow
  have hstep := enter_arg hm hfr hderef hpush
  have hargs := ih m₁ _ _ he.loopOK he.frameOK
  -- the size of the argument is that of its record and of its own arguments
  have hsized : ∀ d size, Sized w (n + 1) s₀ heap₀ d [c] size →
      ∃ d' size', Sized w (n + 1) s₀ heap₀ d' (w.args heap₀ g a) size' ∧
        w.reclen g + size' ≤ size := by
    rintro d size ⟨l, hl, hsum⟩
    cases hl with
    | @cons _ z _ l hz hl =>
      cases hl
      rw [hderef.eval, bind_some] at hz
      obtain ⟨d', size', rfl, hsize'⟩ := internTermSize_compound hz hheader
      exact ⟨d', size', hsize', by simpa using hsum⟩
  have hused : m₁.interns.used = m.interns.used := by rw [he.interns]
  -- the argument is entered, its arguments are copied, and it is left
  have hpath : ∀ {m₂ m3 size size'}, m₂.step w (n + 1) = some (.ok (.running m3)) →
      w.reclen g + size' ≤ size → Path w (n + 1) (· ≤ m₁.hreg + size') m₁ m₂ →
      m3.hreg ≤ m.hreg + size → Path w (n + 1) (· ≤ m.hreg + size) m m3 := by
    intro m₂ m3 size size' hleave hsize hpath hreg
    have hreg1 := he.hreg
    refine .step hstep (by omega) ((hpath.imp fun k hk => ?_).trans (.step hleave hreg (.refl _)))
    omega
  have habort : Aborts w (n + 1) m₁ → Aborts w (n + 1) m :=
    (Path.step hstep trivial (.refl _) : Path w (n + 1) (fun _ => True) m m₁).aborts
  rw [Copied, groundArities, groundArities, Finset.union_empty]
  by_cases hground : targs.vars = []
  case pos =>
    rw [if_pos hground, fits_union, ← hused]
    constructor
    case left =>
      rintro ⟨hfits, hroot⟩
      obtain ⟨m₂, hdone, hsize⟩ := hargs.1 hfits
      obtain ⟨m3, hdone3, hreg, hleave⟩ :=
        he.left_ground hstep hdone hground (hdone.used ▸ hroot)
      refine ⟨m3, hdone3, fun d size hd => ?_⟩
      obtain ⟨d', size', hd', hle⟩ := hsized d size hd
      have hreg3 : m3.hreg ≤ m.hreg + size := by omega
      exact ⟨hreg3, hpath hleave hle (hsize d' size' hd').2 hreg3⟩
    case right =>
      intro hnot
      by_cases hfits : Fits m₁.interns.used (groundArities w targs)
      case pos =>
        obtain ⟨m₂, hdone, -⟩ := hargs.1 hfits
        have hroot := (he.leave_record hdone hground).2 fun hroot ↦ hnot ⟨hfits, hdone.used ▸ hroot⟩
        exact habort (hdone.path.aborts hroot)
      case neg => exact habort (hargs.2 hfits)
  case neg =>
    rw [if_neg hground, Finset.union_empty, ← hused]
    refine ⟨fun hfits => ?_, fun hnot => habort (hargs.2 hnot)⟩
    obtain ⟨m₂, hdone, hsize⟩ := hargs.1 hfits
    obtain ⟨m3, hdone3, hreg, hleave⟩ := he.left_heap hstep hfr hdone hground
    refine ⟨m3, hdone3, fun d size hd => ?_⟩
    obtain ⟨d', size', hd', hle⟩ := hsized d size hd
    obtain ⟨hreg2, hpath2⟩ := hsize d' size' hd'
    have hreg1 := he.hreg
    have hreg3 : m3.hreg ≤ m.hreg + size := by omega
    exact ⟨hreg3, hpath hleave hle hpath2 hreg3⟩

end Child

/-! ### All arguments -/

theorem Copied.nil (hm : LoopOK w heap₀ s₀ bound m) (hframes : m.frames = fr :: rest) :
    Copied w n heap₀ s₀ bound m fr rest [] .nil := by
  refine ⟨fun _ => ⟨m, ?_, fun d size _ => ⟨Nat.le_add_right _ _, .refl _⟩⟩,
    fun hnot => absurd hm.interns.fits_empty hnot⟩
  constructor
  case path => exact .refl _
  case frames =>
    rw [hframes]
    cases fr with
    | mk tag term newterm index ground => cases ground <;> rfl
  case hreg => exact le_rfl
  case heap => exact fun _ _ _ => rfl
  case interns => exact hm.interns
  case ext => exact .refl _
  case used => rw [groundArities, Finset.filter_empty, Finset.union_empty]
  case reads => exact .nil
  case direct => exact fun c hc => absurd hc not_mem_nil

/-- What an interned term needs is there. -/
theorem Stands.fits (h : Stands w s cs t) (hOK : InternsOK w s) :
    Fits s.used (groundArities w t) ∧ s.used ∪ (groundArities w t).filter (256 < ·) = s.used := by
  obtain ⟨hnot, hsub⟩ := h.arities hOK
  have hunion := Finset.union_eq_left.mpr hsub
  have hempty := hOK.fits_empty.2
  rw [Finset.filter_empty, Finset.union_empty] at hempty
  exact ⟨⟨hnot, by rwa [hunion]⟩, hunion⟩

/-- The loop copies the cells that are left in the top frame. -/
theorem Reads.copied (h : Reads w (n + 1) heap₀ s₀ bound (· < bound) (fun _ => True) cs t)
    (hm : LoopOK w heap₀ s₀ bound m) (hfr : FrameOK w heap₀ bound m fr rest f cs) :
    Copied w (n + 1) heap₀ s₀ bound m fr rest cs t := by
  have hnext : ∀ {m m₁ : InternState} {fr : Frame} {rest : List Frame} {f : Root} {c : Cell}
      {cs : List Cell} {t1 : Tuple Root Var}, LoopOK w heap₀ s₀ bound m →
      FrameOK w heap₀ bound m fr rest f (c :: cs) →
      ArgsDone w (n + 1) bound m fr rest 1 t1 m₁ → LoopOK w heap₀ s₀ bound m₁ :=
    fun hm hfr hdone => hdone.loopOK hm hfr.newterm ((Nat.le_add_right _ _).trans hfr.room)
  have hnone : ∀ {m : InternState}, LoopOK w heap₀ s₀ bound m → Fits m.interns.used ∅ ∧
      m.interns.used ∪ (∅ : Finset Nat).filter (256 < ·) = m.interns.used :=
    fun hm => ⟨hm.interns.fits_empty, by rw [Finset.filter_empty, Finset.union_empty]⟩
  induction h generalizing m fr rest f with
  | nil => exact .nil hm hfr.frames
  | @ref c cs a t hd _ ih =>
    have hcopy : Copied w (n + 1) heap₀ s₀ bound m fr rest [c] (.var (.ref a) .nil) :=
      .copyArg hm hfr hd rfl rfl (hnone hm).1 (hnone hm).2
        (.ref (hd.congr hm.heap).self .nil)
    exact .cons hfr hcopy fun m₁ hdone => ih (hnext hm hfr hdone) (hfr.next hm hdone)
  | @attv c cs a t hd _ ih =>
    have hcopy : Copied w (n + 1) heap₀ s₀ bound m fr rest [c] (.var (.attv a) .nil) :=
      .copyArg hm hfr hd rfl rfl (hnone hm).1 (hnone hm).2
        (.attv (hd.congr hm.heap).self .nil)
    exact .cons hfr hcopy fun m₁ hdone => ih (hnext hm hfr hdone) (hfr.next hm hdone)
  | @const c cs val t hd _ ih =>
    have harities : groundArities w (.app (.const val) .nil .nil) = ∅ := by
      simp [groundArities, rootArities]
    have hcopy : Copied w (n + 1) heap₀ s₀ bound m fr rest [c] (.app (.const val) .nil .nil) :=
      .copyArg hm hfr hd rfl rfl (harities ▸ (hnone hm).1) (harities ▸ (hnone hm).2)
        (.const (hd.congr hm.heap).self .nil)
    exact .cons hfr hcopy fun m₁ hdone => ih (hnext hm hfr hdone) (hfr.next hm hdone)
  | @interned c cs tag area r f' targs t hd hstands _ ih =>
    have hstands' := hstands.mono hm.ext
    have hcopy : Copied w (n + 1) heap₀ s₀ bound m fr rest [c] (.app f' targs .nil) := by
      obtain ⟨hfits, hused⟩ := hstands'.fits hm.interns
      refine .copyArg hm hfr hd ?_ (g := true) ?_ hfits hused
        (.interned (hd.congr hm.heap).self hstands' .nil)
      · simp only [InternState.stepArg, hstands'.isinternstr hm.interns, bind_eq_bind,
          bind_some, if_true]
      · rw [hstands.ground]
        rfl
    exact .cons hfr hcopy fun m₁ hdone => ih (hnext hm hfr hdone) (hfr.next hm hdone)
  | @compound c cs tag a g targs t hd hheader hu _ _ _ ihargs ih =>
    have hcopy : Copied w (n + 1) heap₀ s₀ bound m fr rest [c] (.app g targs .nil) :=
      .compound hm hfr hd hheader hu fun m₁ child rest' hm1 hfr1 => ihargs hm1 hfr1
    exact .cons hfr hcopy fun m₁ hdone => ih (hnext hm hfr hdone) (hfr.next hm hdone)

end XSBEngine.Interning
