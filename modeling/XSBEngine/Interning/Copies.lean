import XSBEngine.Interning.Denotation

/-!
# Terms on the heap and their copies

What cells of the heap stand for, the states that the loop of `intern_term` goes through, and what
one round of it does.
-/

namespace XSBEngine.Interning

open Library List Option PrefixTerms

/-! ### Terms on the heap -/

/-- What a cell dereferences to, by cells below an address. -/
inductive Derefs (heap : Nat → Cell) (bound : Nat) : Nat → Cell → Cell → Prop where
  | free {n a : Nat} : a < bound → heap a = .ref a → Derefs heap bound (n + 1) (.ref a) (.ref a)
  | freeAttv {n a : Nat} : a < bound → heap a = .ref a →
      Derefs heap bound (n + 1) (.attv a) (.attv a)
  | ref {n a : Nat} {c : Cell} : a < bound → heap a ≠ .ref a → Derefs heap bound n (heap a) c →
      Derefs heap bound (n + 1) (.ref a) c
  | attv {n a : Nat} {c : Cell} : a < bound → heap a ≠ .ref a → Derefs heap bound n (heap a) c →
      Derefs heap bound (n + 1) (.attv a) c
  | const {n : Nat} (val : Nat) : Derefs heap bound (n + 1) (.const val) (.const val)
  | str {n : Nat} (tag : StrTag) (p : Place) :
      Derefs heap bound (n + 1) (.str tag p) (.str tag p)

/-- The terms that cells stand for. Variables are below an address, the cells of compound terms are
at the given addresses, and their arguments satisfy a condition. -/
inductive Reads (w : Words) (n : Nat) (heap : Nat → Cell) (s : Interns) (bound : Nat)
    (user : Nat → Prop) (ok : Tuple Root Var → Prop) : List Cell → Tuple Root Var → Prop where
  | nil : Reads w n heap s bound user ok [] .nil
  | ref {c : Cell} {cs : List Cell} {a : Nat} {t : Tuple Root Var} :
      Derefs heap bound n c (.ref a) → Reads w n heap s bound user ok cs t →
      Reads w n heap s bound user ok (c :: cs) (.var (.ref a) t)
  | attv {c : Cell} {cs : List Cell} {a : Nat} {t : Tuple Root Var} :
      Derefs heap bound n c (.attv a) → Reads w n heap s bound user ok cs t →
      Reads w n heap s bound user ok (c :: cs) (.var (.attv a) t)
  | const {c : Cell} {cs : List Cell} {val : Nat} {t : Tuple Root Var} :
      Derefs heap bound n c (.const val) → Reads w n heap s bound user ok cs t →
      Reads w n heap s bound user ok (c :: cs) (.app (.const val) .nil t)
  | interned {c : Cell} {cs : List Cell} {tag : StrTag} {area : Nat} {r : RecPtr} {f : Root}
      {targs t : Tuple Root Var} :
      Derefs heap bound n c (.str tag (.record area r)) →
      Stands w s [.str tag (.record area r)] (.app f targs .nil) →
      Reads w n heap s bound user ok cs t →
      Reads w n heap s bound user ok (c :: cs) (.app f targs t)
  | compound {c : Cell} {cs : List Cell} {tag : StrTag} {a : Nat} {f : Root}
      {targs t : Tuple Root Var} :
      Derefs heap bound n c (.str tag (.heap a)) → header heap tag a = some f →
      (∀ i < w.reclen f, user (a + i)) → ok targs →
      Reads w n heap s bound user ok (w.args heap f a) targs →
      Reads w n heap s bound user ok cs t →
      Reads w n heap s bound user ok (c :: cs) (.app f targs t)

/-- Terms in which every compound subterm on the heap has a variable. -/
def NonGround (targs : Tuple Root Var) : Prop := targs.vars ≠ []

variable {w : Words} {n : Nat} {heap heap' : Nat → Cell} {s s' : Interns} {bound : Nat}
  {user user' : Nat → Prop} {ok : Tuple Root Var → Prop} {c c' : Cell} {cs : List Cell}
  {t : Tuple Root Var} {f : Root}

theorem Derefs.eval (h : Derefs heap bound n c c') : deref heap n c = some c' := by
  induction h with
  | free _ ha | freeAttv _ ha => exact if_pos ha
  | ref _ ha _ ih | attv _ ha _ ih => rw [deref, if_neg ha, ih]
  | const val | str tag p => rfl

theorem Derefs.congr (h : Derefs heap bound n c c') (heq : ∀ a < bound, heap' a = heap a) :
    Derefs heap' bound n c c' := by
  induction h with
  | free hlt ha => exact .free hlt ((heq _ hlt).trans ha)
  | freeAttv hlt ha => exact .freeAttv hlt ((heq _ hlt).trans ha)
  | ref hlt ha _ ih =>
    rw [← heq _ hlt] at ha ih
    exact .ref hlt ha ih
  | attv hlt ha _ ih =>
    rw [← heq _ hlt] at ha ih
    exact .attv hlt ha ih
  | const val => exact .const val
  | str tag p => exact .str tag p

/-- What a cell dereferences to dereferences to itself. -/
theorem Derefs.self (h : Derefs heap bound n c c') {k : Nat} :
    Derefs heap bound (k + 1) c' c' := by
  induction h with
  | free hlt ha => exact .free hlt ha
  | freeAttv hlt ha => exact .freeAttv hlt ha
  | ref _ _ _ ih | attv _ _ _ ih => exact ih
  | const val => exact .const val
  | str tag p => exact .str tag p

theorem header_congr {tag : StrTag} {a : Nat} (h : header heap tag a = some f)
    (heq : ∀ i < w.reclen f, heap' (a + i) = heap (a + i)) : header heap' tag a = some f := by
  cases tag with
  | list => exact h
  | struct =>
    have hf := header_tag h
    cases f with
    | const val => exact absurd rfl (hf.2 val)
    | list => exact StrTag.noConfusion hf.1
    | struct psc =>
      have hread : heap' a = heap a := heq 0 (Nat.succ_pos _)
      rw [header, hread]
      exact h

theorem args_congr {a : Nat} (heq : ∀ i < w.reclen f, heap' (a + i) = heap (a + i)) :
    w.args heap' f a = w.args heap f a := by
  apply map_congr_left
  intro i hi
  have hi := mem_range'_1.mp hi
  exact heq i (by omega)

/-- Terms do not depend on other cells, and further records do not matter. -/
theorem Reads.mono (h : Reads w n heap s bound user ok cs t)
    (hbound : ∀ a < bound, heap' a = heap a) (huser : ∀ a, user a → heap' a = heap a ∧ user' a)
    (hext : Extends s s') : Reads w n heap' s' bound user' ok cs t := by
  induction h with
  | nil => exact .nil
  | ref hd _ ih => exact .ref (hd.congr hbound) ih
  | attv hd _ ih => exact .attv (hd.congr hbound) ih
  | const hd _ ih => exact .const (hd.congr hbound) ih
  | interned hd hstands _ ih => exact .interned (hd.congr hbound) (hstands.mono hext) ih
  | compound hd hheader hu hok _ _ ihargs ih =>
    have heq := fun i hi => (huser _ (hu i hi)).1
    refine .compound (hd.congr hbound) (header_congr hheader heq)
      (fun i hi => (huser _ (hu i hi)).2) hok ?_ ih
    rwa [args_congr heq]

/-- Ground terms are interned if none of their compound subterms on the heap is ground. -/
theorem Reads.stands (h : Reads w n heap s bound user NonGround cs t) (hground : t.vars = [])
    (hself : ∀ c ∈ cs, Derefs heap bound n c c) : Stands w s cs t := by
  induction h with
  | nil => exact .nil
  | ref _ _ _ | attv _ _ _ => exact absurd hground (cons_ne_nil _ _)
  | const hd _ ih =>
    have heq := (hself _ mem_cons_self).eval.symm.trans hd.eval
    rw [some.inj heq]
    exact .const (ih hground fun c hc => hself c (mem_cons_of_mem _ hc))
  | interned hd hstands _ ih =>
    have heq := (hself _ mem_cons_self).eval.symm.trans hd.eval
    rw [some.inj heq]
    have hvars := (append_eq_nil_iff.mp hground).2
    have hrest := ih hvars fun c hc => hself c (mem_cons_of_mem _ hc)
    cases hstands with
    | record htag harea hr hrec hlen hargs _ => exact .record htag harea hr hrec hlen hargs hrest
  | compound _ _ _ hok _ _ _ _ => exact absurd (append_eq_nil_iff.mp hground).1 hok

/-! ### The condition on arities -/

theorem fits_union {used a b : Finset Nat} :
    Fits used (a ∪ b) ↔ Fits used a ∧ Fits (used ∪ a.filter (256 < ·)) b := by
  have hunion : used ∪ (a ∪ b).filter (256 < ·) =
      used ∪ a.filter (256 < ·) ∪ b.filter (256 < ·) := by
    rw [Finset.filter_union, Finset.union_assoc]
  unfold Fits
  rw [hunion, Finset.notMem_union]
  constructor
  · rintro ⟨⟨ha, hb⟩, hcard⟩
    exact ⟨⟨ha, (Finset.card_le_card Finset.subset_union_left).trans hcard⟩, hb, hcard⟩
  · rintro ⟨⟨ha, -⟩, hb, hcard⟩
    exact ⟨⟨ha, hb⟩, hcard⟩

theorem InternsOK.fits_empty (h : InternsOK w s) : Fits s.used ∅ := by
  obtain ⟨k, hslots⟩ := h.slots
  refine ⟨Finset.notMem_empty _, ?_⟩
  rw [Finset.filter_empty, Finset.union_empty, hslots.card_used]
  exact hslots.le

/-! ### The states of the loop -/

/-- The loop gets from one state to another one, by states whose `hreg` meets a condition. -/
inductive Path (w : Words) (n : Nat) (ok : Nat → Prop) : InternState → InternState → Prop where
  | refl (m : InternState) : Path w n ok m m
  | step {m m₁ m' : InternState} : m.step w n = some (.ok (.running m₁)) → ok m₁.hreg →
      Path w n ok m₁ m' → Path w n ok m m'

/-- The loop ends with an error. -/
def Aborts (w : Words) (n : Nat) (m : InternState) : Prop :=
  ∃ fuel msg, m.run w n fuel = some (.error msg)

section Path

variable {ok ok' : Nat → Prop} {m m₁ m' m'' : InternState}

section

variable (h : Path w n ok m m')
include h

theorem Path.trans (h' : Path w n ok m' m'') : Path w n ok m m'' := by
  induction h with
  | refl => exact h'
  | step hstep hok _ ih => exact .step hstep hok (ih h')

theorem Path.imp (hok : ∀ k, ok k → ok' k) : Path w n ok' m m' := by
  induction h with
  | refl => exact .refl _
  | step hstep hk _ ih => exact .step hstep (hok _ hk) ih

/-- The loop goes on from the states that it reaches. -/
theorem Path.run : ∃ k, ∀ fuel, m.run w n (fuel + k) = m'.run w n fuel := by
  induction h with
  | refl => exact ⟨0, fun _ => rfl⟩
  | step hstep _ _ ih =>
    obtain ⟨k, hk⟩ := ih
    refine ⟨k + 1, fun fuel => ?_⟩
    rw [← Nat.add_assoc, InternState.run, hstep]
    exact hk fuel

theorem Path.aborts (habort : Aborts w n m') : Aborts w n m := by
  obtain ⟨k, hk⟩ := h.run
  obtain ⟨fuel, msg, hrun⟩ := habort
  exact ⟨fuel + k, msg, (hk fuel).trans hrun⟩

/-- All states before the end of the loop are on the path to its last one. -/
theorem Path.after {c : Cell} {last : InternState}
    (hlast : m'.step w n = some (.ok (.done c last))) {k : Nat} {mk : InternState}
    (hm : ok m.hreg) (hk : m.after w n k = some mk) : ok mk.hreg := by
  induction h generalizing k with
  | refl m =>
    cases k with
    | zero => exact some.inj hk ▸ hm
    | succ k =>
      rw [InternState.after, hlast] at hk
      exact absurd hk.symm (some_ne_none mk)
  | step hstep hok _ ih =>
    cases k with
    | zero => exact some.inj hk ▸ hm
    | succ k =>
      rw [InternState.after, hstep] at hk
      exact ih hlast hok hk

end

/-- More fuel does not change the result. -/
theorem run_mono {fuel k : Nat} {res : Except String (Cell × InternState)}
    (h : m.run w n fuel = some res) : m.run w n (fuel + k) = some res := by
  induction fuel generalizing m with
  | zero => exact absurd h.symm (some_ne_none res)
  | succ fuel ih =>
    rw [Nat.add_right_comm, InternState.run]
    rw [InternState.run] at h
    split at h
    next => exact absurd h.symm (some_ne_none res)
    next => exact h
    next => exact h
    next => exact ih h

end Path

end XSBEngine.Interning
