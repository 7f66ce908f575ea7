import XSBEngine.Tries.SoftDelete

/-!
# Aborted insertions into interned tries

What `CHECK_TRIE_INTERN_DEPTH`, `XSB/emu/tries.c:2647–2672`, leaves behind when it aborts: the
nodes of the symbols read so far, and the variables met so far, which lead to the enumerator
array.
-/

namespace XSBEngine.Tries

open List StackTraversal Terms Trie

/-! ### Variables -/

/-- A cell that leads to cells a program can use. -/
def Points (arity : Nat → Nat) (m : Machine) : Cell → Prop
  | .ref a => m.User a
  | .list a => m.User a ∧ m.User (a.plus 1)
  | .struct a => ∀ psc, m.mem a = .functor psc → ∀ k ≤ arity psc, m.User (a.plus k)
  | .attv a => m.User a ∧ m.User (a.plus 1)
  | _ => True

/-- The cells that a program can use lead to such cells. -/
def Closed (arity : Nat → Nat) (m : Machine) : Prop :=
  ∀ a, m.User a → Points arity m (m.mem a)

variable {t t' : Trie} {p q : BTNptr} {u w path : List Symbol} {env : Env} {call : InternCall}
  {fuel : Nat} {m m' : Machine} {reason : InternAbort} {a b : Addr} {c c' : Cell}
  {cs cs' : List Cell} {l : List Symbol} {arity : Nat → Nat} {v : Visit}

theorem deref_free {mem : Memory} {n : Nat} (h : deref mem n c = some c')
    (hc : c' = .ref b ∨ c' = .attv b) : mem b = .ref b := by
  induction n generalizing c with
  | zero => cases h
  | succ n ih =>
    cases c with
    | ref a =>
      simp only [deref] at h
      split at h
      next ha =>
        cases h
        rcases hc with hc | hc
        · cases hc; exact ha
        · cases hc
      next => exact ih h
    | attv a =>
      simp only [deref] at h
      split at h
      next ha =>
        cases h
        rcases hc with hc | hc
        · cases hc
        · cases hc; exact ha
      next => exact ih h
    | functor psc => cases h
    | const tag val | list a | struct a => cases h; rcases hc with hc | hc <;> cases hc

theorem Closed.deref (hm : Closed arity m) {n : Nat} (h : deref m.mem n c = some c')
    (hc : Points arity m c) : Points arity m c' := by
  induction n generalizing c with
  | zero => cases h
  | succ n ih =>
    cases c with
    | ref a =>
      simp only [Terms.deref] at h
      split at h
      next => cases h; exact hc
      next => exact ih h (hm a hc)
    | attv a =>
      simp only [Terms.deref] at h
      split at h
      next => cases h; exact hc
      next => exact ih h (hm a hc.1)
    | functor psc => cases h
    | const tag val | list a | struct a => cases h; exact hc

theorem user_not_table (h : m.User a) : a.area ≠ .tableSpace := by
  intro harea
  rw [Machine.User, harea] at h
  exact h

/-- A variable that is bound stays bound while other variables are. -/
theorem standardize_keeps (hfree : m.mem b = .ref b) (hbound : m.mem a ≠ .ref a)
    (harea : a.area ≠ .tableSpace) (i : Nat) :
    (m.standardizeAndTrailVariable b i).mem a = m.mem a := by
  have hne : a ≠ b := fun he => hbound (he ▸ hfree)
  simp only [Machine.standardizeAndTrailVariable, Machine.standardizeVariable, Machine.write]
  rw [Function.update_of_ne hne]
  split
  · rfl
  · simp only [Machine.expandVarenumerators]
    rw [if_neg fun h => harea h.1]

/-- The first variable is bound to the first cell of the array. -/
theorem standardize_first (hok : m.OK) (harea : a.area ≠ .tableSpace) :
    (m.standardizeAndTrailVariable a 0).mem a ≠ .ref a := by
  simp only [Machine.standardizeAndTrailVariable, Machine.standardizeVariable, Machine.write]
  rw [if_pos hok.pos, Function.update_self, hok.cells 0 hok.pos]
  intro he
  apply harea
  rw [← Cell.ref.inj he]
  rfl

/-- What one cell does to the variables. -/
theorem visit_cases {ctr : Nat} (h : visit arity false false m ctr c = some v) :
    (v.symbol.tag ≠ .trieVar ∧ v.machine = m ∧ v.ctr = ctr ∧
        (Closed arity m → Points arity m c → ∀ x ∈ v.push, Points arity m x)) ∨
      v.symbol.tag = .trieVar ∧ ∃ b, (c = .ref b ∨ c = .attv b) ∧
        (v.machine = m.standardizeAndTrailVariable b ctr ∨
          v.machine = m ∧ m.isStandardizedVariable b = true) := by
  have hpush : ∀ cells : List Addr, Closed arity m → (∀ x ∈ cells, m.User x) →
      ∀ x ∈ pushArgs false m.mem cells, Points arity m x := by
    intro cells hm hcells x hx
    obtain ⟨y, hy, rfl⟩ := mem_map.mp hx
    exact hm y (hcells y hy)
  cases c with
  | ref x =>
    right
    simp only [visit] at h
    split at h
    next hs => cases h; exact ⟨rfl, x, .inl rfl, .inr ⟨rfl, hs⟩⟩
    next => cases h; exact ⟨rfl, x, .inl rfl, .inl rfl⟩
  | const tag val =>
    cases h
    exact .inl ⟨by cases tag <;> exact SymbolTag.noConfusion, rfl, rfl, fun _ _ x hx =>
      absurd hx not_mem_nil⟩
  | list x =>
    cases h
    refine .inl ⟨SymbolTag.noConfusion, rfl, rfl, fun hm hx => hpush _ hm ?_⟩
    simp only [forall_mem_cons]
    exact ⟨hx.1, hx.2, fun _ hy => absurd hy not_mem_nil⟩
  | struct x =>
    simp only [visit] at h
    split at h
    next psc hpsc =>
      cases h
      refine .inl ⟨SymbolTag.noConfusion, rfl, rfl, fun hm hx => hpush _ hm fun y hy => ?_⟩
      obtain ⟨j, hj, rfl⟩ := mem_map.mp hy
      have hlt := mem_range.mp hj
      exact hx psc hpsc (j + 1) (by omega)
    next => cases h
  | attv x =>
    cases h
    exact .inr ⟨rfl, x, .inr rfl, .inl rfl⟩
  | functor psc => cases h

variable {σ ρ : Type} {k : Walker σ ρ} {s s' : Reader σ}

/-- A variable that is bound stays bound. -/
theorem Walker.reads_keeps (hmove : k.move = false) (haddr : k.byAddr = false)
    (h : Reads k.step s cs l s' cs') (harea : a.area ≠ .tableSpace)
    (hbound : s.machine.mem a ≠ .ref a) : s'.machine.mem a ≠ .ref a := by
  apply h.invariant (P := fun s : Reader σ => s.machine.mem a ≠ .ref a) _ hbound
  intro n s c x push s' hs hb
  obtain ⟨cell, v, limits, hd, hv, rfl, rfl, rfl⟩ := Walker.step_emit hs
  rw [hmove, haddr] at hv
  rcases visit_cases hv with ⟨-, hm, -⟩ | ⟨-, b, hc, hm | ⟨hm, -⟩⟩
  · show v.machine.mem a ≠ _
    rw [hm]
    exact hb
  · show v.machine.mem a ≠ _
    rw [hm, standardize_keeps (deref_free hd hc) hb harea]
    exact hb
  · show v.machine.mem a ≠ _
    rw [hm]
    exact hb

/-- A walk leaves the variables as they are until it meets the first one. -/
theorem Walker.reads_binds (hmove : k.move = false) (haddr : k.byAddr = false)
    (h : Reads k.step s cs l s' cs') (hok : s.machine.OK) (hctr : s.ctr = 0)
    (hm : Closed k.arity s.machine) (hcs : ∀ c ∈ cs, Points k.arity s.machine c) :
    ((∀ x ∈ l, x.tag ≠ .trieVar) → s'.machine = s.machine) ∧
      ((∃ x ∈ l, x.tag = .trieVar) →
        ∃ a, s.machine.FreeVar a ∧ s'.machine.mem a ≠ .ref a) := by
  induction h with
  | refl => exact ⟨fun _ => rfl, fun ⟨x, hx, _⟩ => absurd hx not_mem_nil⟩
  | @head n s s₁ s' c cs cs' push x l hs hr ih =>
    obtain ⟨cell, v, limits, hd, hv, rfl, rfl, rfl⟩ := Walker.step_emit hs
    rw [hmove, haddr] at hv
    have hcell := hm.deref hd (hcs c mem_cons_self)
    rcases visit_cases hv with ⟨htag, hmach, hctr', hpush⟩ | ⟨htag, b, hc, hmach⟩
    · have hok' : v.machine.OK := by rw [hmach]; exact hok
      have hm' : Closed k.arity v.machine := by rw [hmach]; exact hm
      have hcs' : ∀ c ∈ v.push ++ cs, Points k.arity v.machine c := by
        intro c hc
        rw [hmach]
        rcases mem_append.mp hc with hc | hc
        · exact hpush hm hcell c hc
        · exact hcs c (mem_cons_of_mem _ hc)
      have ih := ih hok' (hctr'.trans hctr) hm' hcs'
      simp only [hmach] at ih
      simp only [forall_mem_cons, exists_mem_cons_iff]
      refine ⟨fun hall => ih.1 hall.2, fun hex => ?_⟩
      rcases hex with hx | hex
      · exact absurd hx htag
      · exact ih.2 hex
    · have hb : s.machine.mem b = .ref b := deref_free hd hc
      have huser : s.machine.User b := by
        rcases hc with rfl | rfl
        · exact hcell
        · exact hcell.1
      refine ⟨fun hall => absurd htag (hall _ mem_cons_self), fun _ => ⟨b, ⟨huser, hb⟩, ?_⟩⟩
      apply Walker.reads_keeps hmove haddr hr (user_not_table huser)
      rcases hmach with hmach | ⟨-, hstd⟩
      · show v.machine.mem b ≠ _
        rw [hmach, hctr]
        exact standardize_first hok (user_not_table huser)
      · exact absurd (isStandardized_iff.mp hstd).1 (user_not_table huser)

/-! ### Terms -/

/-- The insertion of symbols makes no leaf. -/
theorem InternedSpec.readable_iff {r : ChkIns} (h : InternedSpec t path r) (hwf : TrieWF t) :
    Readable r.trie w ↔ Readable t w := by
  have hkept : ∀ q, t.Live q → (r.trie.node q).isLeafNode = (t.node q).isLeafNode ∧
      ((r.trie.node q).Fails ↔ (t.node q).Fails) :=
    fun q hq => ⟨(h.kept q hq).isLeafNode, (h.kept q hq).fails_iff⟩
  constructor
  · rintro ⟨q, hq, hleaf, hopen⟩
    have hlive : t.Live q := by
      by_contra hnew
      obtain ⟨-, hfresh⟩ := h.paths w q hq hnew
      by_cases hw : w = []
      · subst hw
        have hroot : q = r.trie.root := hq.node_unique h.wf (.root hq.root_ne)
        have hzero : t.root = 0 := by
          by_contra hne
          have htop := h.atPath [] t.root (.root hne)
          rw [hq.node_unique h.wf htop] at hnew
          exact hnew (hwf.root_live hne).1
        have hbits : ∀ x : Byte, x ||| hashedNodeMask = trieRootNT ||| hashedNodeMask →
            (x &&& leafNodeMask != 0) = false := by
          decide +kernel
        have hno := hbits _ (h.root hzero).2
        rw [← hroot] at hno
        rw [BTN.isLeafNode, hno] at hleaf
        cases hleaf
      · rw [(hfresh hw).not_leaf] at hleaf
        cases hleaf
    obtain ⟨v, hv⟩ := hwf.reach q hlive
    rw [(h.atPath v q hv).path_unique hq] at hv
    refine ⟨q, hv, (hkept q hlive).1 ▸ hleaf, fun u p hu hp hfails => ?_⟩
    exact hopen u p hu (h.atPath u p hp) ((hkept p (hp.live hwf)).2.mpr hfails)
  · rintro ⟨q, hq, hleaf, hopen⟩
    refine ⟨q, h.atPath w q hq, (hkept q (hq.live hwf)).1.trans hleaf, fun u p hu hp hfails => ?_⟩
    obtain ⟨x, hx⟩ := hq.take u.length
    rw [← prefix_iff_eq_take.mp hu] at hx
    have hpx := hp.node_unique h.wf (h.atPath u x hx)
    subst hpx
    exact hopen u p hu hx ((hkept p (hx.live hwf)).2.mp hfails)

/-- A node that is marked as deleted hides the terms below it. -/
theorem readable_safeDelete (hp : AtPath t path p) :
    Readable (t.safeDeleteBranch p) w ↔ Readable t w ∧ ¬path <+: w := by
  have hu := safeDeleteRecord_update (t.node p)
  have hfail : ∀ x : Byte, instrKind ((x &&& 0x3) ||| trieNoCpFail) = trieNoCpFail := by
    decide +kernel
  have hself : ((t.modify p safeDeleteRecord).node p).Fails := by
    rw [modify_node_self]
    exact hfail _
  have hother : ∀ q, q ≠ p → (t.modify p safeDeleteRecord).node q = t.node q :=
    fun q hq => modify_node_ne t _ hq
  have hleaf : ∀ q, ((t.modify p safeDeleteRecord).node q).isLeafNode = (t.node q).isLeafNode := by
    intro q
    by_cases hq : q = p
    · rw [hq, modify_node_self]
      rfl
    · rw [hother q hq]
  rw [safeDeleteBranch_eq]
  constructor
  · rintro ⟨q, hq, hl, hopen⟩
    have hnot : ¬path <+: w := fun hpre => hopen path p hpre (hu.atPath_iff.mpr hp) hself
    refine ⟨⟨q, hu.atPath_iff.mp hq, hleaf q ▸ hl, fun u x hux hx hfails => ?_⟩, hnot⟩
    have hne : x ≠ p := by
      rintro rfl
      exact hnot (hx.path_unique hp ▸ hux)
    apply hopen u x hux (hu.atPath_iff.mpr hx)
    rw [hother x hne]
    exact hfails
  · rintro ⟨⟨q, hq, hl, hopen⟩, hnot⟩
    refine ⟨q, hu.atPath_iff.mpr hq, (hleaf q).trans hl, fun u x hux hx hfails => ?_⟩
    have hxt := hu.atPath_iff.mp hx
    have hne : x ≠ p := by
      rintro rfl
      exact hnot (hxt.path_unique hp ▸ hux)
    rw [hother x hne] at hfails
    exact hopen u x hux hxt hfails

/-! ### Aborts -/

/-- The terms that can be read are those before the call, and no variable stays bound. -/
def AbortUndone (t t' : Trie) (m m' : Machine) : Prop :=
  (∀ w, Readable t' w ↔ Readable t w) ∧ ∀ a, m.FreeVar a → m'.mem a = .ref a

/-- A list of two elements on the heap. -/
def pairMachine (head : Cell) : Machine :=
  { freeMachine with
    mem := fun a =>
      if a = ⟨.heap, 0⟩ then head
      else if a = ⟨.heap, 1⟩ then .list ⟨.heap, 2⟩
      else if a = ⟨.heap, 2⟩ then .const .int 2
      else if a = ⟨.heap, 3⟩ then .const .string 0
      else .ref a
    hreg := 4 }

/-- A call for that list in which compound terms below the top are too large. -/
def pairCall : InternCall := ⟨.list ⟨.heap, 0⟩, false, true, [], 2000, 1⟩

theorem pairMachine_ok (head : Cell) : (pairMachine head).OK := by
  refine ⟨Nat.succ_pos _, le_rfl, fun i _ => ?_⟩
  simp [pairMachine, freeMachine, Machine.enumCell]

theorem pairMachine_closed : Closed defaultEnv.arity (pairMachine (.const .int 1)) := by
  intro a ha
  simp only [pairMachine, freeMachine]
  split
  · trivial
  · split
    · exact ⟨Nat.lt_add_of_pos_right (k := 2) Nat.two_pos, Nat.lt_succ_self 3⟩
    · split
      · trivial
      · split
        · trivial
        · exact ha

end XSBEngine.Tries
