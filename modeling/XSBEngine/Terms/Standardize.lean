import XSBEngine.Terms.Enumerator

/-!
# Standardizing the variables of finite terms

While a walker runs, every variable of the term leads through a chain of references to a free
cell: a cell of the present enumerator array exactly when its numbering knows it.
-/

namespace XSBEngine.Terms

open Function List Machine PrefixTerms XSBEngine.Tries

variable {m₀ m m' : Machine} {g : Numbering Addr} {ρ : Addr → Addr} {a b : Addr} {c c' : Cell}

/-- A free cell that a program can use. -/
def Machine.FreeVar (m : Machine) (a : Addr) : Prop := m.User a ∧ m.mem a = .ref a

/-- The enumerator array is in place and free. -/
structure Machine.OK (m : Machine) : Prop where
  pos : 0 < m.numTrievars
  array : m.varEnumerator + m.numTrievars ≤ m.tableTop
  cells : ∀ i < m.numTrievars, m.mem (m.enumCell i) = .ref (m.enumCell i)

/-- The memory `m` of a walker that started in `m₀` and has numbered variables as `g`. The
variable `a` leads to the free cell `ρ a`. -/
structure Bound (m₀ m : Machine) (g : Numbering Addr) (ρ : Addr → Addr) : Prop where
  ok : m.OK
  wf : g.WF
  size : g.size = m.numTrievars
  hreg : m₀.hreg ≤ m.hreg
  nonvar : ∀ a, m₀.User a → m₀.mem a ≠ .ref a → m.mem a = m₀.mem a
  chain : ∀ a, m₀.FreeVar a → Chain m.mem m.Used a (ρ a)
  free : ∀ a, m₀.FreeVar a → m.mem (ρ a) = .ref (ρ a)
  known : ∀ a, m₀.FreeVar a → g.Known a → ρ a = m.enumCell (indexIn g.seen (a, g.epoch))
  unknown : ∀ a, m₀.FreeVar a → ¬ g.Known a → m.isStandardizedVariable (ρ a) = false
  inj : ∀ a b, m₀.FreeVar a → m₀.FreeVar b → ρ a = ρ b → a = b

theorem isStandardized_iff : m.isStandardizedVariable a = true ↔
    a.area = .tableSpace ∧ m.varEnumerator ≤ a.pos ∧
      a.pos ≤ m.varEnumerator + m.numTrievars - 1 := by
  simp [isStandardizedVariable]

theorem enumCell_standardized {i : Nat} (h : i < m.numTrievars) :
    m.isStandardizedVariable (m.enumCell i) = true := by
  rw [isStandardized_iff]
  refine ⟨rfl, ?_, ?_⟩ <;> simp only [enumCell] <;> omega

theorem ne_enumCell {i : Nat} (ha : m.isStandardizedVariable a = false) (h : i < m.numTrievars) :
    m.enumCell i ≠ a := by
  rintro rfl
  rw [enumCell_standardized h] at ha
  exact absurd ha (by simp)

theorem Machine.User.used (h : m₀.User a) (hle : m₀.hreg ≤ m.hreg) : m.Used a := by
  unfold User at h
  unfold Used
  split at h
  next => trivial
  next => exact lt_of_lt_of_le h hle
  next => exact absurd h id

/-- The start of a walk. -/
theorem Machine.OK.bound (h : m.OK) : Bound m m (.start m.numTrievars) id where
  ok := h
  wf := Numbering.start_wf h.pos
  size := rfl
  hreg := le_rfl
  nonvar _ _ _ := rfl
  chain _ ha := .refl (ha.1.used le_rfl)
  free _ ha := ha.2
  known _ _ hk := absurd hk not_mem_nil
  unknown a ha _ := by
    rw [Bool.eq_false_iff, ne_eq, isStandardized_iff]
    rintro ⟨harea, -, -⟩
    have hu := ha.1
    simp only [User, id] at hu harea
    rw [harea] at hu
    exact hu
  inj _ _ _ _ h := h

/-! ### Later memories -/

/-- Memory in use changes at free cells only. -/
structure Later (m m' : Machine) : Prop where
  used : ∀ a, m.Used a → m'.Used a
  mem : ∀ a, m.Used a → m.mem a ≠ .ref a → m'.mem a = m.mem a

theorem Later.refl (m : Machine) : Later m m := ⟨fun _ h => h, fun _ _ _ => rfl⟩

theorem Later.trans {m'' : Machine} (h : Later m m') (h' : Later m' m'') : Later m m'' where
  used a ha := h'.used a (h.used a ha)
  mem a ha hne := by
    have he := h.mem a ha hne
    rw [h'.mem a (h.used a ha) (he.symm ▸ hne), he]

theorem Later.write (m : Machine) (hfree : m.mem a = .ref a) (c : Cell) :
    Later m (m.write a c) where
  used _ h := h
  mem b _ hne := by
    have hba : b ≠ a := fun he => hne (he ▸ hfree)
    simp [Machine.write, hba]

theorem Later.trail (h : Later m m') (l : List Addr) : Later m { m' with trail := l } :=
  ⟨h.used, h.mem⟩

theorem used_expand (ha : m.Used a) : m.expandVarenumerators.Used a := by
  unfold Used at ha ⊢
  split at ha
  next => trivial
  next => exact ha
  next => exact lt_of_lt_of_le ha (Nat.le_add_right _ _)

theorem mem_expand (ha : m.Used a) : m.expandVarenumerators.mem a = m.mem a := by
  simp only [expandVarenumerators]
  rw [if_neg]
  rintro ⟨harea, hle, -⟩
  simp only [Used, harea] at ha
  omega

theorem Later.expand (m : Machine) : Later m m.expandVarenumerators :=
  ⟨fun _ => used_expand, fun _ ha _ => mem_expand ha⟩

theorem Bound.trail (h : Bound m₀ m g ρ) (l : List Addr) :
    Bound m₀ { m with trail := l } g ρ :=
  ⟨⟨h.ok.pos, h.ok.array, h.ok.cells⟩, h.wf, h.size, h.hreg, h.nonvar, h.chain, h.free, h.known,
    h.unknown, h.inj⟩

/-! ### The steps of standardization -/

section

variable (h : Bound m₀ m g ρ)
include h

/-- After the array has grown no variable is known. -/
theorem Bound.expand :
    Bound m₀ m.expandVarenumerators ⟨2 * g.size, g.seen, g.epoch + 1⟩ ρ where
  ok := by
    have hpos := h.ok.pos
    refine ⟨Nat.mul_pos Nat.two_pos hpos, le_rfl, fun i hi => ?_⟩
    simp only [expandVarenumerators, enumCell] at hi ⊢
    rw [if_pos]
    exact ⟨trivial, by omega, by omega⟩
  wf := by
    have hfits := h.wf.fits
    refine ⟨Nat.mul_pos Nat.two_pos h.wf.pos, ?_, h.wf.nodup, fun p hp => ?_⟩
    · simp only
      omega
    · exact Nat.le_succ_of_le (h.wf.epoch p hp)
  size := congrArg (2 * ·) h.size
  hreg := h.hreg
  nonvar a ha hne := by
    rw [mem_expand (ha.used h.hreg)]
    exact h.nonvar a ha hne
  chain a ha := (h.chain a ha).congr (fun _ => used_expand) fun _ hx _ => mem_expand hx
  free a ha := by
    rw [mem_expand (h.chain a ha).used_right]
    exact h.free a ha
  known a _ hk := absurd hk (h.wf.later_not_mem a)
  unknown a ha _ := by
    have hu := (h.chain a ha).used_right
    rw [Bool.eq_false_iff, ne_eq, isStandardized_iff]
    rintro ⟨harea, hle, -⟩
    simp only [Used, harea] at hu
    simp only [expandVarenumerators] at hle
    omega
  inj := h.inj

/-- A variable that moves to the heap. -/
theorem Bound.move (ha : m₀.FreeVar a) (hk : ¬ g.Known a) :
    Bound m₀ (m.moveToHeap (ρ a)) g (update ρ a ⟨.heap, m.hreg⟩) ∧
      Later m (m.moveToHeap (ρ a)) := by
  have hfree := h.free a ha
  have hnew : ¬ m.Used ⟨.heap, m.hreg⟩ := by simp [Used]
  have hne : (⟨.heap, m.hreg⟩ : Addr) ≠ ρ a := fun he => hnew (he ▸ (h.chain a ha).used_right)
  have hself : (m.moveToHeap (ρ a)).mem ⟨.heap, m.hreg⟩ = .ref ⟨.heap, m.hreg⟩ := by
    simp [moveToHeap, write, hne]
  have hold : ∀ x, m.Used x → x ≠ ρ a → (m.moveToHeap (ρ a)).mem x = m.mem x := by
    intro x hx hxa
    have hxn : x ≠ ⟨.heap, m.hreg⟩ := fun he => hnew (he ▸ hx)
    simp [moveToHeap, write, hxa, hxn]
  have hused : ∀ x, m.Used x → (m.moveToHeap (ρ a)).Used x := by
    intro x hx
    unfold Used at hx ⊢
    split at hx
    next => trivial
    next => exact Nat.lt_succ_of_lt hx
    next => exact hx
  have hlater : Later m (m.moveToHeap (ρ a)) := by
    refine ⟨hused, fun x hx hxne => hold x hx ?_⟩
    rintro rfl
    exact hxne hfree
  have hstd : ∀ x, (m.moveToHeap (ρ a)).isStandardizedVariable x = m.isStandardizedVariable x :=
    fun _ => rfl
  have harray : ∀ i < m.numTrievars, m.Used (m.enumCell i) := by
    intro i hi
    have := h.ok.array
    simp only [Used, enumCell]
    omega
  refine ⟨?_, hlater⟩
  constructor
  case ok =>
    refine ⟨h.ok.pos, h.ok.array, fun i hi => ?_⟩
    have hi' : i < m.numTrievars := hi
    exact (hold _ (harray i hi') (ne_enumCell (h.unknown a ha hk) hi')).trans (h.ok.cells i hi')
  case wf => exact h.wf
  case size => exact h.size
  case hreg => exact Nat.le_succ_of_le h.hreg
  case nonvar =>
    intro x hx hxne
    have hxm := h.nonvar x hx hxne
    rw [hlater.mem x (hx.used h.hreg) (hxm.symm ▸ hxne), hxm]
  case chain =>
    intro x hx
    by_cases hxa : x = a
    · subst hxa
      rw [update_self]
      refine ((h.chain x hx).congr hused hlater.mem).trans ?_
      refine .step (hused _ (h.chain x hx).used_right) ?_ hne (.refl ?_)
      · simp [moveToHeap, write]
      · simp [Used, moveToHeap]
    · rw [update_of_ne hxa]
      exact (h.chain x hx).congr hused hlater.mem
  case free =>
    intro x hx
    by_cases hxa : x = a
    · rw [hxa, update_self]
      exact hself
    · rw [update_of_ne hxa,
        hold _ (h.chain x hx).used_right fun he => hxa (h.inj x a hx ha he)]
      exact h.free x hx
  case known =>
    intro x hx hkx
    have hxa : x ≠ a := fun he => hk (he ▸ hkx)
    rw [update_of_ne hxa]
    exact h.known x hx hkx
  case unknown =>
    intro x hx hkx
    rw [hstd]
    by_cases hxa : x = a
    · rw [hxa, update_self]
      simp [isStandardizedVariable]
    · rw [update_of_ne hxa]
      exact h.unknown x hx hkx
  case inj =>
    intro x y hx hy he
    by_cases hxa : x = a
    · by_cases hya : y = a
      · rw [hxa, hya]
      · rw [hxa, update_self, update_of_ne hya] at he
        exact absurd (he ▸ (h.chain y hy).used_right) hnew
    · by_cases hya : y = a
      · rw [hya, update_self, update_of_ne hxa] at he
        exact absurd (he ▸ (h.chain x hx).used_right) hnew
      · rw [update_of_ne hxa, update_of_ne hya] at he
        exact h.inj x y hx hy he

/-- A variable that gets the next number. -/
theorem Bound.bind (ha : m₀.FreeVar a) (hk : ¬ g.Known a)
    (hlt : g.seen.length < g.size) :
    Bound m₀ (m.write (ρ a) (.ref (m.enumCell g.seen.length)))
      { g with seen := g.seen ++ [(a, g.epoch)] }
      (update ρ a (m.enumCell g.seen.length)) := by
  have hfree := h.free a ha
  have hlt' : g.seen.length < m.numTrievars := h.size ▸ hlt
  have hstd := h.unknown a ha hk
  have hne := ne_enumCell hstd hlt'
  have hlater := Later.write m hfree (.ref (m.enumCell g.seen.length))
  have hold : ∀ x, x ≠ ρ a →
      (m.write (ρ a) (.ref (m.enumCell g.seen.length))).mem x = m.mem x :=
    fun x hx => by simp [write, hx]
  have harray : m.Used (m.enumCell g.seen.length) := by
    have := h.ok.array
    simp only [Used, enumCell]
    omega
  have hknown : ∀ x, (x, g.epoch) ∈ g.seen ++ [(a, g.epoch)] ↔ g.Known x ∨ x = a := by
    intro x
    rw [mem_append, mem_singleton, Prod.mk.injEq, Numbering.Known]
    simp
  -- No other variable leads to the cell of the next number.
  have hapart : ∀ x, m₀.FreeVar x → ρ x ≠ m.enumCell g.seen.length := by
    intro x hx he
    by_cases hkx : g.Known x
    · rw [h.known x hx hkx] at he
      have hpos := congrArg Addr.pos he
      have := indexIn_lt hkx
      simp only [enumCell] at hpos
      omega
    · exact ne_enumCell (h.unknown x hx hkx) hlt' he.symm
  constructor
  case ok =>
    refine ⟨h.ok.pos, h.ok.array, fun i hi => ?_⟩
    exact (hold _ (ne_enumCell hstd hi)).trans (h.ok.cells i hi)
  case wf =>
    refine ⟨h.wf.pos, ?_, ?_, fun p hp => ?_⟩
    · simp only [length_append, length_singleton]
      omega
    · rw [← see_of_not_mem hk]
      exact nodup_see h.wf.nodup _
    · rcases mem_append.mp hp with hp | hp
      · exact h.wf.epoch p hp
      · rw [mem_singleton.mp hp]
  case size => exact h.size
  case hreg => exact h.hreg
  case nonvar =>
    intro x hx hxne
    have hxm := h.nonvar x hx hxne
    rw [hlater.mem x (hx.used h.hreg) (hxm.symm ▸ hxne), hxm]
  case chain =>
    intro x hx
    have hx' := (h.chain x hx).congr hlater.used hlater.mem
    by_cases hxa : x = a
    · subst hxa
      rw [update_self]
      refine hx'.trans (.step hx'.used_right ?_ hne (.refl harray))
      simp [write]
    · rw [update_of_ne hxa]
      exact hx'
  case free =>
    intro x hx
    by_cases hxa : x = a
    · rw [hxa, update_self, hold _ hne]
      exact h.ok.cells _ hlt'
    · rw [update_of_ne hxa, hold _ fun he => hxa (h.inj x a hx ha he)]
      exact h.free x hx
  case known =>
    intro x hx hkx
    rcases (hknown x).mp hkx with hkx | rfl
    · have hxa : x ≠ a := fun he => hk (he ▸ hkx)
      rw [update_of_ne hxa, indexIn_append_of_mem hkx]
      exact h.known x hx hkx
    · rw [update_self, indexIn_append_self hk]
      rfl
  case unknown =>
    intro x hx hkx
    have hxa : x ≠ a := fun he => hkx ((hknown x).mpr (.inr he))
    rw [update_of_ne hxa]
    exact h.unknown x hx fun hkx' => hkx ((hknown x).mpr (.inl hkx'))
  case inj =>
    intro x y hx hy he
    by_cases hxa : x = a
    · by_cases hya : y = a
      · rw [hxa, hya]
      · rw [hxa, update_self, update_of_ne hya] at he
        exact absurd he.symm (hapart y hy)
    · by_cases hya : y = a
      · rw [hya, update_self, update_of_ne hxa] at he
        exact absurd he (hapart x hx)
      · rw [update_of_ne hxa, update_of_ne hya] at he
        exact h.inj x y hx hy he

/-- `StandardizeAndTrailVariable` for a variable that is not yet known. -/
theorem Bound.standardize (ha : m₀.FreeVar a) (hk : ¬ g.Known a) :
    ∃ ρ', Bound m₀ (m.standardizeAndTrailVariable (ρ a) g.seen.length) (g.next a) ρ' ∧
      Later m (m.standardizeAndTrailVariable (ρ a) g.seen.length) := by
  unfold standardizeAndTrailVariable standardizeVariable
  by_cases hlt : g.seen.length < g.size
  · have hlt' : g.seen.length < m.numTrievars := h.size ▸ hlt
    simp only [if_pos hlt', h.ok.cells _ hlt', Numbering.next_of_fits hk hlt]
    exact ⟨_, (h.bind ha hk hlt).trail _, (Later.write m (h.free a ha) _).trail _⟩
  · have hlt' : ¬ g.seen.length < m.numTrievars := h.size ▸ hlt
    have he := h.expand
    have hk' : ¬ (⟨2 * g.size, g.seen, g.epoch + 1⟩ : Numbering Addr).Known a :=
      h.wf.later_not_mem a
    have hfits : g.seen.length < 2 * g.size := by
      have := h.wf.fits
      have := h.wf.pos
      omega
    have hfits' : g.seen.length < m.expandVarenumerators.numTrievars := he.size ▸ hfits
    simp only [if_neg hlt', he.ok.cells _ hfits', Numbering.next_of_full hk hlt]
    exact ⟨_, (he.bind ha hk' hfits).trail _,
      ((Later.expand m).trans (Later.write _ (he.free a ha) _)).trail _⟩

end

/-! ### One cell of a term -/

/-- The symbol for an occurrence of a variable. -/
def Numbering.symbol (g : Numbering Addr) (a : Addr) : Symbol :=
  if g.Known a then encodeTrieVar (indexIn g.seen (a, g.epoch)) else encodeNewTrieVar g.seen.length

/-- The cell `c'` on the pdl stack was read where the initial memory has `c`. -/
def Pushed (m₀ m : Machine) (c c' : Cell) : Prop :=
  c' = c ∨ ∃ x b, c = .ref x ∧ m₀.FreeVar x ∧ c' = .ref b ∧ Chain m.mem m.Used x b

/-- A variable as the memory of the walker has it. -/
def follow (ρ : Addr → Addr) : Cell → Cell
  | .ref a => .ref (ρ a)
  | c => c

theorem Pushed.later (h : Pushed m₀ m c c') (hl : Later m m') : Pushed m₀ m' c c' := by
  rcases h with rfl | ⟨x, b, rfl, hx, rfl, hc⟩
  · exact .inl rfl
  · exact .inr ⟨x, b, rfl, hx, rfl, hc.congr hl.used hl.mem⟩

section

variable (h : Bound m₀ m g ρ)
include h

/-- Cells of a structure are read in the memory of the walker. -/
theorem Bound.pushed (ha : m₀.User a) :
    Pushed m₀ m (m₀.mem a) (m.mem a) := by
  by_cases hfree : m₀.mem a = .ref a
  · have hchain := h.chain a ⟨ha, hfree⟩
    have hend := h.free a ⟨ha, hfree⟩
    generalize ρ a = b at hchain hend
    cases hchain with
    | refl _ => exact .inl (hend.trans hfree.symm)
    | @step _ d _ hu hm hne hc =>
      exact .inr ⟨a, d, hfree, ⟨ha, hfree⟩, hm, .step hu hm hne (.refl hc.used_left)⟩
  · exact .inl (h.nonvar a ha hfree)

theorem Bound.deref (hp : Pushed m₀ m c c') {r : Cell}
    (hd : Deref m₀.mem m₀.User c r) : ∃ n, Terms.deref m.mem n c' = some (follow ρ r) := by
  rcases hp with rfl | ⟨x, b, rfl, hx, rfl, hc⟩
  · induction hd with
    | var hu ha => exact (h.chain _ ⟨hu, ha⟩).deref (h.free _ ⟨hu, ha⟩)
    | @step a r hu hne _ ih =>
      obtain ⟨n, hn⟩ := ih
      have hm := h.nonvar a hu hne
      refine ⟨n + 1, ?_⟩
      rw [Terms.deref, if_neg (hm.symm ▸ hne), hm]
      exact hn
    | const tag val | list a | struct a => exact ⟨1, rfl⟩
  · have hr := hd.unique (.var hx.1 hx.2)
    subst hr
    exact (hc.tail (h.chain x hx) (h.free x hx)).deref (h.free x hx)

/-- The walker at a variable. -/
theorem Bound.visit_var (ha : m₀.FreeVar a) (arity : Nat → Nat)
    (move byAddr : Bool) :
    ∃ v ρ', visit arity move byAddr m g.seen.length (.ref (ρ a)) = some v ∧
      v.symbol = g.symbol a ∧ v.push = [] ∧ v.ctr = (g.next a).seen.length ∧
      Bound m₀ v.machine (g.next a) ρ' ∧ Later m v.machine := by
  by_cases hk : g.Known a
  · have hlt : indexIn g.seen (a, g.epoch) < m.numTrievars :=
      lt_of_lt_of_le (indexIn_lt hk) (h.size ▸ h.wf.fits)
    refine ⟨⟨g.symbol a, [], m, g.seen.length⟩, ρ, ?_, rfl, rfl, ?_, ?_, .refl m⟩
    · rw [visit, h.known a ha hk, if_pos (enumCell_standardized hlt), Numbering.symbol, if_pos hk]
      simp [indexOfStdVar, enumCell]
    · rw [Numbering.next_of_known hk]
    · rw [Numbering.next_of_known hk]
      exact h
  · have hctr : (g.next a).seen.length = g.seen.length + 1 := by
      by_cases hlt : g.seen.length < g.size
      · rw [Numbering.next_of_fits hk hlt, length_append, length_singleton]
      · rw [Numbering.next_of_full hk hlt, length_append, length_singleton]
    have hstd := h.unknown a ha hk
    cases move
    · obtain ⟨ρ', hb, hl⟩ := h.standardize ha hk
      refine ⟨⟨g.symbol a, [], _, g.seen.length + 1⟩, ρ', ?_, rfl, rfl, hctr.symm, hb, hl⟩
      rw [visit, hstd, Numbering.symbol, if_neg hk]
      rfl
    · obtain ⟨hmove, hlmove⟩ := h.move ha hk
      obtain ⟨ρ', hb, hl⟩ := hmove.standardize ha hk
      rw [update_self] at hb hl
      refine ⟨⟨g.symbol a, [], _, g.seen.length + 1⟩, ρ', ?_, rfl, rfl, hctr.symm, hb,
        hlmove.trans hl⟩
      rw [visit, hstd, Numbering.symbol, if_neg hk]
      rfl

/-- The walker at a structure. -/
theorem Bound.visit_struct (ha : m₀.User a) {psc : Nat}
    (hf : m₀.mem a = .functor psc) (arity : Nat → Nat) (move byAddr : Bool) (ctr : Nat) :
    visit arity move byAddr m ctr (.struct a) =
      some ⟨encodeTriePSC psc, pushArgs byAddr m.mem (strArgs a (arity psc)), m, ctr⟩ := by
  have hm : m.mem a = .functor psc := by
    rw [h.nonvar a ha (by rw [hf]; simp), hf]
  rw [visit, hm]

/-- Arguments of a term as they are pushed. -/
theorem Bound.pushArgs {as : List Addr} (ha : ∀ a ∈ as, m₀.User a) :
    List.Forall₂ (Pushed m₀ m) (as.map m₀.mem) (Terms.pushArgs false m.mem as) := by
  rw [Terms.pushArgs, forall₂_map_left_iff, forall₂_map_right_iff]
  apply forall₂_same.mpr
  intro a hm
  exact h.pushed (ha a hm)

end

end XSBEngine.Terms
