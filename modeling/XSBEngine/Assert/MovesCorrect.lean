import Mathlib
import XSBEngine.Assert.Turns

/-!
# The move loop performs the loads at once

Each turn keeps the values that the loads in the queue need, unless the scan of a queue that goes
round misses a source: then a value is lost for good.
-/

namespace XSBEngine.Assert

open Function Library List

variable {s s' : Moves} {i j k : Instruction} {P P' loads : List Instruction} {m m' : Registers}

/-! ### The queue and the registers -/

/-- What a load in the queue may be: one of the clause body, or one whose value has been moved to
an introduced register. -/
def FromLoads (loads : List Instruction) (i : Instruction) : Prop :=
  i ∈ loads ∨ i.opcode = .movreg ∧ (∀ j ∈ loads, j.arg2 ≠ i.arg1) ∧
    ∃ j ∈ loads, j.opcode = .movreg ∧ j.arg2 = i.arg2 ∧ j.arg1 ≠ j.arg2

theorem FromLoads.target (h : FromLoads loads i) : ∃ j ∈ loads, j.arg2 = i.arg2 := by
  rcases h with hmem | ⟨-, -, j, hj, -, htarget, -⟩
  · exact ⟨i, hmem, rfl⟩
  · exact ⟨j, hj, htarget⟩

/-- The queue has the loads of `P`, for which the registers are as they were for those of the clause
body. -/
structure Inv (loads : List Instruction) (s : Moves) (P : List Instruction) : Prop where
  wf : s.queue.WF instQueueSize
  contents : s.queue.contents instQueueSize = P
  targets : (P.map Instruction.arg2).Nodup
  free : ∃ l n, s.reg.Free l n ∧ (∀ i ∈ loads, RegStat.Held l n i.arg2) ∧
    ∀ i ∈ P, i.opcode = .movreg → RegStat.Held l n i.arg1
  arguments : ∀ i ∈ loads, s.reg.regArray i.arg2 ≠ TVAR
  introduced : ∀ i ∈ P, ∀ j ∈ P, i.opcode = .movreg → j.opcode = .movreg → i.arg1 = j.arg1 →
    s.reg.regArray i.arg1 = TVAR → i = j
  fromLoads : ∀ i ∈ P, FromLoads loads i

section

variable (h : Inv loads s (i :: P))
include h

theorem Inv.target_unique : ∀ j ∈ P, j.arg2 ≠ i.arg2 := by
  intro j hj heq
  have hnot := (nodup_cons.mp h.targets).1
  exact hnot (heq ▸ mem_map_of_mem hj)

theorem Inv.queued : Queued s i P := ⟨h.wf, h.contents⟩

/-- The loads that are left, or put back with the same target. -/
theorem Inv.targets_append (hj : j.arg2 = i.arg2) :
    ((P ++ [j]).map Instruction.arg2).Nodup := by
  obtain ⟨hnot, hnodup⟩ := nodup_cons.mp h.targets
  rw [map_append, map_singleton, hj]
  exact nodup_append.mpr ⟨hnodup, nodup_singleton _,
    fun a ha b hb heq => hnot (mem_singleton.mp hb ▸ heq ▸ ha)⟩

/-- The source of a load in the queue that is marked as introduced is not that of another one. -/
theorem Inv.not_introduced (hi : i.opcode = .movreg) (hj : j ∈ P)
    (hop : j.opcode = .movreg) (heq : j.arg1 = i.arg1) : s.reg.regArray i.arg1 ≠ TVAR := by
  intro htvar
  have hij := h.introduced i mem_cons_self j (mem_cons_of_mem i hj) hi hop heq.symm htvar
  exact h.target_unique j hj (hij ▸ rfl)

/-- A turn keeps the invariant. -/
theorem Inv.turn (ht : Turn s i P s' P')
    (hwf : s'.queue.WF instQueueSize) (hcontents : s'.queue.contents instQueueSize = P') :
    Inv loads s' P' := by
  have hsub : ∀ j ∈ P, j ∈ i :: P := fun j hj => mem_cons_of_mem i hj
  have hnodup := (nodup_cons.mp h.targets).2
  obtain ⟨l, n, hfree, htargets, hsources⟩ := h.free
  cases ht with
  | skip hop heq hreg hcode =>
    refine ⟨hwf, hcontents, hnodup, ?_, ?_, ?_, fun j hj => h.fromLoads j (hsub j hj)⟩
    · rw [hreg]
      exact ⟨l, n, hfree, htargets, fun j hj => hsources j (hsub j hj)⟩
    · rw [hreg]
      exact h.arguments
    · rw [hreg]
      exact fun j hj k hk => h.introduced j (hsub j hj) k (hsub k hk)
  | delay _ hself hsource htarget hreg hcode =>
    have hmem : ∀ j ∈ P ++ [i], j ∈ i :: P := by
      intro j hj
      rcases mem_append.mp hj with hj | hj
      · exact hsub j hj
      · exact mem_singleton.mp hj ▸ mem_cons_self
    refine ⟨hwf, hcontents, h.targets_append rfl, ?_, ?_, ?_, fun j hj => h.fromLoads j (hmem j hj)⟩
    · rw [hreg]
      exact ⟨l, n, hfree, htargets, fun j hj => hsources j (hmem j hj)⟩
    · rw [hreg]
      exact h.arguments
    · rw [hreg]
      exact fun j hj k hk => h.introduced j (hmem j hj) k (hmem k hk)
  | emit hself hsource hreg hcode =>
    by_cases hop : i.opcode = .movreg
    case neg =>
      rw [if_neg hop] at hreg
      refine ⟨hwf, hcontents, hnodup, ?_, ?_, ?_, fun j hj => h.fromLoads j (hsub j hj)⟩
      · rw [hreg]
        exact ⟨l, n, hfree, htargets, fun j hj => hsources j (hsub j hj)⟩
      · rw [hreg]
        exact h.arguments
      · rw [hreg]
        exact fun j hj k hk => h.introduced j (hsub j hj) k (hsub k hk)
    case pos =>
      rw [if_pos hop] at hreg
      obtain ⟨l', hfree', hheld, hmarks⟩ := hfree.release (hsources i mem_cons_self hop)
      have hargs : ∀ j ∈ loads, j.arg2 = i.arg1 → s.reg.regArray i.arg1 ≠ TVAR :=
        fun j hj heq => heq ▸ h.arguments j hj
      have hothers : ∀ j ∈ P, j.opcode = .movreg → j.arg1 = i.arg1 →
          s.reg.regArray i.arg1 ≠ TVAR := fun j hj hjop heq => h.not_introduced hop hj hjop heq
      refine ⟨hwf, hcontents, hnodup, ?_, ?_, ?_, fun j hj => h.fromLoads j (hsub j hj)⟩
      · rw [hreg]
        exact ⟨l', n, hfree', fun j hj => hheld _ (htargets j hj) (hargs j hj),
          fun j hj hjop => hheld _ (hsources j (hsub j hj) hjop) (hothers j hj hjop)⟩
      · intro j hj
        rw [hreg, hmarks _ (hargs j hj)]
        exact h.arguments j hj
      · intro j hj k hk hjop hkop heq htvar
        rw [hreg, hmarks _ (hothers j hj hjop)] at htvar
        exact h.introduced j (hsub j hj) k (hsub k hk) hjop hkop heq htvar
  | @cycle r0 reg' _ hop hne htarget hget hreg hcode =>
    obtain ⟨l', n', hgets⟩ := hfree.get hget
    -- the source is a target, which is not released
    obtain ⟨k, hk, hkarg⟩ := htarget
    obtain ⟨L, hL, hLarg⟩ := (h.fromLoads k (hsub k hk)).target
    have hmark : s.reg.regArray i.arg1 ≠ TVAR := by
      rw [← hkarg, ← hLarg]
      exact h.arguments L hL
    have hmark' : reg'.regArray i.arg1 ≠ TVAR := by
      rw [(hgets.held _ (hsources i mem_cons_self hop)).2]
      exact hmark
    rw [regRelease, if_neg hmark'] at hreg
    have hr0 : ∀ j ∈ P, j.opcode = .movreg → j.arg1 ≠ r0 := by
      rintro j hj hjop rfl
      exact hgets.fresh (hsources j (hsub j hj) hjop)
    refine ⟨hwf, hcontents, h.targets_append rfl, ?_, ?_, ?_, ?_⟩
    · rw [hreg]
      refine ⟨l', n', hgets.free, fun j hj => (hgets.held _ (htargets j hj)).1, fun j hj hjop => ?_⟩
      rcases mem_append.mp hj with hj | hj
      · exact (hgets.held _ (hsources j (hsub j hj) hjop)).1
      · rw [mem_singleton.mp hj]
        exact hgets.got
    · intro j hj
      rw [hreg, (hgets.held _ (htargets j hj)).2]
      exact h.arguments j hj
    · rw [hreg]
      intro j hj k hk hjop hkop heq htvar
      rcases mem_append.mp hj with hj | hj <;> rcases mem_append.mp hk with hk | hk
      · rw [(hgets.held _ (hsources j (hsub j hj) hjop)).2] at htvar
        exact h.introduced j (hsub j hj) k (hsub k hk) hjop hkop heq htvar
      · rw [mem_singleton.mp hk] at heq
        exact absurd heq (hr0 j hj hjop)
      · rw [mem_singleton.mp hj] at heq
        exact absurd heq.symm (hr0 k hk hkop)
      · rw [mem_singleton.mp hj, mem_singleton.mp hk]
    · intro j hj
      rcases mem_append.mp hj with hj | hj
      · exact h.fromLoads j (hsub j hj)
      · rw [mem_singleton.mp hj]
        have hfresh : ∀ L ∈ loads, L.arg2 ≠ r0 := by
          rintro L hL rfl
          exact hgets.fresh (htargets L hL)
        refine Or.inr ⟨rfl, hfresh, ?_⟩
        rcases h.fromLoads i mem_cons_self with hi | ⟨-, hnot, -⟩
        · exact ⟨i, hi, hop, rfl, hne⟩
        · exact absurd (hLarg.trans hkarg) (hnot L hL)

end

/-! ### Values -/

/-- A load in the queue will put the value of a load of the clause body into its target. -/
def Feeds (m m' : Registers) (i l : Instruction) : Prop :=
  if l.opcode = .movreg then i.opcode = .movreg ∧ m'.regs i.arg1 = m.regs l.arg1 else i = l

theorem Feeds.loadValue_eq {l : Instruction} (h : Feeds m m' i l) :
    loadValue m'.regs i = loadValue m.regs l := by
  unfold Feeds at h
  split at h
  next hop =>
    unfold loadValue
    rw [h.1, hop]
    exact congrArg some h.2
  next hop =>
    subst h
    unfold loadValue
    split
    next hmov => exact absurd hmov hop
    all_goals rfl

/-- The loads that are not in the queue any more have been performed, and those in it will be. -/
structure Feeding (loads : List Instruction) (m m' : Registers) (P : List Instruction) : Prop where
  feeds : ∀ i ∈ P, ∀ l ∈ loads, l.arg2 = i.arg2 → Feeds m m' i l
  value : ∀ l ∈ loads, l.arg2 ∉ P.map Instruction.arg2 →
    ∀ v, loadValue m.regs l = some v → m'.regs l.arg2 = v
  var : ∀ l ∈ loads, l.arg2 ∉ P.map Instruction.arg2 → loadValue m.regs l = none →
    ∃ a, m.hreg ≤ a ∧ a < m'.hreg ∧ m'.regs l.arg2 = .ref a
  distinct : ∀ l ∈ loads, ∀ l' ∈ loads, l.arg2 ∉ P.map Instruction.arg2 →
    l'.arg2 ∉ P.map Instruction.arg2 → loadValue m.regs l = none → loadValue m.regs l' = none →
    m'.regs l.arg2 = m'.regs l'.arg2 → l = l'
  hreg : m.hreg ≤ m'.hreg

/-- What an instruction puts into its target. -/
def loaded (m : Registers) (i : Instruction) : Value := (loadValue m.regs i).getD (.ref m.hreg)

theorem exec_regs (h : i.opcode = .puttvar → i.arg1 = i.arg2) :
    (exec m i).regs = update m.regs i.arg2 (loaded m i) := by
  unfold exec loaded loadValue
  split
  case h_2 hop =>
    rw [h hop, update_idem]
    rfl
  all_goals rfl

theorem exec_hreg : (exec m i).hreg = if loadValue m.regs i = none then m.hreg + 1 else m.hreg := by
  unfold exec loadValue
  split <;> simp

/-- Which load a target is of. -/
theorem load_unique (h : (loads.map Instruction.arg2).Nodup) (hi : i ∈ loads) (hj : j ∈ loads)
    (heq : i.arg2 = j.arg2) : i = j :=
  inj_on_of_nodup_map h hi hj heq

/-- An instruction is emitted whose target is not a source of those in the queue. -/
theorem Feeding.emit (h : Feeding loads m m' (i :: P))
    (hloads : (loads.map Instruction.arg2).Nodup)
    (hputtvar : i.opcode = .puttvar → i.arg1 = i.arg2)
    (hsource : ∀ j ∈ P, j.opcode = .movreg → j.arg1 ≠ i.arg2) : Feeding loads m (exec m' i) P := by
  have hregs := exec_regs (m := m') hputtvar
  have hhreg := exec_hreg (m := m') (i := i)
  have hle : m'.hreg ≤ (exec m' i).hreg := by
    rw [hhreg]
    split <;> omega
  have hself : ∀ l ∈ loads, l.arg2 = i.arg2 → loadValue m'.regs i = loadValue m.regs l :=
    fun l hl heq => (h.feeds i mem_cons_self l hl heq).loadValue_eq
  have hother : ∀ l : Instruction, l.arg2 ≠ i.arg2 → (exec m' i).regs l.arg2 = m'.regs l.arg2 := by
    intro l hl
    rw [hregs, update_of_ne hl]
  have htarget : (exec m' i).regs i.arg2 = loaded m' i := by rw [hregs, update_self]
  have hkept : ∀ l : Instruction, l.arg2 ∉ P.map Instruction.arg2 → l.arg2 ≠ i.arg2 →
      l.arg2 ∉ (i :: P).map Instruction.arg2 := by
    intro l hl hne hmem
    rcases mem_cons.mp hmem with heq | hmem
    · exact hne heq
    · exact hl hmem
  constructor
  case feeds =>
    intro j hj l hl heq
    have hfeeds := h.feeds j (mem_cons_of_mem i hj) l hl heq
    unfold Feeds at hfeeds ⊢
    split at hfeeds
    next hop =>
      rw [if_pos hop, hregs, update_of_ne (hsource j hj hfeeds.1)]
      exact hfeeds
    next hop =>
      rw [if_neg hop]
      exact hfeeds
  case value =>
    intro l hl hnot v hv
    by_cases heq : l.arg2 = i.arg2
    · rw [heq, htarget, loaded, hself l hl heq, hv]
      rfl
    · rw [hother l heq]
      exact h.value l hl (hkept l hnot heq) v hv
  case var =>
    intro l hl hnot hnone
    by_cases heq : l.arg2 = i.arg2
    · have hi := hself l hl heq
      rw [hnone] at hi
      refine ⟨m'.hreg, h.hreg, ?_, ?_⟩
      · rw [hhreg, if_pos hi]
        exact Nat.lt_succ_self _
      · rw [heq, htarget, loaded, hi]
        rfl
    · obtain ⟨a, hlow, hhigh, ha⟩ := h.var l hl (hkept l hnot heq) hnone
      exact ⟨a, hlow, by omega, (hother l heq).trans ha⟩
  case distinct =>
    intro l hl l' hl' hnot hnot' hnone hnone' hregs'
    have hfresh : ∀ k ∈ loads, ∀ k' ∈ loads, k.arg2 = i.arg2 → k'.arg2 ≠ i.arg2 →
        k'.arg2 ∉ P.map Instruction.arg2 → loadValue m.regs k = none →
        loadValue m.regs k' = none → (exec m' i).regs k.arg2 ≠ (exec m' i).regs k'.arg2 := by
      intro k hk k' hk' heq hne hnot hnone hnone' hregs
      obtain ⟨a, -, hhigh, ha⟩ := h.var k' hk' (hkept k' hnot hne) hnone'
      rw [heq, htarget, loaded, hself k hk heq, hnone, hother k' hne, ha] at hregs
      cases hregs
      omega
    by_cases heq : l.arg2 = i.arg2 <;> by_cases heq' : l'.arg2 = i.arg2
    · exact load_unique hloads hl hl' (heq.trans heq'.symm)
    · exact absurd hregs' (hfresh l hl l' hl' heq heq' hnot' hnone hnone')
    · exact absurd hregs'.symm (hfresh l' hl' l hl heq' heq hnot hnone' hnone)
    · rw [hother l heq, hother l' heq'] at hregs'
      exact h.distinct l hl l' hl' (hkept l hnot heq) (hkept l' hnot' heq') hnone hnone' hregs'
  case hreg => exact Nat.le_trans h.hreg hle

/-- A load of a register into itself is left out. -/
theorem Feeding.skip (h : Feeding loads m m' (i :: P)) (hop : i.opcode = .movreg)
    (heq : i.arg1 = i.arg2) : Feeding loads m m' P := by
  have hself : ∀ l ∈ loads, l.arg2 = i.arg2 → loadValue m.regs l = some (m'.regs i.arg2) := by
    intro l hl hl'
    rw [← (h.feeds i mem_cons_self l hl hl').loadValue_eq, loadValue, hop, ← heq]
  have hkept : ∀ l ∈ loads, l.arg2 ∉ P.map Instruction.arg2 → loadValue m.regs l = none →
      l.arg2 ∉ (i :: P).map Instruction.arg2 := by
    intro l hl hnot hnone hmem
    rcases mem_cons.mp hmem with hl' | hmem
    · rw [hself l hl hl'] at hnone
      cases hnone
    · exact hnot hmem
  constructor
  case feeds => exact fun j hj => h.feeds j (mem_cons_of_mem i hj)
  case value =>
    intro l hl hnot v hv
    by_cases hl' : l.arg2 = i.arg2
    · rw [hself l hl hl'] at hv
      rw [hl']
      exact Option.some.inj hv
    · refine h.value l hl (fun hmem => ?_) v hv
      rcases mem_cons.mp hmem with hmem | hmem
      · exact hl' hmem
      · exact hnot hmem
  case var => exact fun l hl hnot hnone => h.var l hl (hkept l hl hnot hnone) hnone
  case distinct =>
    intro l hl l' hl' hnot hnot' hnone hnone'
    exact h.distinct l hl l' hl' (hkept l hl hnot hnone) (hkept l' hl' hnot' hnone') hnone hnone'
  case hreg => exact h.hreg

/-- The loads in the queue only differ in their sources. -/
theorem Feeding.retarget (h : Feeding loads m m' P)
    (htargets : ∀ t, t ∈ P'.map Instruction.arg2 ↔ t ∈ P.map Instruction.arg2)
    {m'' : Registers} (hhreg : m''.hreg = m'.hreg)
    (hregs : ∀ l ∈ loads, m''.regs l.arg2 = m'.regs l.arg2)
    (hfeeds : ∀ i ∈ P', ∀ l ∈ loads, l.arg2 = i.arg2 → Feeds m m'' i l) :
    Feeding loads m m'' P' := by
  have hnot : ∀ {t}, t ∉ P'.map Instruction.arg2 → t ∉ P.map Instruction.arg2 :=
    fun ht hmem => ht ((htargets _).mpr hmem)
  constructor
  case feeds => exact hfeeds
  case value =>
    intro l hl ht v hv
    rw [hregs l hl]
    exact h.value l hl (hnot ht) v hv
  case var =>
    intro l hl ht hnone
    rw [hregs l hl, hhreg]
    exact h.var l hl (hnot ht) hnone
  case distinct =>
    intro l hl l' hl' ht ht' hnone hnone' heq
    rw [hregs l hl, hregs l' hl'] at heq
    exact h.distinct l hl l' hl' (hnot ht) (hnot ht') hnone hnone' heq
  case hreg => exact hhreg ▸ h.hreg

theorem mem_targets_append {t : Nat} (hj : j.arg2 = i.arg2) :
    t ∈ (P ++ [j]).map Instruction.arg2 ↔ t ∈ (i :: P).map Instruction.arg2 := by
  rw [map_append, map_singleton, hj, mem_append, mem_singleton, map_cons,
    mem_cons, or_comm]

/-- A value is moved to an introduced register. -/
theorem Feeding.cycle (h : Feeding loads m m' (i :: P)) (hop : i.opcode = .movreg) {r0 : Nat}
    (htargets : ∀ l ∈ loads, l.arg2 ≠ r0) (hsources : ∀ j ∈ P, j.opcode = .movreg → j.arg1 ≠ r0) :
    Feeding loads m (exec m' ⟨.movreg, i.arg1, r0⟩) (P ++ [⟨.movreg, r0, i.arg2⟩]) := by
  refine h.retarget (fun t => mem_targets_append (j := ⟨.movreg, r0, i.arg2⟩) rfl) rfl
    (fun l hl => ?_) fun j hj l hl heq => ?_
  · exact update_of_ne (htargets l hl) ..
  · rcases mem_append.mp hj with hj | hj
    · have hfeeds := h.feeds j (mem_cons_of_mem i hj) l hl heq
      unfold Feeds at hfeeds ⊢
      split at hfeeds
      next hmov =>
        rw [if_pos hmov]
        refine ⟨hfeeds.1, ?_⟩
        rw [← hfeeds.2]
        exact update_of_ne (hsources j hj hfeeds.1) ..
      next hmov =>
        rw [if_neg hmov]
        exact hfeeds
    · obtain rfl := mem_singleton.mp hj
      have hfeeds := h.feeds i mem_cons_self l hl heq
      unfold Feeds at hfeeds ⊢
      split at hfeeds
      next hmov =>
        rw [if_pos hmov]
        refine ⟨rfl, ?_⟩
        rw [← hfeeds.2]
        exact update_self ..
      next hmov => exact absurd (hfeeds ▸ hop) hmov

/-- A turn does what it should unless the scan misses a source. -/
theorem Feeding.turn (h : Feeding loads m (s.code.foldl exec m) (i :: P))
    (hinv : Inv loads s (i :: P)) (hloads : (loads.map Instruction.arg2).Nodup)
    (hputtvar : i.opcode = .puttvar → i.arg1 = i.arg2) (ht : Turn s i P s' P')
    (hmisled : ¬ s.Misled) : Feeding loads m (s'.code.foldl exec m) P' := by
  cases ht with
  | skip hop heq hreg hcode =>
    rw [hcode]
    exact h.skip hop heq
  | delay _ hself hsource htarget hreg hcode =>
    rw [hcode]
    refine h.retarget (fun t => mem_targets_append rfl) rfl (fun _ _ => rfl) fun j hj => ?_
    rcases mem_append.mp hj with hj | hj
    · exact h.feeds j (mem_cons_of_mem i hj)
    · exact h.feeds j (mem_singleton.mp hj ▸ mem_cons_self)
  | emit hself hsource hreg hcode =>
    rw [hcode, foldl_append]
    exact h.emit hloads hputtvar (hsource.resolve_left hmisled)
  | @cycle r0 reg' _ hop hne htarget hget hreg hcode =>
    obtain ⟨l, n, hfree, htargets, hsources⟩ := hinv.free
    obtain ⟨l', n', hgets⟩ := hfree.get hget
    rw [hcode, foldl_append]
    refine h.cycle hop ?_ ?_
    · rintro l hl rfl
      exact hgets.fresh (htargets l hl)
    · rintro j hj hjop rfl
      exact hgets.fresh (hsources j (mem_cons_of_mem i hj) hjop)

/-! ### Values that are lost -/

/-- Registers that hold different values. -/
def plainRegisters : Registers := ⟨.before, 0⟩

/-- The value of a load is lost: it is in the queue, but its source has another value and will not
get a new one, or its target has another value. -/
structure Lost (loads : List Instruction) (m' : Registers) (P : List Instruction)
    (l : Instruction) : Prop where
  mem : l ∈ loads
  movreg : l.opcode = .movreg
  lost : (∃ i ∈ P, i.opcode = .movreg ∧ i.arg2 = l.arg2 ∧ m'.regs i.arg1 ≠ .before l.arg1 ∧
      i.arg1 ∉ P.map Instruction.arg2) ∨
    l.arg2 ∉ P.map Instruction.arg2 ∧ m'.regs l.arg2 ≠ .before l.arg1

/-- The scan misses a source, and its value is overwritten. -/
theorem Feeding.lost (h : Feeding loads plainRegisters m' (i :: P))
    (hinv : Inv loads s (i :: P)) (hputtvar : i.opcode = .puttvar → i.arg1 = i.arg2)
    (hself : ¬ (i.opcode = .movreg ∧ i.arg1 = i.arg2))
    (hj : j ∈ P) (hjop : j.opcode = .movreg) (harg : j.arg1 = i.arg2) :
    Lost loads (exec m' i) P j := by
  have hmem : j ∈ loads := by
    rcases hinv.fromLoads j (mem_cons_of_mem i hj) with hmem | ⟨-, hnot, -⟩
    · exact hmem
    · obtain ⟨l, hl, htarget⟩ := (hinv.fromLoads i mem_cons_self).target
      exact absurd (htarget.trans harg.symm) (hnot l hl)
  refine ⟨hmem, hjop, Or.inl ⟨j, hj, hjop, rfl, ?_, ?_⟩⟩
  · rw [exec_regs hputtvar, harg, update_self]
    -- a load of a register into itself is not emitted
    obtain ⟨l, hl, htarget, hne⟩ : ∃ l ∈ loads, l.arg2 = i.arg2 ∧
        ¬ (l.opcode = .movreg ∧ l.arg1 = l.arg2) := by
      rcases hinv.fromLoads i mem_cons_self with hi | ⟨-, -, l, hl, -, htarget, hne⟩
      · exact ⟨i, hi, rfl, hself⟩
      · exact ⟨l, hl, htarget, fun heq => hne heq.2⟩
    rw [loaded, (h.feeds i mem_cons_self l hl htarget).loadValue_eq, ← htarget]
    unfold loadValue
    split
    next hop =>
      intro heq
      exact hne ⟨hop, Value.before.inj heq⟩
    all_goals nofun
  · rw [harg]
    exact (nodup_cons.mp hinv.targets).1

/-- A lost value stays lost. -/
theorem Lost.turn {l : Instruction} (h : Lost loads (s.code.foldl exec m) (i :: P) l)
    (hinv : Inv loads s (i :: P)) (hputtvar : i.opcode = .puttvar → i.arg1 = i.arg2)
    (ht : Turn s i P s' P') : Lost loads (s'.code.foldl exec m) P' l := by
  obtain ⟨hmem, hmov, hlost⟩ := h
  have hsub : ∀ t, t ∉ (i :: P).map Instruction.arg2 → t ≠ i.arg2 ∧ t ∉ P.map Instruction.arg2 :=
    fun t ht ↦ ⟨fun heq ↦ ht (heq ▸ mem_cons_self), fun hmem ↦ ht (mem_cons_of_mem _ hmem)⟩
  refine ⟨hmem, hmov, ?_⟩
  cases ht with
  | skip hop heq hreg hcode =>
    rw [hcode]
    rcases hlost with ⟨k, hk, hkop, htarget, hne, hnot⟩ | ⟨hnot, hne⟩
    · rcases mem_cons.mp hk with rfl | hk
      · exact absurd heq (hsub _ hnot).1
      · exact Or.inl ⟨k, hk, hkop, htarget, hne, (hsub _ hnot).2⟩
    · exact Or.inr ⟨(hsub _ hnot).2, hne⟩
  | delay _ hself hsource htarget hreg hcode =>
    rw [hcode]
    have htargets : ∀ t, t ∉ (i :: P).map Instruction.arg2 → t ∉ (P ++ [i]).map Instruction.arg2 :=
      fun t ht hmem => ht ((mem_targets_append rfl).mp hmem)
    rcases hlost with ⟨k, hk, hkop, htarget, hne, hnot⟩ | ⟨hnot, hne⟩
    · refine Or.inl ⟨k, ?_, hkop, htarget, hne, htargets _ hnot⟩
      rw [mem_append, mem_singleton, or_comm]
      exact mem_cons.mp hk
    · exact Or.inr ⟨htargets _ hnot, hne⟩
  | emit hself hsource hreg hcode =>
    rw [hcode, foldl_append]
    show (∃ k ∈ P, _ ∧ _ ∧ (exec _ i).regs k.arg1 ≠ _ ∧ _) ∨ _ ∧ (exec _ i).regs l.arg2 ≠ _
    rw [exec_regs hputtvar]
    rcases hlost with ⟨k, hk, hkop, htarget, hne, hnot⟩ | ⟨hnot, hne⟩
    · rcases mem_cons.mp hk with rfl | hk
      · right
        rw [← htarget, update_self, loaded, loadValue, hkop]
        exact ⟨(nodup_cons.mp hinv.targets).1, hne⟩
      · refine Or.inl ⟨k, hk, hkop, htarget, ?_, (hsub _ hnot).2⟩
        rw [update_of_ne (hsub _ hnot).1]
        exact hne
    · refine Or.inr ⟨(hsub _ hnot).2, ?_⟩
      rw [update_of_ne (hsub _ hnot).1]
      exact hne
  | @cycle r0 reg' _ hop hneq htarget hget hreg hcode =>
    obtain ⟨fl, n, hfree, htargets, hsources⟩ := hinv.free
    obtain ⟨l', n', hgets⟩ := hfree.get hget
    rw [hcode, foldl_append]
    have hother : ∀ r ≠ r0, (exec (s.code.foldl exec m) ⟨.movreg, i.arg1, r0⟩).regs r =
        (s.code.foldl exec m).regs r := fun r hr => update_of_ne hr ..
    have hnot' : ∀ t, t ∉ (i :: P).map Instruction.arg2 →
        t ∉ (P ++ [Instruction.mk .movreg r0 i.arg2]).map Instruction.arg2 :=
      fun t ht hmem => ht ((mem_targets_append (j := .mk .movreg r0 i.arg2) rfl).mp hmem)
    rcases hlost with ⟨k, hk, hkop, hktarget, hne, hnot⟩ | ⟨hnot, hne⟩
    · rcases mem_cons.mp hk with rfl | hk'
      · obtain ⟨j, hj, harg⟩ := htarget
        exact absurd (harg ▸ mem_map_of_mem hj) (hsub _ hnot).2
      · have hr0 : k.arg1 ≠ r0 := by
          rintro rfl
          exact hgets.fresh (hsources k hk hkop)
        refine Or.inl ⟨k, mem_append_left _ hk', hkop, hktarget, ?_, hnot' _ hnot⟩
        show (exec (s.code.foldl exec m) ⟨.movreg, i.arg1, r0⟩).regs k.arg1 ≠ _
        rw [hother _ hr0]
        exact hne
    · have hr0 : l.arg2 ≠ r0 := by
        intro heq
        exact hgets.fresh (heq ▸ htargets l hmem)
      refine Or.inr ⟨hnot' _ hnot, ?_⟩
      show (exec (s.code.foldl exec m) ⟨.movreg, i.arg1, r0⟩).regs l.arg2 ≠ _
      rw [hother _ hr0]
      exact hne

theorem Lost.not_loaded {l : Instruction} (h : Lost loads m' [] l) :
    ¬ Loaded plainRegisters m' loads := by
  intro hloaded
  obtain ⟨hmem, hmov, hlost⟩ := h
  rcases hlost with ⟨k, hk, -⟩ | ⟨-, hne⟩
  · exact absurd hk not_mem_nil
  · refine hne (hloaded.value l hmem _ ?_)
    rw [loadValue, hmov]
    rfl

theorem Feeding.done (h : Feeding loads m m' []) : Loaded m m' loads :=
  ⟨fun l hl => h.value l hl not_mem_nil, fun l hl => h.var l hl not_mem_nil,
    fun l hl l' hl' => h.distinct l hl l' hl' not_mem_nil not_mem_nil⟩

end XSBEngine.Assert
