import Mathlib
import XSBEngine.Assert.MovesCorrect

/-!
# Runs of the move loop

The loop ends, since each turn removes a load, moves the source of one out of the way of another,
or comes closer to a load for which it does so. Its code performs the loads at once exactly if no
scan is misled and there are enough registers.
-/

namespace XSBEngine.Assert

open Library List

variable {s s' : Moves} {i j k : Instruction} {P P' loads : List Instruction} {m m' : Registers}
  {reg : RegStat}

/-! ### The loop ends -/

/-- A load that is put back: its target is a source, and its own source is not a target. -/
def delayed (P : List Instruction) (i : Instruction) : Bool :=
  !(i.opcode = .movreg && i.arg1 = i.arg2) &&
    P.any (fun j => j.opcode = .movreg && j.arg1 = i.arg2) &&
    !(i.opcode = .movreg && P.any fun j => j.arg2 = i.arg1)

/-- The source of a load is a target. -/
def blocks (P : List Instruction) (i : Instruction) : Bool :=
  i.opcode = .movreg && P.any fun j => j.arg2 = i.arg1

/-- Number of loads whose source is a target. -/
def blockers (P : List Instruction) : Nat := P.countP (blocks P)

/-- Number of loads to be put back before another one. -/
def delays (P : List Instruction) : Nat := (P.takeWhile (delayed P)).length

/-- What becomes smaller in each turn. -/
def remaining (P : List Instruction) : Nat :=
  (P.length + blockers P) * instQueueSize + delays P

theorem delayed_iff : delayed P i = true ↔ ¬ (i.opcode = .movreg ∧ i.arg1 = i.arg2) ∧
    (∃ j ∈ P, j.opcode = .movreg ∧ j.arg1 = i.arg2) ∧
    (i.opcode = .movreg → ∀ j ∈ P, j.arg2 ≠ i.arg1) := by
  simp [delayed, and_assoc, imp_iff_not_or]

/-- Some load is not put back. -/
theorem exists_not_delayed (hi : i ∈ P) : ∃ j ∈ P, delayed P j = false := by
  cases h : delayed P i with
  | false => exact ⟨i, hi, h⟩
  | true =>
    obtain ⟨-, ⟨j, hj, hop, harg⟩, -⟩ := delayed_iff.mp h
    refine ⟨j, hj, Bool.eq_false_iff.mpr fun hj' => ?_⟩
    exact (delayed_iff.mp hj').2.2 hop i hi harg.symm

theorem delays_le (P : List Instruction) : delays P ≤ P.length :=
  (takeWhile_sublist _).length_le

theorem delayed_congr (h : ∀ j, j ∈ P' ↔ j ∈ P) : delayed P' = delayed P := by
  funext i
  rw [Bool.eq_iff_iff, delayed_iff, delayed_iff]
  simp only [h]

/-- A load that is put back is the first of those that are. -/
theorem delays_append (h : delayed (i :: P) i = true) :
    delays (P ++ [i]) + 1 = delays (i :: P) := by
  have hmem : ∀ j, j ∈ P ++ [i] ↔ j ∈ i :: P := by
    intro j
    rw [mem_append, mem_singleton, mem_cons, or_comm]
  obtain ⟨j, hj, hfalse⟩ := exists_not_delayed (P := i :: P) mem_cons_self
  have hjP : j ∈ P := by
    rcases mem_cons.mp hj with rfl | hj
    · cases h.symm.trans hfalse
    · exact hj
  have hne : (P.takeWhile (delayed (i :: P))).length ≠ P.length := by
    intro hlen
    have hall := takeWhile_eq_self_iff.mp ((takeWhile_sublist _).eq_of_length hlen) j hjP
    cases hall.symm.trans hfalse
  rw [delays, delays, delayed_congr hmem, takeWhile_append, if_neg hne,
    takeWhile_cons_of_pos h, length_cons]

theorem blocks_iff : blocks P i = true ↔
    i.opcode = .movreg ∧ i.arg1 ∈ P.map Instruction.arg2 := by
  simp [blocks]

theorem blockers_le_cons (i : Instruction) (P : List Instruction) :
    blockers P ≤ blockers (i :: P) := by
  have hmono : P.countP (blocks P) ≤ P.countP (blocks (i :: P)) := by
    apply countP_mono_left
    intro j _ hj
    rw [blocks_iff] at hj ⊢
    exact ⟨hj.1, mem_cons_of_mem _ hj.2⟩
  rw [blockers, blockers, countP_cons]
  omega

/-- A load is put back, from another source perhaps. -/
theorem blockers_append (hj : j.arg2 = i.arg2) :
    blockers (P ++ [j]) + (if blocks (i :: P) i then 1 else 0) =
      blockers (i :: P) + if blocks (i :: P) j then 1 else 0 := by
  have hcongr : blocks (P ++ [j]) = blocks (i :: P) := by
    funext k
    rw [Bool.eq_iff_iff, blocks_iff, blocks_iff, mem_targets_append hj]
  rw [blockers, hcongr, countP_append, countP_singleton, blockers, countP_cons]
  omega

/-- Each turn comes closer to the end. -/
theorem Turn.remaining_lt (hinv : Inv loads s (i :: P)) (ht : Turn s i P s' P') :
    remaining P' < remaining (i :: P) := by
  have hlen : P.length + 1 < instQueueSize := by
    have hlt := Ring.length_lt hinv.wf
    rw [← Ring.length_contents, hinv.contents] at hlt
    exact hlt
  have hle := blockers_le_cons i P
  have hdelays := delays_le P
  unfold remaining instQueueSize at *
  cases ht with
  | skip hop heq hreg hcode | emit hself hsource hreg hcode =>
    rw [length_cons]
    omega
  | delay _ hself hsource htarget hreg hcode =>
    have hdelayed : delayed (i :: P) i = true := by
      obtain ⟨j, hj, hsource⟩ := hsource
      refine delayed_iff.mpr ⟨hself, ⟨j, mem_cons_of_mem i hj, hsource⟩, fun hop k hk => ?_⟩
      rcases mem_cons.mp hk with rfl | hk
      · exact fun heq => hself ⟨hop, heq.symm⟩
      · exact htarget hop k hk
    have happend := delays_append hdelayed
    have hblockers := blockers_append (P := P) (rfl : i.arg2 = i.arg2)
    rw [length_append, length_singleton, length_cons]
    omega
  | @cycle r0 reg' _ hop hne htarget hget hreg hcode =>
    obtain ⟨l, n, hfree, htargets, -⟩ := hinv.free
    obtain ⟨l', n', hgets⟩ := hfree.get hget
    have hblockers := blockers_append (i := i) (P := P) (j := ⟨.movreg, r0, i.arg2⟩) rfl
    have hold : blocks (i :: P) i = true := by
      obtain ⟨j, hj, harg⟩ := htarget
      exact blocks_iff.mpr ⟨hop, harg ▸ mem_map_of_mem (mem_cons_of_mem i hj)⟩
    have hnew : blocks (i :: P) ⟨.movreg, r0, i.arg2⟩ = false := by
      rw [Bool.eq_false_iff]
      intro htrue
      obtain ⟨j, hj, harg⟩ := mem_map.mp (blocks_iff.mp htrue).2
      obtain ⟨L, hL, hLarg⟩ := (hinv.fromLoads j hj).target
      have hr0 : L.arg2 = r0 := hLarg.trans harg
      exact hgets.fresh (hr0 ▸ htargets L hL)
    have hlast := delays_le (P ++ [⟨.movreg, r0, i.arg2⟩])
    rw [hold, hnew, if_pos rfl] at hblockers
    rw [length_append, length_singleton] at hlast ⊢
    rw [length_cons]
    simp only [Bool.false_eq_true, if_false] at hblockers
    omega

/-! ### The queue of a clause body -/

variable {q : InstQueue}

theorem foldlM_push (hwf : q.WF instQueueSize)
    (hlen : (q.contents instQueueSize).length + loads.length < instQueueSize) :
    ∃ q', loads.foldlM instQueuePush q = .ok q' ∧ q'.bottom = q.bottom ∧ q'.WF instQueueSize ∧
      q'.contents instQueueSize = q.contents instQueueSize ++ loads := by
  induction loads generalizing q with
  | nil => exact ⟨q, rfl, rfl, hwf, (append_nil _).symm⟩
  | cons i loads ih =>
    rw [length_cons, Ring.length_contents] at hlen
    have hnotfull : ¬ (q.push instQueueSize i).top = (q.push instQueueSize i).bottom := by
      rw [Ring.push_top_eq hwf]
      omega
    have hpush := Ring.contents_push (a := i) hwf (by omega)
    obtain ⟨q', heq, hbottom, hwf', hcontents⟩ := ih (hwf.push i) (by
      rw [hpush, length_append, length_singleton, Ring.length_contents]
      omega)
    refine ⟨q', ?_, hbottom, hwf', ?_⟩
    · rw [foldlM_cons, instQueuePush, if_neg hnotfull]
      exact heq
    · rw [hcontents, hpush, append_assoc]
      rfl

/-- The queue has room for the loads of a goal. -/
theorem bodyQueue_eq (cell : Nat → Instruction) (hlen : loads.length < instQueueSize) :
    ∃ q, bodyQueue cell loads = .ok q ∧ q.bottom = 10 ∧ q.WF instQueueSize ∧
      q.contents instQueueSize = loads := by
  have hwf : (instQueueInit cell).WF instQueueSize :=
    ⟨Nat.lt_of_sub_pos (by decide : 0 < 256 - 10), Nat.lt_of_sub_pos (by decide : 0 < 256 - 10)⟩
  have hnil : (instQueueInit cell).contents instQueueSize = [] := Ring.contents_eq_nil hwf rfl
  have hroom : ((instQueueInit cell).contents instQueueSize).length + loads.length <
      instQueueSize := by
    rw [hnil]
    simpa using hlen
  obtain ⟨q, heq, hbottom, hq, hcontents⟩ := foldlM_push hwf hroom
  exact ⟨q, heq, hbottom, hq, by rw [hcontents, hnil, nil_append]⟩

/-- The start of the loop. -/
theorem Built.inv {reg : RegStat} (h : Built reg loads)
    (hwf : q.WF instQueueSize) (hcontents : q.contents instQueueSize = loads) :
    Inv loads ⟨q, reg, []⟩ loads ∧ ∀ m, Feeding loads m m loads := by
  refine ⟨⟨hwf, hcontents, h.targets, h.free, h.arguments, h.introduced,
    fun i hi => Or.inl hi⟩, fun m => ⟨fun i hi l hl heq => ?_, ?_, ?_, ?_, Nat.le_refl _⟩⟩
  · obtain rfl := load_unique h.targets hl hi heq
    unfold Feeds
    split
    next hop => exact ⟨hop, rfl⟩
    next => rfl
  · exact fun l hl hnot => absurd (mem_map_of_mem hl) hnot
  · exact fun l hl hnot => absurd (mem_map_of_mem hl) hnot
  · exact fun l hl _ _ hnot => absurd (mem_map_of_mem hl) hnot

/-! ### Runs -/

/-- A state of a run: the values of all loads are there, or one is lost. -/
def Stage (loads : List Instruction) (s : Moves) : Prop :=
  ∃ P, Inv loads s P ∧ ((∀ m, Feeding loads m (s.code.foldl exec m) P) ∨
    ∃ l, Lost loads (s.code.foldl exec plainRegisters) P l)

/-- The turn of a state that has not halted. -/
theorem Inv.turns (h : Inv loads s P) (hhalted : dbGenmvs.halted s = false) :
    ∃ i Q, P = i :: Q ∧ Inv loads s (i :: Q) ∧ ∀ s', s.step = .ok s' →
      ∃ P', Turn s i Q s' P' ∧ Inv loads s' P' := by
  have hne : s.queue.top ≠ s.queue.bottom := by simpa [dbGenmvs] using hhalted
  obtain ⟨i, Q, rfl⟩ : ∃ i Q, P = i :: Q :=
    ⟨_, _, h.contents.symm.trans (Ring.contents_eq_cons h.wf hne)⟩
  refine ⟨i, Q, rfl, h, fun s' hstep => ?_⟩
  obtain ⟨P', hturn, hwf, hcontents⟩ := h.queued.turn hstep
  exact ⟨P', hturn, h.turn hturn hwf hcontents⟩

theorem FromLoads.puttvar (h : FromLoads loads i)
    (hputtvar : ∀ i ∈ loads, i.opcode = .puttvar → i.arg1 = i.arg2) :
    i.opcode = .puttvar → i.arg1 = i.arg2 := by
  intro hop
  rcases h with hmem | ⟨hmov, -⟩
  · exact hputtvar i hmem hop
  · rw [hop] at hmov
    cases hmov

/-- A misled turn emits the instruction and loses a value. -/
theorem Turn.misled (ht : Turn s i P s' P') (hinv : Inv loads s (i :: P)) (hmisled : s.Misled)
    (hfeeding : Feeding loads plainRegisters (s.code.foldl exec plainRegisters) (i :: P))
    (hputtvar : i.opcode = .puttvar → i.arg1 = i.arg2) :
    ∃ l, Lost loads (s'.code.foldl exec plainRegisters) P' l := by
  obtain ⟨-, hhead, -, hcontents⟩ := hinv.queued.rest
  obtain ⟨hlt, hself, j, hj, hop, harg⟩ := hmisled
  rw [hhead] at hself harg
  rw [hcontents] at hj
  cases ht with
  | skip hmov heq _ _ => exact absurd ⟨hmov, heq⟩ hself
  | delay hle _ _ _ _ _ | cycle hle _ _ _ _ _ _ => exact absurd hle (Nat.not_le.mpr hlt)
  | emit _ _ _ hcode =>
    rw [hcode, foldl_append]
    exact ⟨j, hfeeding.lost hinv hputtvar hself hj hop harg⟩

/-- Each turn comes to a stage. -/
theorem Stage.step (h : Stage loads s) (hb : Built reg loads)
    (hhalted : dbGenmvs.halted s = false) (hstep : s.step = .ok s') : Stage loads s' := by
  obtain ⟨P, hinv, hvalues⟩ := h
  obtain ⟨i, Q, rfl, -, hturns⟩ := hinv.turns hhalted
  obtain ⟨P', hturn, hinv'⟩ := hturns s' hstep
  have hputtvar := (hinv.fromLoads i mem_cons_self).puttvar hb.puttvar
  refine ⟨P', hinv', ?_⟩
  rcases hvalues with hfeeding | ⟨l, hlost⟩
  · by_cases hmisled : s.Misled
    · exact Or.inr (hturn.misled hinv hmisled (hfeeding plainRegisters) hputtvar)
    · exact Or.inl fun m => (hfeeding m).turn hinv hb.targets hputtvar hturn hmisled
  · exact Or.inr ⟨l, hlost.turn hinv hputtvar hturn⟩

/-- If a value is lost the code does not perform the loads. -/
theorem Lost.not_loadsAll {l : Instruction} {s₀ : Moves} (hb : Built reg loads)
    (hinv : Inv loads s P) (h : Lost loads (s.code.foldl exec plainRegisters) P l)
    (hreaches : dbGenmvs.Reaches s₀ s) : ¬ LoadsAll s₀ loads := by
  rintro ⟨n, s', hrun, hhalted, hloaded⟩
  have hrest := hreaches.join (Machine.reaches_of_run hrun) hhalted
  obtain ⟨P', hinv', l, hlost⟩ : ∃ P', Inv loads s' P' ∧
      ∃ l, Lost loads (s'.code.foldl exec plainRegisters) P' l := by
    refine hrest.invariant (I := fun s => ∃ P, Inv loads s P ∧
      ∃ l, Lost loads (s.code.foldl exec plainRegisters) P l) ⟨P, hinv, l, h⟩ ?_
    rintro s s' ⟨P, hinv, l, hlost⟩ hhalted hstep
    obtain ⟨i, Q, rfl, -, hturns⟩ := hinv.turns hhalted
    obtain ⟨P', hturn, hinv'⟩ := hturns s' hstep
    have hputtvar := (hinv.fromLoads i mem_cons_self).puttvar hb.puttvar
    exact ⟨P', hinv', l, hlost.turn hinv hputtvar hturn⟩
  have hnil : P' = [] := by
    have heq : s'.queue.top = s'.queue.bottom := by simpa [dbGenmvs] using hhalted
    rw [← hinv'.contents, Ring.contents_eq_nil hinv'.wf heq]
  subst hnil
  exact hlost.not_loaded (hloaded plainRegisters)

/-- The loop that is misled does not perform the loads. -/
theorem Moves.Misled.not_loadsAll (hb : Built reg loads)
    (hwf : q.WF instQueueSize) (hcontents : q.contents instQueueSize = loads)
    (hreaches : dbGenmvs.Reaches ⟨q, reg, []⟩ s) (hhalted : dbGenmvs.halted s = false)
    (hmisled : s.Misled) : ¬ LoadsAll ⟨q, reg, []⟩ loads := by
  have hstart := hb.inv hwf hcontents
  obtain ⟨P, hinv, hvalues⟩ : Stage loads s :=
    hreaches.invariant ⟨loads, hstart.1, Or.inl hstart.2⟩
      fun s s' hs hhalted hstep => hs.step hb hhalted hstep
  rcases hvalues with hfeeding | ⟨l, hlost⟩
  · obtain ⟨i, Q, rfl, -, hturns⟩ := hinv.turns hhalted
    have hputtvar := (hinv.fromLoads i mem_cons_self).puttvar hb.puttvar
    intro hall
    have hstep : ∃ s', s.step = .ok s' := by
      obtain ⟨n, t, hrun, hthalted, -⟩ := hall
      have hrest := hreaches.join (Machine.reaches_of_run hrun) hthalted
      cases hrest with
      | refl _ => cases hhalted.symm.trans hthalted
      | step _ heq _ => exact ⟨_, heq⟩
    obtain ⟨s', heq⟩ := hstep
    obtain ⟨P', hturn, hinv'⟩ := hturns s' heq
    obtain ⟨l, hlost⟩ := hturn.misled hinv hmisled (hfeeding plainRegisters) hputtvar
    exact hlost.not_loadsAll hb hinv' (hreaches.trans (.step hhalted heq (.refl s'))) hall
  · exact hlost.not_loadsAll hb hinv hreaches

/-- Without a register the clause is not compiled. -/
theorem Moves.OutOfRegisters.step_eq (h : s.OutOfRegisters) : s.step = .error .register := by
  obtain ⟨hop, hne, hsource, htarget, hzero, hle⟩ := h
  have hget : regGet s.reg TVAR = .error .register := by
    unfold regGet
    simp only
    rw [if_pos hzero, if_pos hle]
  unfold Moves.step
  simp only
  rw [hop, hsource, htarget, hget]
  simp only [if_neg hne]
  rfl

/-- The loop ends and performs the loads if it always goes well. -/
theorem Built.loadsAll (hb : Built reg loads) (hwf : q.WF instQueueSize)
    (hcontents : q.contents instQueueSize = loads)
    (hclear : ∀ s, dbGenmvs.Reaches ⟨q, reg, []⟩ s → dbGenmvs.halted s = false →
      ¬ s.Misled ∧ ¬ s.OutOfRegisters) :
    LoadsAll ⟨q, reg, []⟩ loads := by
  have hends : dbGenmvs.Ends ⟨q, reg, []⟩
      (fun s => ∀ m, Loaded m (s.code.foldl exec m) loads) fun _ => False := by
    refine Machine.ends_of_measure
      (J := fun s n => dbGenmvs.Reaches ⟨q, reg, []⟩ s ∧ ∃ P, Inv loads s P ∧
        (∀ m, Feeding loads m (s.code.foldl exec m) P) ∧ n = remaining P) ?_ ?_
      ⟨.refl _, loads, (hb.inv hwf hcontents).1, (hb.inv hwf hcontents).2, rfl⟩
    · rintro s n ⟨hreaches, P, hinv, hfeeding, rfl⟩ hhalted
      left
      obtain ⟨hmisled, hout⟩ := hclear s hreaches hhalted
      obtain ⟨i, Q, rfl, -, hturns⟩ := hinv.turns hhalted
      obtain ⟨s', heq⟩ := hinv.queued.step_eq hout
      obtain ⟨P', hturn, hinv'⟩ := hturns s' heq
      have hputtvar := (hinv.fromLoads i mem_cons_self).puttvar hb.puttvar
      exact ⟨s', remaining P', heq, ⟨hreaches.trans (.step hhalted heq (.refl s')), P', hinv',
        fun m => (hfeeding m).turn hinv hb.targets hputtvar hturn hmisled, rfl⟩,
        hturn.remaining_lt hinv⟩
    · rintro s n ⟨-, P, hinv, hfeeding, -⟩ hhalted m
      have heq : s.queue.top = s.queue.bottom := by simpa [dbGenmvs] using hhalted
      have hnil : P = [] := by rw [← hinv.contents, Ring.contents_eq_nil hinv.wf heq]
      subst hnil
      exact (hfeeding m).done
  obtain ⟨n, ⟨s', hrun, hhalted, hloaded⟩ | ⟨_, _, hfalse⟩⟩ := hends
  · exact ⟨n, s', hrun, hhalted, hloaded⟩
  · exact hfalse.elim

/-- The loads of `q(a, X1, …, Xn)` in a clause for `p(X1, …, Xn, Y)`. -/
def shiftLoads (n : Nat) : List Instruction :=
  ⟨.putcon, 0, 1⟩ :: (List.range n).map fun i => ⟨.movreg, i + 1, i + 2⟩

theorem mem_shiftLoads {n : Nat} : i ∈ shiftLoads n ↔
    i = ⟨.putcon, 0, 1⟩ ∨ ∃ j < n, i = ⟨.movreg, j + 1, j + 2⟩ := by
  simp [shiftLoads, eq_comm]

theorem shift_built {n : Nat} (hn : n + 1 < instQueueSize) :
    Built (regInit (fun _ => 0) (n + 1)) (shiftLoads n) := by
  have harray : ∀ r < n + 2, (regInit (fun _ => 0) (n + 1)).regArray r = NVAR :=
    fun r hr => if_pos hr
  have hbounds : ∀ i ∈ shiftLoads n, 0 < i.arg2 ∧ i.arg2 < n + 2 ∧
      (i.opcode = .movreg → 0 < i.arg1 ∧ i.arg1 < n + 2) := by
    intro i hi
    rcases mem_shiftLoads.mp hi with rfl | ⟨j, hj, rfl⟩
    · exact ⟨Nat.zero_lt_one, Nat.succ_lt_succ (Nat.succ_pos n), nofun⟩
    · exact ⟨Nat.succ_pos _, Nat.add_lt_add_right hj 2, fun _ => ⟨Nat.succ_pos _, by
        show j + 1 < n + 2
        omega⟩⟩
  constructor
  case targets =>
    have hmap : (shiftLoads n).map Instruction.arg2 = List.range' 1 (n + 1) := by
      rw [List.range'_succ, shiftLoads, map_cons, map_map, List.range'_eq_map_range]
      congr 1
      apply map_congr_left
      intro j _
      show j + 2 = 2 + j
      omega
    rw [hmap]
    exact nodup_range'
  case length => simpa [shiftLoads] using hn
  case puttvar =>
    intro i hi hop
    rcases mem_shiftLoads.mp hi with rfl | ⟨j, hj, rfl⟩ <;> cases hop
  case free =>
    refine ⟨[], n + 2, ⟨.last ?_, nodup_nil, nofun, Nat.succ_pos _, nofun⟩,
      fun i hi => ⟨(hbounds i hi).1, (hbounds i hi).2.1, not_mem_nil⟩, fun i hi hop => ?_⟩
    · show (if n + 2 < n + 1 + 1 then NVAR else if n + 2 = n + 1 + 1 then 0 else 0) = 0
      rw [if_neg (by omega), if_pos rfl]
    · obtain ⟨hpos, hlt⟩ := (hbounds i hi).2.2 hop
      exact ⟨hpos, hlt, not_mem_nil⟩
  case arguments =>
    intro i hi
    rw [harray _ (hbounds i hi).2.1]
    decide
  case introduced =>
    intro i hi j hj hop hjop heq htvar
    rw [harray _ ((hbounds i hi).2.2 hop).2] at htvar
    exact absurd htvar (by decide)

end XSBEngine.Assert
