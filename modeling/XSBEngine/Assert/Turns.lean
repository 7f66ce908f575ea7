import XSBEngine.Assert.Moves

/-!
# Turns of the move loop

What one turn of `db_genmvs` can do, to the queue and to the registers.
-/

namespace XSBEngine.Assert

open Function Library List

/-! ### Free registers -/

section Registers

variable {regArray regArray' : Nat → Int} {reg reg' : RegStat} {l : List Nat} {n r r' r0 : Nat}
  {type : Int}

theorem FreeChain.congr (h : FreeChain regArray r l n) (hl : ∀ i ∈ l, regArray' i = regArray i)
    (hn : regArray' n = regArray n) : FreeChain regArray' r l n := by
  induction h with
  | last hzero => exact .last (hn.trans hzero)
  | @next r n l hne hchain ih =>
    have hr := hl r mem_cons_self
    refine .next (hr ▸ hne) ?_
    rw [hr]
    exact ih (fun i hi => hl i (mem_cons_of_mem r hi)) hn

/-- What `reg_get` returns was free, and nothing else changes. -/
structure Gets (reg : RegStat) (l : List Nat) (n : Nat) (type : Int) (r0 : Nat) (reg' : RegStat)
    (l' : List Nat) (n' : Nat) : Prop where
  free : reg'.Free l' n'
  fresh : ¬ RegStat.Held l n r0
  got : RegStat.Held l' n' r0
  held : ∀ r, RegStat.Held l n r → RegStat.Held l' n' r ∧ reg'.regArray r = reg.regArray r
  type : reg'.regArray r0 = type

theorem RegStat.Free.get (h : reg.Free l n) (hget : regGet reg type = .ok (r0, reg')) :
    ∃ l' n', Gets reg l n type r0 reg' l' n' := by
  obtain ⟨hchain, hnodup, hlt, hpos⟩ := h
  unfold regGet at hget
  simp only at hget
  cases hchain with
  | last hzero =>
    rw [if_pos hzero] at hget
    split at hget
    next => cases hget
    next =>
      obtain ⟨rfl, rfl⟩ := Prod.mk.inj (Except.ok.inj hget)
      refine ⟨[], reg.freeReg + 1, ⟨.last ?_, nodup_nil, nofun, ⟨by omega, nofun⟩⟩, ?_, ?_,
        fun r hr => ?_, update_self ..⟩
      · show update (update reg.regArray _ _) _ _ (reg.freeReg + 1) = 0
        rw [update_of_ne (by omega), update_self]
      · exact fun hheld => Nat.lt_irrefl _ hheld.2.1
      · exact ⟨hpos.1, Nat.lt_succ_self _, not_mem_nil⟩
      · have hr' := hr.2.1
        refine ⟨⟨hr.1, by omega, not_mem_nil⟩, ?_⟩
        show update (update reg.regArray _ _) _ _ r = _
        rw [update_of_ne (by omega), update_of_ne (by omega)]
  | @next r n l hne hrest =>
    rw [if_neg hne] at hget
    obtain ⟨rfl, rfl⟩ := Prod.mk.inj (Except.ok.inj hget)
    obtain ⟨hnot, hnodup'⟩ := nodup_cons.mp hnodup
    have hr := hlt _ mem_cons_self
    refine ⟨l, n, ⟨?_, hnodup', fun r hr => hlt r (mem_cons_of_mem _ hr), hpos.1,
      fun r hr => hpos.2 r (mem_cons_of_mem _ hr)⟩, ?_, ?_, fun r hr => ?_,
      update_self ..⟩
    · refine hrest.congr (fun i hi => update_of_ne (ne_of_mem_of_not_mem hi hnot) ..) ?_
      exact update_of_ne (by omega) ..
    · exact fun hheld => hheld.2.2 mem_cons_self
    · exact ⟨hpos.2 _ mem_cons_self, hr, hnot⟩
    · refine ⟨⟨hr.1, hr.2.1, fun hmem => hr.2.2 (mem_cons_of_mem _ hmem)⟩, ?_⟩
      apply update_of_ne
      rintro rfl
      exact hr.2.2 mem_cons_self

/-- There is a register unless all are in use. -/
theorem regGet_eq (h : ¬ (reg.regArray reg.freeReg = 0 ∧ maxRegs ≤ reg.freeReg + 1)) :
    ∃ r0 reg', regGet reg type = .ok (r0, reg') := by
  unfold regGet
  simp only
  split
  next hzero =>
    rw [if_neg fun hle => h ⟨hzero, hle⟩]
    exact ⟨_, _, rfl⟩
  next => exact ⟨_, _, rfl⟩

theorem FreeChain.start_pos (h : FreeChain regArray r l n) (hpos : 0 < n ∧ ∀ i ∈ l, 0 < i) :
    0 < r := by
  cases h with
  | last _ => exact hpos.1
  | next _ _ => exact hpos.2 _ mem_cons_self

/-- A register is released if it was marked as introduced. -/
theorem RegStat.Free.release (h : reg.Free l n) (hr : RegStat.Held l n r) :
    ∃ l', (regRelease reg r).Free l' n ∧
      (∀ r', RegStat.Held l n r' → (r' = r → reg.regArray r ≠ TVAR) → RegStat.Held l' n r') ∧
      ∀ r', (r' = r → reg.regArray r ≠ TVAR) →
        (regRelease reg r).regArray r' = reg.regArray r' := by
  unfold regRelease
  split
  next htvar =>
    have hstart := h.chain.start_pos h.pos
    refine ⟨r :: l, ⟨.next ?_ ?_, nodup_cons.mpr ⟨hr.2.2, h.nodup⟩, ?_, h.pos.1, ?_⟩,
      fun r' hr' hne => ⟨hr'.1, hr'.2.1, ?_⟩, fun r' hne => ?_⟩
    · show update reg.regArray r (reg.freeReg : Int) r ≠ 0
      rw [update_self]
      omega
    · show FreeChain _ (update reg.regArray r (reg.freeReg : Int) r).toNat l n
      rw [update_self, Int.toNat_natCast]
      exact h.chain.congr (fun i hi => update_of_ne (ne_of_mem_of_not_mem hi hr.2.2) ..)
        (update_of_ne (Nat.ne_of_gt hr.2.1) ..)
    · intro i hi
      rcases mem_cons.mp hi with rfl | hi
      · exact hr.2.1
      · exact h.lt i hi
    · intro i hi
      rcases mem_cons.mp hi with rfl | hi
      · exact hr.1
      · exact h.pos.2 i hi
    · rw [mem_cons]
      rintro (rfl | hmem)
      · exact hne rfl htvar
      · exact hr'.2.2 hmem
    · exact update_of_ne (fun heq => hne heq htvar) ..
  next => exact ⟨l, h, fun r' hr' _ => hr', fun _ _ => rfl⟩

end Registers

/-! ### The loop -/

variable {s s' : Moves} {i j : Instruction} {P P' : List Instruction}

/-- The first load of the queue is `i`, and the others are those of `P`. -/
structure Queued (s : Moves) (i : Instruction) (P : List Instruction) : Prop where
  wf : s.queue.WF instQueueSize
  contents : s.queue.contents instQueueSize = i :: P

theorem Queued.rest (h : Queued s i P) : s.queue.top ≠ s.queue.bottom ∧ s.head = i ∧
    s.rest.WF instQueueSize ∧ s.rest.contents instQueueSize = P := by
  have hne : s.queue.top ≠ s.queue.bottom := by
    intro heq
    have hnil := Ring.contents_eq_nil h.wf heq
    rw [h.contents] at hnil
    cases hnil
  have hcons := (Ring.contents_eq_cons h.wf hne).symm.trans h.contents
  exact ⟨hne, (List.cons.inj hcons).1, h.wf.rem, (List.cons.inj hcons).2⟩

/-- An instruction can be put back. -/
theorem Queued.push (h : Queued s i P) (j : Instruction) {t : Moves} (ht : t.queue = s.rest) :
    ∃ q, t.push j = .ok { t with queue := q } ∧ q.WF instQueueSize ∧
      q.contents instQueueSize = P ++ [j] := by
  obtain ⟨hne, -, hwf, hcontents⟩ := h.rest
  have hlen := Ring.length_rem h.wf hne
  have hlt := Ring.length_lt h.wf
  have hroom : s.rest.length instQueueSize + 1 < instQueueSize := by
    show (s.queue.rem instQueueSize).length instQueueSize + 1 < instQueueSize
    omega
  refine ⟨s.rest.push instQueueSize j, ?_, hwf.push j, ?_⟩
  · have hnotfull : ¬ (s.rest.push instQueueSize j).top = (s.rest.push instQueueSize j).bottom := by
      rw [Ring.push_top_eq hwf]
      omega
    rw [Moves.push, instQueuePush, ht, if_neg hnotfull]
    rfl
  · rw [Ring.contents_push hwf hroom, hcontents]

theorem Queued.target_scan (h : Queued s i P) (r : Nat) : targetIsNotSource s.rest r = false ↔
    s.rest.bottom ≤ s.rest.top ∧ ∃ j ∈ P, j.opcode = .movreg ∧ j.arg1 = r := by
  obtain ⟨-, -, hwf, hcontents⟩ := h.rest
  rw [targetIsNotSource, Ring.scan_eq hwf, hcontents]
  split
  next hle => simp [hle]
  next hlt => simp [hlt]

theorem Queued.source_scan (h : Queued s i P) (hle : s.rest.bottom ≤ s.rest.top) (r : Nat) :
    sourceIsNotTarget s.rest r = false ↔ ∃ j ∈ P, j.arg2 = r := by
  obtain ⟨-, -, hwf, hcontents⟩ := h.rest
  rw [sourceIsNotTarget, Ring.scan_eq hwf, if_pos hle, hcontents]
  simp only [all_eq_false, Bool.not_eq_true', decide_eq_false_iff_not, not_not]

/-- What a turn does with the first load, and what is in the queue then. -/
inductive Turn (s : Moves) (i : Instruction) (P : List Instruction) (s' : Moves) :
    List Instruction → Prop where
  | skip : i.opcode = .movreg → i.arg1 = i.arg2 → s'.reg = s.reg → s'.code = s.code →
      Turn s i P s' P
  | emit : ¬ (i.opcode = .movreg ∧ i.arg1 = i.arg2) →
      (s.Misled ∨ ∀ j ∈ P, j.opcode = .movreg → j.arg1 ≠ i.arg2) →
      s'.reg = (if i.opcode = .movreg then regRelease s.reg i.arg1 else s.reg) →
      s'.code = s.code ++ [i] → Turn s i P s' P
  | delay : s.rest.bottom ≤ s.rest.top → ¬ (i.opcode = .movreg ∧ i.arg1 = i.arg2) →
      (∃ j ∈ P, j.opcode = .movreg ∧ j.arg1 = i.arg2) →
      (i.opcode = .movreg → ∀ j ∈ P, j.arg2 ≠ i.arg1) →
      s'.reg = s.reg → s'.code = s.code → Turn s i P s' (P ++ [i])
  | cycle {r0 : Nat} {reg' : RegStat} : s.rest.bottom ≤ s.rest.top → i.opcode = .movreg →
      i.arg1 ≠ i.arg2 →
      (∃ j ∈ P, j.arg2 = i.arg1) → regGet s.reg TVAR = .ok (r0, reg') →
      s'.reg = regRelease reg' i.arg1 → s'.code = s.code ++ [⟨.movreg, i.arg1, r0⟩] →
      Turn s i P s' (P ++ [⟨.movreg, r0, i.arg2⟩])

/-- If the scan finds no source, there is none, or the queue goes round. -/
theorem Queued.not_found (h : Queued s i P) (hself : ¬ (i.opcode = .movreg ∧ i.arg1 = i.arg2))
    (hscan : ¬ targetIsNotSource s.rest i.arg2 = false) :
    s.Misled ∨ ∀ j ∈ P, j.opcode = .movreg → j.arg1 ≠ i.arg2 := by
  obtain ⟨-, hhead, -, hcontents⟩ := h.rest
  rw [h.target_scan] at hscan
  by_cases hle : s.rest.bottom ≤ s.rest.top
  case pos =>
    right
    intro j hj hop harg
    exact hscan ⟨hle, j, hj, hop, harg⟩
  case neg =>
    by_cases hex : ∃ j ∈ P, j.opcode = .movreg ∧ j.arg1 = i.arg2
    case pos =>
      left
      refine ⟨by omega, ?_, ?_⟩
      · rw [hhead]
        exact hself
      · rw [hhead, hcontents]
        exact hex
    case neg =>
      right
      intro j hj hop harg
      exact hex ⟨j, hj, hop, harg⟩

/-- A turn returns if there is a register for it. -/
theorem Queued.step_eq (h : Queued s i P) (hout : ¬ s.OutOfRegisters) :
    ∃ s', s.step = .ok s' := by
  obtain ⟨-, hhead, -, -⟩ := h.rest
  unfold Moves.OutOfRegisters at hout
  rw [hhead] at hout
  have hpush : ∀ (t : Moves) (j : Instruction), t.queue = s.rest → ∃ s', t.push j = .ok s' := by
    intro t j ht
    obtain ⟨q, heq, -⟩ := h.push j ht
    exact ⟨_, heq⟩
  unfold Moves.step
  rw [hhead]
  simp only
  split
  next hop =>
    split
    next => exact ⟨_, rfl⟩
    next hne =>
      split
      next => exact ⟨_, rfl⟩
      next hscan =>
        split
        next => exact hpush _ _ rfl
        next hscan' =>
          obtain ⟨r0, reg', hget⟩ : ∃ r0 reg', regGet s.reg TVAR = .ok (r0, reg') := by
            apply regGet_eq
            rintro ⟨hzero, hle⟩
            exact hout ⟨hop, hne, Bool.not_eq_true _ ▸ hscan, Bool.not_eq_true _ ▸ hscan', hzero,
              hle⟩
          rw [hget]
          exact hpush _ _ rfl
  next =>
    split
    next => exact ⟨_, rfl⟩
    next => exact hpush _ _ rfl

/-- What a turn can do. -/
theorem Queued.turn (h : Queued s i P) (hstep : s.step = .ok s') :
    ∃ P', Turn s i P s' P' ∧ s'.queue.WF instQueueSize ∧
      s'.queue.contents instQueueSize = P' := by
  obtain ⟨-, hhead, hwf, hcontents⟩ := h.rest
  have hpush : ∀ (t : Moves) (j : Instruction), t.queue = s.rest → t.push j = .ok s' →
      s'.queue.WF instQueueSize ∧ s'.queue.contents instQueueSize = P ++ [j] ∧ s'.reg = t.reg ∧
        s'.code = t.code := by
    intro t j ht hok
    obtain ⟨q, heq, hq, hc⟩ := h.push j ht
    obtain rfl := Except.ok.inj (heq.symm.trans hok)
    exact ⟨hq, hc, rfl, rfl⟩
  unfold Moves.step at hstep
  rw [hhead] at hstep
  simp only at hstep
  split at hstep
  next hop =>
    split at hstep
    next heq =>
      obtain rfl := Except.ok.inj hstep
      exact ⟨P, .skip hop heq rfl rfl, hwf, hcontents⟩
    next hne =>
      have hself : ¬ (i.opcode = .movreg ∧ i.arg1 = i.arg2) := fun hself => hne hself.2
      split at hstep
      next hscan =>
        obtain rfl := Except.ok.inj hstep
        refine ⟨P, .emit hself (h.not_found hself (by simp [hscan])) ?_ rfl, hwf, hcontents⟩
        rw [if_pos hop]
      next hscan =>
        obtain ⟨hle, hsource⟩ := (h.target_scan _).mp (Bool.not_eq_true _ ▸ hscan)
        split at hstep
        next hscan' =>
          obtain ⟨hq, hc, hreg, hcode⟩ := hpush _ _ rfl hstep
          refine ⟨_, .delay hle hself hsource (fun _ j hj harg => ?_) hreg hcode, hq, hc⟩
          have hfalse := (h.source_scan hle i.arg1).mpr ⟨j, hj, harg⟩
          cases hfalse.symm.trans hscan'
        next hscan' =>
          have htarget := (h.source_scan hle i.arg1).mp (Bool.not_eq_true _ ▸ hscan')
          cases hget : regGet s.reg TVAR with
          | error e =>
            rw [hget] at hstep
            cases hstep
          | ok got =>
            obtain ⟨r0, reg'⟩ := got
            rw [hget] at hstep
            obtain ⟨hq, hc, hreg, hcode⟩ := hpush _ _ rfl hstep
            exact ⟨_, .cycle hle hop hne htarget hget hreg hcode, hq, hc⟩
  next hop =>
    have hself : ¬ (i.opcode = .movreg ∧ i.arg1 = i.arg2) := fun hself => hop hself.1
    split at hstep
    next hscan =>
      obtain rfl := Except.ok.inj hstep
      refine ⟨P, .emit hself (h.not_found hself (by simp [hscan])) ?_ rfl, hwf, hcontents⟩
      rw [if_neg hop]
      rfl
    next hscan =>
      obtain ⟨hle, hsource⟩ := (h.target_scan _).mp (Bool.not_eq_true _ ▸ hscan)
      obtain ⟨hq, hc, hreg, hcode⟩ := hpush _ _ rfl hstep
      exact ⟨_, .delay hle hself hsource (fun hmov => absurd hmov hop) hreg hcode, hq, hc⟩

end XSBEngine.Assert
