import Mathlib

/-!
# Invalidation

`invalidate_call` and the walk `dfs_outedges`, `XSB/emu/call_graph_xsb.c:620–738, 969–979`.
-/

namespace XSBEngine.CallGraph

open Bool Function List Relation

/-- How many values the bit field `falsecount` has. -/
def falsecountRange : Nat := 2 ^ 14

/-- The marks of the nodes. `recomputable` is true for `COMPUTE_DIRECTLY`. -/
@[ext] structure IdgFlags where
  deleted : Nat → Bool
  recomputable : Nat → Bool
  falsecount : Nat → Nat
  falsecount_lt : ∀ x, falsecount x < falsecountRange

/-- What invalidation reads of the nodes. -/
structure Idg where
  hasht : Nat → List Nat
  idgDynLeaf : Nat → Bool
  isCompleted : Nat → Bool

/-- How a walk ends: at the end of the stack, or with the error for an incomplete table. -/
inductive WalkEnd where
  | done (f : IdgFlags)
  | incomplete (cn : Nat) (f : IdgFlags)

namespace IdgFlags

/-- The count of a node is changed. -/
def setFalsecount (f : IdgFlags) (cn n : Nat) : IdgFlags :=
  { f with
    falsecount := update f.falsecount cn (n % falsecountRange)
    falsecount_lt := by
      intro x
      by_cases hx : x = cn
      · rw [hx, update_self]
        exact Nat.mod_lt _ (by decide)
      · rw [update_of_ne hx]
        exact f.falsecount_lt x }

/-- The mark of a node is changed. -/
def setDeleted (f : IdgFlags) (cn : Nat) (d : Bool) : IdgFlags :=
  { f with deleted := update f.deleted cn d }

/-- `falsecount++`. -/
def incrFalsecount (f : IdgFlags) (cn : Nat) : IdgFlags := f.setFalsecount cn (f.falsecount cn + 1)

variable (f : IdgFlags) (cn x n : Nat) (d : Bool)

@[simp] theorem deleted_incrFalsecount : (f.incrFalsecount cn).deleted = f.deleted := rfl

@[simp] theorem falsecount_setDeleted : (f.setDeleted cn d).falsecount = f.falsecount := rfl

theorem deleted_setDeleted :
    (f.setDeleted cn d).deleted x = if x = cn then d else f.deleted x :=
  update_apply ..

theorem falsecount_setFalsecount : (f.setFalsecount cn n).falsecount x =
    if x = cn then n % falsecountRange else f.falsecount x :=
  update_apply ..

theorem falsecount_incrFalsecount : (f.incrFalsecount cn).falsecount x =
    if x = cn then (f.falsecount cn + 1) % falsecountRange else f.falsecount x :=
  f.falsecount_setFalsecount ..

end IdgFlags

namespace Idg

/-- `dfs_outedges_check_non_completed` throws. -/
def nonCompleted (v : Idg) (cn : Nat) : Bool := !v.idgDynLeaf cn && !v.isCompleted cn

/-- The loop of `dfs_outedges`. A frame of the stack is a node with the rest of its table, and the
top is the head. -/
def dfsLoop (v : Idg) : Nat → IdgFlags → List (Nat × List Nat) → Option WalkEnd
  | 0, _, _ => none
  | _ + 1, f, [] => some (.done f)
  | fuel + 1, f, (_, []) :: frames => v.dfsLoop fuel f frames
  | fuel + 1, f, (call, cn :: rest) :: frames =>
    let f := f.incrFalsecount cn
    if f.deleted cn then v.dfsLoop fuel f ((call, rest) :: frames)
    else if v.nonCompleted cn then some (.incomplete cn f)
    else v.dfsLoop fuel (f.setDeleted cn true) ((cn, v.hasht cn) :: (call, rest) :: frames)

/-- An edge is followed. -/
theorem dfsLoop_cons (v : Idg) (fuel : Nat) (f : IdgFlags) (call cn : Nat) (rest : List Nat)
    (frames : List (Nat × List Nat)) : v.dfsLoop (fuel + 1) f ((call, cn :: rest) :: frames) =
      if f.deleted cn then v.dfsLoop fuel (f.incrFalsecount cn) ((call, rest) :: frames)
      else if v.nonCompleted cn then some (.incomplete cn (f.incrFalsecount cn))
      else v.dfsLoop fuel ((f.incrFalsecount cn).setDeleted cn true)
        ((cn, v.hasht cn) :: (call, rest) :: frames) := rfl

/-- `dfs_outedges`. -/
def dfsOutedges (v : Idg) (fuel : Nat) (f : IdgFlags) (call1 : Nat) : Option WalkEnd :=
  if v.nonCompleted call1 then some (.incomplete call1 f)
  else
    let f := if v.idgDynLeaf call1 then f else f.setDeleted call1 true
    v.dfsLoop fuel f (if v.hasht call1 = [] then [] else [(call1, v.hasht call1)])

/-- `invalidate_call`. -/
def invalidateCall (v : Idg) (fuel : Nat) (f : IdgFlags) (cn : Nat) : Option WalkEnd :=
  if f.deleted cn then some (.done f) else v.dfsOutedges fuel (f.incrFalsecount cn) cn

/-- A graph on some nodes: an edge leads from a node to one that is not a leaf. -/
structure On (v : Idg) (nodes : Finset Nat) : Prop where
  closed : ∀ a ∈ nodes, ∀ b ∈ v.hasht a, b ∈ nodes
  nodup : ∀ a ∈ nodes, (v.hasht a).Nodup
  interior : ∀ a ∈ nodes, ∀ b ∈ v.hasht a, v.idgDynLeaf b = false

/-- An edge to a node that is not marked. -/
def Affects (v : Idg) (f : IdgFlags) (a b : Nat) : Prop := b ∈ v.hasht a ∧ f.deleted b = false

/-- The nodes whose edges to `b` count towards `b`. -/
def inedgesFrom (v : Idg) (nodes : Finset Nat) (p : Nat → Bool) (b : Nat) : Finset Nat :=
  nodes.filter fun a => p a = true ∧ b ∈ v.hasht a

theorem card_inedgesFrom_le (v : Idg) (nodes : Finset Nat) (p : Nat → Bool) (b : Nat) :
    (v.inedgesFrom nodes p b).card ≤ nodes.card :=
  Finset.card_filter_le ..

end Idg

/-! ### The walk -/

/-- The state of a walk that began at `cn` with the marks `f₀`. -/
structure Walking (v : Idg) (nodes : Finset Nat) (f₀ : IdgFlags) (cn : Nat) (walked : List Nat)
    (f : IdgFlags) (frames : List (Nat × List Nat)) : Prop where
  nodup : walked.Nodup
  sub : ∀ a ∈ walked, a ∈ nodes
  root : cn ∈ walked
  fresh : ∀ a ∈ walked, f₀.deleted a = false
  interior : ∀ a ∈ walked, a ≠ cn → v.idgDynLeaf a = false
  reach : ∀ a ∈ walked, ReflTransGen (v.Affects f₀) cn a
  deleted : ∀ x, f.deleted x = true ↔
    f₀.deleted x = true ∨ x ∈ walked ∧ v.idgDynLeaf x = false
  stack : ∀ fr ∈ frames, fr.1 ∈ walked ∧ ∀ b ∈ fr.2, b ∈ v.hasht fr.1
  followed : ∀ a ∈ walked, ∀ b ∈ v.hasht a,
    f.deleted b = true ∨ ∃ fr ∈ frames, fr.1 = a ∧ b ∈ fr.2
  recomputable : f.recomputable = f₀.recomputable
  count : ∀ x, (f.falsecount x + (frames.map fun fr => fr.2.count x).sum) % falsecountRange =
    (f₀.falsecount x + (if x = cn then 1 else 0) +
      (walked.map fun a => (v.hasht a).count x).sum) % falsecountRange

/-- The count of a node goes up by one. -/
theorem IdgFlags.falsecount_incr_mod (f : IdgFlags) (b x n : Nat) (l : List Nat) :
    ((f.incrFalsecount b).falsecount x + (l.count x + n)) % falsecountRange =
      (f.falsecount x + ((b :: l).count x + n)) % falsecountRange := by
  rw [falsecount_incrFalsecount, count_cons]
  by_cases hx : x = b
  · rw [if_pos hx, hx, beq_self_eq_true, if_pos rfl, Nat.mod_add_mod]
    congr 1
    omega
  · rw [if_neg hx, if_neg (by simpa using Ne.symm hx), Nat.add_zero]

namespace Walking

variable {v : Idg} {nodes : Finset Nat} {f₀ f : IdgFlags} {cn call b : Nat} {walked rest : List Nat}
  {frames : List (Nat × List Nat)}

/-- The end of a table. -/
theorem pop (h : Walking v nodes f₀ cn walked f ((call, []) :: frames)) :
    Walking v nodes f₀ cn walked f frames where
  nodup := h.nodup
  sub := h.sub
  root := h.root
  fresh := h.fresh
  interior := h.interior
  recomputable := h.recomputable
  reach := h.reach
  deleted := h.deleted
  stack fr hfr := h.stack fr (mem_cons_of_mem _ hfr)
  followed a ha b hb := by
    rcases h.followed a ha b hb with hd | ⟨fr, hfr, heq, hmem⟩
    · exact Or.inl hd
    · rcases mem_cons.mp hfr with rfl | hfr
      · exact absurd hmem not_mem_nil
      · exact Or.inr ⟨fr, hfr, heq, hmem⟩
  count x := by simpa using h.count x

section

variable (h : Walking v nodes f₀ cn walked f ((call, b :: rest) :: frames))
include h

/-- An edge to a node that is marked. -/
theorem skip (hb : f.deleted b = true) :
    Walking v nodes f₀ cn walked (f.incrFalsecount b) ((call, rest) :: frames) where
  nodup := h.nodup
  sub := h.sub
  root := h.root
  fresh := h.fresh
  interior := h.interior
  recomputable := h.recomputable
  reach := h.reach
  deleted := h.deleted
  stack := by
    obtain ⟨hcall, hrest⟩ := h.stack _ mem_cons_self
    exact forall_mem_cons.mpr ⟨⟨hcall, fun x hx => hrest x (mem_cons_of_mem b hx)⟩,
      fun fr hfr => h.stack fr (mem_cons_of_mem _ hfr)⟩
  followed a ha x hx := by
    rcases h.followed a ha x hx with hd | ⟨fr, hfr, heq, hmem⟩
    · exact Or.inl hd
    · rcases mem_cons.mp hfr with rfl | hfr
      · rcases mem_cons.mp hmem with rfl | hmem
        · exact Or.inl hb
        · exact Or.inr ⟨_, mem_cons_self, heq, hmem⟩
      · exact Or.inr ⟨fr, mem_cons_of_mem _ hfr, heq, hmem⟩
  count x := by
    rw [← h.count x, map_cons, map_cons, sum_cons, sum_cons]
    exact f.falsecount_incr_mod ..

/-- An edge to a node that is not marked. -/
theorem push (hv : v.On nodes)
    (hb : f.deleted b = false) :
    Walking v nodes f₀ cn (b :: walked) ((f.incrFalsecount b).setDeleted b true)
      ((b, v.hasht b) :: (call, rest) :: frames) := by
  obtain ⟨hcall, hrest⟩ := h.stack _ mem_cons_self
  have hmem : b ∈ v.hasht call := hrest b mem_cons_self
  have hleaf := hv.interior call (h.sub call hcall) b hmem
  have hfresh : f₀.deleted b = false := by
    apply eq_false_iff.mpr
    intro hd
    rw [(h.deleted b).mpr (Or.inl hd)] at hb
    cases hb
  have hnew : b ∉ walked := by
    intro hw
    rw [(h.deleted b).mpr (Or.inr ⟨hw, hleaf⟩)] at hb
    cases hb
  constructor
  case nodup => exact nodup_cons.mpr ⟨hnew, h.nodup⟩
  case sub =>
    exact forall_mem_cons.mpr ⟨hv.closed call (h.sub call hcall) b hmem, h.sub⟩
  case root => exact mem_cons_of_mem b h.root
  case fresh => exact forall_mem_cons.mpr ⟨hfresh, h.fresh⟩
  case interior => exact forall_mem_cons.mpr ⟨fun _ => hleaf, h.interior⟩
  case recomputable => exact h.recomputable
  case reach =>
    exact forall_mem_cons.mpr ⟨(h.reach call hcall).tail ⟨hmem, hfresh⟩, h.reach⟩
  case deleted =>
    intro x
    rw [IdgFlags.deleted_setDeleted]
    by_cases hx : x = b
    · simp [hx, hleaf]
    · rw [if_neg hx, IdgFlags.deleted_incrFalsecount, h.deleted x, mem_cons, or_iff_right hx]
  case stack =>
    refine forall_mem_cons.mpr ⟨⟨mem_cons_self, fun x hx => hx⟩,
      forall_mem_cons.mpr ⟨⟨mem_cons_of_mem b hcall, fun x hx ↦ hrest x (mem_cons_of_mem b hx)⟩,
        ?_⟩⟩
    intro fr hfr
    obtain ⟨hw, hfr⟩ := h.stack fr (mem_cons_of_mem _ hfr)
    exact ⟨mem_cons_of_mem b hw, hfr⟩
  case followed =>
    intro a ha x hx
    rw [IdgFlags.deleted_setDeleted]
    rcases mem_cons.mp ha with rfl | ha
    · exact Or.inr ⟨_, mem_cons_self, rfl, hx⟩
    · by_cases hxb : x = b
      · exact Or.inl (if_pos hxb)
      · rw [if_neg hxb, IdgFlags.deleted_incrFalsecount]
        rcases h.followed a ha x hx with hd | ⟨fr, hfr, heq, hmem⟩
        · exact Or.inl hd
        · apply Or.inr
          rcases mem_cons.mp hfr with rfl | hfr
          · exact ⟨_, mem_cons_of_mem _ mem_cons_self, heq,
              (mem_cons.mp hmem).resolve_left hxb⟩
          · exact ⟨fr, mem_cons_of_mem _ (mem_cons_of_mem _ hfr), heq, hmem⟩
  case count =>
    intro x
    rw [map_cons, map_cons, sum_cons, sum_cons, map_cons, sum_cons,
      IdgFlags.falsecount_setDeleted]
    have hcount := h.count x
    rw [map_cons, sum_cons] at hcount
    have hincr := f.falsecount_incr_mod b x (frames.map fun fr => fr.2.count x).sum rest
    rw [hcount] at hincr
    have hadd := Nat.ModEq.add_right ((v.hasht b).count x) hincr
    rw [Nat.ModEq] at hadd
    rw [Nat.add_comm ((v.hasht b).count x), ← Nat.add_assoc, hadd]
    congr 1
    omega

end

/-- What holds at the end of the stack. -/
theorem falsecount (h : Walking v nodes f₀ cn walked f []) (hv : v.On nodes) (x : Nat) :
    f.falsecount x = (f₀.falsecount x + (if x = cn then 1 else 0) +
      (v.inedgesFrom nodes (walked.contains ·) x).card) % falsecountRange := by
  have hcount := h.count x
  rw [map_nil, sum_nil, Nat.add_zero, Nat.mod_eq_of_lt (f.falsecount_lt x)] at hcount
  rw [hcount]
  congr 2
  rw [← sum_toFinset _ h.nodup, Idg.inedgesFrom]
  have hfilter : nodes.filter (fun a => walked.contains a = true ∧ x ∈ v.hasht a) =
      walked.toFinset.filter fun a => x ∈ v.hasht a := by
    ext a
    simp only [Finset.mem_filter, contains_iff_mem, mem_toFinset]
    exact ⟨fun ha => ha.2, fun ha => ⟨h.sub a ha.1, ha⟩⟩
  rw [hfilter, Finset.card_filter]
  apply Finset.sum_congr rfl
  intro a ha
  split
  next hx => exact count_eq_one_of_mem (hv.nodup a (h.sub a (mem_toFinset.mp ha))) hx
  next hx => exact count_eq_zero_of_not_mem hx

/-- A walk that begins. -/
theorem start {f₁ : IdgFlags} (hcn : cn ∈ nodes) (hfresh : f₀.deleted cn = false)
    (hf1 : f₁ = if v.idgDynLeaf cn then f₀.incrFalsecount cn
      else (f₀.incrFalsecount cn).setDeleted cn true) :
    Walking v nodes f₀ cn [cn] f₁
      (if v.hasht cn = [] then [] else [(cn, v.hasht cn)]) := by
  have hcount : f₁.falsecount = (f₀.incrFalsecount cn).falsecount := by
    rw [hf1]
    split
    next => rfl
    next => rfl
  constructor
  case nodup => exact nodup_singleton cn
  case sub => simpa using hcn
  case root => exact mem_singleton_self cn
  case fresh => simpa using hfresh
  case interior => simp
  case reach => simpa using ReflTransGen.refl
  case recomputable =>
    rw [hf1]
    split
    next => rfl
    next => rfl
  case deleted =>
    intro x
    rw [hf1]
    split
    next hleaf =>
      rw [IdgFlags.deleted_incrFalsecount, mem_singleton]
      apply (or_iff_left _).symm
      rintro ⟨rfl, hx⟩
      rw [hleaf] at hx
      cases hx
    next hleaf =>
      rw [IdgFlags.deleted_setDeleted]
      by_cases hx : x = cn
      · simpa [hx] using Or.inr hleaf
      · simp [hx]
  case stack =>
    split
    next => simp
    next => simp
  case followed =>
    intro a ha b hb
    rw [mem_singleton.mp ha] at hb ⊢
    rw [if_neg (ne_nil_of_mem hb)]
    exact Or.inr ⟨_, mem_singleton_self _, rfl, hb⟩
  case count =>
    intro x
    have hsum : ((if v.hasht cn = [] then [] else [(cn, v.hasht cn)]).map fun fr =>
        fr.2.count x).sum = (v.hasht cn).count x := by
      split
      next hnil => simp [hnil]
      next => simp
    rw [hsum, hcount, IdgFlags.falsecount_incrFalsecount, map_singleton, sum_singleton]
    split
    next hx => rw [hx, Nat.mod_add_mod]
    next => rfl

/-- The nodes walked over are those that are reached through nodes not marked. -/
theorem mem_walked (h : Walking v nodes f₀ cn walked f []) {x : Nat}
    (hx : ReflTransGen (v.Affects f₀) cn x) : x ∈ walked := by
  induction hx with
  | refl => exact h.root
  | @tail a b _ hab ih =>
    rcases h.followed a ih b hab.1 with hd | ⟨fr, hfr, -⟩
    · rcases (h.deleted b).mp hd with hd | hw
      · rw [hab.2] at hd
        cases hd
      · exact hw.1
    · exact absurd hfr not_mem_nil

/-- The walk reaches the end of the stack with all of this. -/
theorem run {fuel : Nat} {f' : IdgFlags} (h : Walking v nodes f₀ cn walked f frames)
    (hv : v.On nodes) (hrun : v.dfsLoop fuel f frames = some (.done f')) :
    ∃ walked', Walking v nodes f₀ cn walked' f' [] := by
  induction fuel generalizing walked f frames with
  | zero => cases hrun
  | succ fuel ih =>
    match frames with
    | [] =>
      cases hrun
      exact ⟨walked, h⟩
    | (call, []) :: frames => exact ih h.pop hrun
    | (call, b :: rest) :: frames =>
      rw [Idg.dfsLoop_cons] at hrun
      split at hrun
      next hb => exact ih (h.skip hb) hrun
      next hb =>
        split at hrun
        next => cases hrun
        next => exact ih (h.push hv (eq_false_iff.mpr hb)) hrun

/-- What is left to do: the tables of the frames, and those of the nodes not walked over. -/
def work (v : Idg) (nodes : Finset Nat) (walked : List Nat) (frames : List (Nat × List Nat)) :
    Nat :=
  ∑ a ∈ nodes \ walked.toFinset, ((v.hasht a).length + 1) +
    (frames.map fun fr => fr.2.length + 1).sum

theorem work_push (h : Walking v nodes f₀ cn walked f ((call, b :: rest) :: frames))
    (hv : v.On nodes) (hb : f.deleted b = false) :
    work v nodes (b :: walked) ((b, v.hasht b) :: (call, rest) :: frames) <
      work v nodes walked ((call, b :: rest) :: frames) := by
  have hpush := h.push hv hb
  have hmem : b ∈ nodes \ walked.toFinset := by
    apply Finset.mem_sdiff.mpr
    exact ⟨hpush.sub b mem_cons_self, fun hw =>
      (nodup_cons.mp hpush.nodup).1 (mem_toFinset.mp hw)⟩
  rw [work, work, toFinset_cons, Finset.sdiff_insert, ← Finset.add_sum_erase _ _ hmem]
  simp only [map_cons, sum_cons, length_cons]
  omega

/-- The walk ends. -/
theorem terminates {fuel : Nat} (h : Walking v nodes f₀ cn walked f frames) (hv : v.On nodes)
    (hfuel : work v nodes walked frames < fuel) : (v.dfsLoop fuel f frames).isSome := by
  induction fuel generalizing walked f frames with
  | zero => exact absurd hfuel (Nat.not_lt_zero _)
  | succ fuel ih =>
    match frames with
    | [] => rfl
    | (call, []) :: frames =>
      apply ih h.pop
      simp only [work, map_cons, sum_cons, length_nil] at hfuel ⊢
      omega
    | (call, b :: rest) :: frames =>
      rw [Idg.dfsLoop_cons]
      split
      next hb =>
        apply ih (h.skip hb)
        simp only [work, map_cons, sum_cons, length_cons] at hfuel ⊢
        omega
      next hb =>
        split
        next => rfl
        next =>
          have hb' := eq_false_iff.mpr hb
          have hwork := h.work_push hv hb'
          exact ih (h.push hv hb') (by omega)

end Walking

/-! ### A whole invalidation -/

/-- What the invalidation of a node that is not marked does to the marks. -/
structure Invalidated (v : Idg) (nodes : Finset Nat) (f : IdgFlags) (cn : Nat) (f' : IdgFlags) :
    Prop where
  deleted : ∀ x, f'.deleted x = true ↔
    f.deleted x = true ∨ ReflTransGen (v.Affects f) cn x ∧ v.idgDynLeaf x = false
  falsecount : ∀ x, f'.falsecount x = (f.falsecount x + (if x = cn then 1 else 0) +
    (v.inedgesFrom nodes (fun a => a = cn || (f'.deleted a && !f.deleted a)) x).card) %
      falsecountRange
  recomputable : f'.recomputable = f.recomputable

variable {v : Idg} {nodes : Finset Nat} {f f' : IdgFlags} {cn fuel : Nat}

theorem Walking.invalidated {walked : List Nat} (h : Walking v nodes f cn walked f' [])
    (hv : v.On nodes) : Invalidated v nodes f cn f' := by
  have hwalked : ∀ x, x ∈ walked ↔ ReflTransGen (v.Affects f) cn x :=
    fun x => ⟨h.reach x, h.mem_walked⟩
  constructor
  case deleted =>
    intro x
    rw [h.deleted x, hwalked]
  case recomputable => exact h.recomputable
  case falsecount =>
    intro x
    rw [h.falsecount hv x]
    congr 3
    apply Finset.filter_congr
    intro a _
    have hsource : walked.contains a = true ↔ (a = cn || (f'.deleted a && !f.deleted a)) =
      true := by
      simp only [contains_iff_mem, or_eq_true, decide_eq_true_eq, and_eq_true,
        not_eq_true']
      constructor
      · intro ha
        by_cases hacn : a = cn
        · exact Or.inl hacn
        · exact Or.inr ⟨(h.deleted a).mpr (Or.inr ⟨ha, h.interior a ha hacn⟩), h.fresh a ha⟩
      · rintro (rfl | ⟨hd, hf⟩)
        · exact h.root
        · rcases (h.deleted a).mp hd with hd | hd
          · rw [hf] at hd
            cases hd
          · exact hd.1
    rw [hsource]

/-- An invalidation that returns normally. -/
theorem invalidateCall_done (hv : v.On nodes) (hcn : cn ∈ nodes) (hfresh : f.deleted cn = false)
    (hrun : v.invalidateCall fuel f cn = some (.done f')) : Invalidated v nodes f cn f' := by
  rw [Idg.invalidateCall, if_neg (by simp [hfresh]), Idg.dfsOutedges] at hrun
  split at hrun
  next => cases hrun
  next =>
    obtain ⟨walked, hwalked⟩ := (Walking.start hcn hfresh rfl).run hv hrun
    exact hwalked.invalidated hv

/-- An invalidation ends. -/
theorem invalidateCall_terminates (hv : v.On nodes) (f : IdgFlags) (hcn : cn ∈ nodes) :
    ∃ fuel, (v.invalidateCall fuel f cn).isSome := by
  by_cases hd : f.deleted cn = true
  · exact ⟨0, by rw [Idg.invalidateCall, if_pos hd]; rfl⟩
  · have hfresh := eq_false_iff.mpr hd
    have hwalk : Walking v nodes f cn [cn] _ _ := Walking.start hcn hfresh rfl
    refine ⟨Walking.work v nodes [cn] (if v.hasht cn = [] then [] else [(cn, v.hasht cn)]) + 1, ?_⟩
    rw [Idg.invalidateCall, if_neg hd, Idg.dfsOutedges]
    split
    next => rfl
    next => exact hwalk.terminates hv (Nat.lt_succ_self _)

theorem Invalidated.interior (hv : v.On nodes) (hcn : cn ∈ nodes) {x : Nat}
    (hx : ReflTransGen (v.Affects f) cn x) :
    x ∈ nodes ∧ (x = cn ∨ v.idgDynLeaf x = false ∧ f.deleted x = false) := by
  induction hx with
  | refl => exact ⟨hcn, Or.inl rfl⟩
  | tail _ hab ih =>
    exact ⟨hv.closed _ ih.1 _ hab.1, Or.inr ⟨hv.interior _ ih.1 _ hab.1, hab.2⟩⟩

/-- A node that is not a leaf is marked if it was, if it is the one that is invalidated, or if an
edge from that one or from a node newly marked leads to it. -/
theorem Invalidated.marked_iff (h : Invalidated v nodes f cn f') (hv : v.On nodes)
    (hcn : cn ∈ nodes) {x : Nat} (hleaf : v.idgDynLeaf x = false) : f'.deleted x = true ↔
      f.deleted x = true ∨ x = cn ∨
        0 < (v.inedgesFrom nodes (fun a => a = cn || (f'.deleted a && !f.deleted a)) x).card := by
  have hreach : ∀ a, f'.deleted a = true → f.deleted a = false →
      ReflTransGen (v.Affects f) cn a := by
    intro a ha hf
    rcases (h.deleted a).mp ha with ha | ha
    · rw [hf] at ha
      cases ha
    · exact ha.1
  constructor
  · intro hx
    by_cases hf : f.deleted x = true
    · exact Or.inl hf
    · rcases (hreach x hx (eq_false_iff.mpr hf)).cases_tail with heq | ⟨a, ha, hax⟩
      · exact Or.inr (Or.inl heq)
      · obtain ⟨hmem, hint⟩ := Invalidated.interior hv hcn ha
        refine Or.inr (Or.inr (Finset.card_pos.mpr ⟨a, Finset.mem_filter.mpr ⟨hmem, ?_, hax.1⟩⟩))
        rcases hint with rfl | ⟨haleaf, hfresh⟩
        · simp
        · simp [(h.deleted a).mpr (Or.inr ⟨ha, haleaf⟩), hfresh]
  · rintro (hx | rfl | hpos)
    · exact (h.deleted x).mpr (Or.inl hx)
    · exact (h.deleted x).mpr (Or.inr ⟨.refl, hleaf⟩)
    · obtain ⟨a, ha⟩ := Finset.card_pos.mp hpos
      obtain ⟨-, hsource, hax⟩ := Finset.mem_filter.mp ha
      apply (h.deleted x).mpr
      by_cases hx : f.deleted x = true
      · exact Or.inl hx
      · have hsource' : ReflTransGen (v.Affects f) cn a := by
          rcases or_eq_true_iff.mp hsource with hacn | hnew
          · rw [of_decide_eq_true hacn]
          · obtain ⟨hd, hf⟩ := and_eq_true_iff.mp hnew
            exact hreach a hd (by simpa using hf)
        exact Or.inr ⟨hsource'.tail ⟨hax, eq_false_iff.mpr hx⟩, hleaf⟩

/-- If marked nodes affect marked nodes only, all that is reached is marked. -/
theorem Invalidated.reaches (h : Invalidated v nodes f cn f') (hv : v.On nodes) (hcn : cn ∈ nodes)
    (hclosed : ∀ a ∈ nodes, f.deleted a = true → ∀ b ∈ v.hasht a, f.deleted b = true) {x : Nat}
    (hx : ReflTransGen (fun a b => b ∈ v.hasht a) cn x) (hleaf : v.idgDynLeaf x = false) :
    f'.deleted x = true := by
  have hreach : x ∈ nodes ∧ (f.deleted x = true ∨ ReflTransGen (v.Affects f) cn x) := by
    clear hleaf
    induction hx with
    | refl => exact ⟨hcn, Or.inr .refl⟩
    | @tail a b _ hab ih =>
      obtain ⟨ha, hd⟩ := ih
      refine ⟨hv.closed a ha b hab, ?_⟩
      by_cases hb : f.deleted b = true
      · exact Or.inl hb
      · rcases hd with hd | hd
        · exact absurd (hclosed a ha hd b hab) hb
        · exact Or.inr (hd.tail ⟨hab, eq_false_iff.mpr hb⟩)
  rcases hreach.2 with hd | hd
  · exact (h.deleted x).mpr (Or.inl hd)
  · exact (h.deleted x).mpr (Or.inr ⟨hd, hleaf⟩)

end XSBEngine.CallGraph
