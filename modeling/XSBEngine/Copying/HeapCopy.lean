import XSBEngine.Copying.Findall

/-!
# Copying solutions to the heap

`findall_copy_to_heap` copies what is closed in the chunks. There are no references to other
references in it, so words need not be dereferenced before the calls.
-/

namespace XSBEngine.Copying

open XSBEngine.Heap

variable {g : Glstack} {hreg len lim top dest n x : Nat} {mem : Nat → Cell} {c u v : Cell}
  {P : Nat → Prop} {old : Finset Nat}

variable {intern : Cell → Bool}

/-- What is reached is free or is no reference. -/
theorem Closed.ends {maxAr : Nat} (h : Closed intern mem c top maxAr P)
    (hu : Reaches intern mem c u) : deref mem 1 u = some u := by
  cases u with
  | ref a => exact if_pos (h.ref a hu).2
  | attv a => exact if_pos (h.attv a hu).2.1
  | _ => rfl

/-- The cells in which what is reached is found. -/
theorem Closed.read {maxAr : Nat} (h : Closed intern mem c top maxAr P)
    (hold : ∀ y, P y → y ∈ old) (hu : Reaches intern mem c u) :
    u = c ∨ ∃ y ∈ old, u = mem y := by
  cases hu with
  | refl => exact .inl rfl
  | ref hr hne => exact absurd (h.ref _ hr).2 hne
  | bound hr hne => exact absurd (h.attv _ hr).2.1 hne
  | attr hr _ => exact .inr ⟨_, hold _ (h.attv _ hr).1.2, rfl⟩
  | head hr hint => exact .inr ⟨_, hold _ (h.list _ hr hint).1, rfl⟩
  | tail hr hint => exact .inr ⟨_, hold _ (h.list _ hr hint).2, rfl⟩
  | @arg a j psc hr hint hpsc hj =>
    obtain ⟨psc', hpsc', -, hcells⟩ := h.cs a hr hint
    cases hpsc.symm.trans hpsc'
    have hcell := hcells (j + 1) (by omega)
    rw [← Nat.add_assoc, Nat.add_right_comm] at hcell
    exact .inr ⟨_, hold _ hcell, rfl⟩

theorem Closed.finite_blocks {maxAr : Nat}
    (h : Closed intern mem c top maxAr P) (hold : ∀ y, P y → y ∈ old) :
    {u | Reaches intern mem c u ∧ isBlock intern u = true}.Finite := by
  apply (insert c (old.image mem)).finite_toSet.subset
  intro u hu
  rw [Finset.mem_coe, Finset.mem_insert, Finset.mem_image]
  rcases h.read hold hu.1 with he | ⟨y, hy, he⟩
  · exact .inl he
  · exact .inr ⟨y, hy, he.symm⟩

/-- What `findall_copy_to_heap` copies. -/
noncomputable def heapSetup (g : Glstack) (hreg len lim dest : Nat) (old : Finset Nat)
    (h : Closed g.isinternstr mem c top maxArity P) (hold : ∀ y, P y → y ∈ old) : Setup where
  K := findallCopyToHeap g len
  src := mem
  old := old
  words := {u | Reaches g.isinternstr mem c u}
  blocks := (h.finite_blocks hold).toFinset
  len := len
  maxAr := maxArity
  top := dest
  Good sp := hreg ≤ sp.h
  Owned sp y := hreg ≤ y ∧ y < sp.h ∧ y < lim
  used sp := sp.h
  limit := lim
  boxed := true
  AliasOk v := v.isfloat = false

/-- Where the copy of the solutions is built. -/
structure HeapRoom (g : Glstack) (hreg lim dest : Nat) (old : Finset Nat) : Prop where
  low : g.low ≤ hreg
  high : lim ≤ g.high
  old : ∀ y ∈ old, g.onGlstack y = false
  stack : g.onGlstack dest = true
  outside : dest < hreg ∨ lim ≤ dest

section Setting

variable {h : Closed g.isinternstr mem c top maxArity P} {hold : ∀ y, P y → y ∈ old}

theorem heapSetup_cost : (heapSetup g hreg len lim dest old h hold).cost v = boxCost v := by
  cases v with
  | float x | _ => rfl

theorem heapSetup_cellCost (hlen : 1 ≤ len) (hx : Reaches g.isinternstr mem c (mem x)) :
    (heapSetup g hreg len lim dest old h hold).cellCost x = boxCost (mem x) := by
  have hd : deref mem len (mem x) = some (mem x) := deref_mono (h.ends hx) hlen
  let σ := heapSetup g hreg len lim dest old h hold
  have hsrc : deref σ.src σ.len (σ.src x) = some (mem x) := hd
  rw [Setup.cellCost, hsrc]
  exact heapSetup_cost

theorem heapSetup_weight (hlen : 1 ≤ len) (hu : Reaches g.isinternstr mem c u)
    (hb : isBlock g.isinternstr u = true) :
    (heapSetup g hreg len lim dest old h hold).weight u = copyWeight mem u := by
  cases u with
  | list a =>
    have hint : g.isinternstr (.list a) = false := Bool.not_eq_true' _ ▸ hb
    rw [Setup.weight, heapSetup_cellCost hlen (.head hu hint),
      heapSetup_cellCost hlen (.tail hu hint), copyWeight]
  | attv a =>
    rw [Setup.weight, heapSetup_cellCost hlen (.attr hu (h.attv a hu).2.1), copyWeight]
  | cs a =>
    have hint : g.isinternstr (.cs a) = false := Bool.not_eq_true' _ ▸ hb
    obtain ⟨psc, hpsc, -, -⟩ := h.cs a hu hint
    have hsrc : (heapSetup g hreg len lim dest old h hold).src a = .functor psc := hpsc
    simp only [Setup.weight, copyWeight, hsrc, hpsc]
    congr 1
    apply Finset.sum_congr rfl
    intro j hj
    exact heapSetup_cellCost hlen (.arg hu hint hpsc (Finset.mem_range.mp hj))
  | _ => cases hb

section

variable (hr : HeapRoom g hreg lim dest old)
include hr

theorem heapSetup_alloc {sp : Space} {n : Nat}
    (hgood : hreg ≤ sp.h) (hlimit : sp.h + n ≤ lim) :
    (heapSetup g hreg len lim dest old h hold).Alloc n sp sp.h { sp with h := sp.h + n } where
  fresh j hj := by
    have := hr.outside
    show ¬(hreg ≤ sp.h + j ∧ sp.h + j < sp.h ∧ sp.h + j < lim) ∧ sp.h + j ≠ dest
    omega
  owned y hy := by
    have hy : (hreg ≤ y ∧ y < sp.h ∧ y < lim) ∨ sp.h ≤ y ∧ y < sp.h + n := hy
    show hreg ≤ y ∧ y < sp.h + n ∧ y < lim
    omega
  top hy := by
    have := hr.outside
    have hy : hreg ≤ dest ∧ dest < sp.h + n ∧ dest < lim := hy
    omega
  used := rfl
  good := by
    show hreg ≤ sp.h + n
    omega

theorem HeapRoom.onGlstack {y : Nat} (hy : hreg ≤ y)
    (hlim : y < lim) : g.onGlstack y = true :=
  onGlstack_of_lt (hr.low.trans hy) (hlim.trans_le hr.high)

/-- The tests of `findall_copy_to_heap` tell the heap from the chunks. -/
theorem heapSetup_sound (hlen : 1 ≤ len) :
    (heapSetup g hreg len lim dest old h hold).Sound where
  not_old sp y hy hyo := by
    have hon := hr.onGlstack hy.1 hy.2.2
    rw [hr.old y hyo] at hon
    cases hon
  top_old hyo := by
    have hon := hr.stack
    rw [hr.old dest hyo] at hon
    cases hon
  copied_old a ha := hr.old a ha
  copied_new _ y hy := hr.onGlstack hy.1 hy.2.2
  intern_new _ y hy := by
    obtain ⟨hy, -, hlim⟩ := hy
    have := hr.low
    have := hr.high
    show g.isinternstr (.list y) = false ∧ g.isinternstr (.cs y) = false
    have hin : (decide (y < g.low) || decide (g.high < y)) = false := by
      rw [Bool.or_eq_false_iff]
      exact ⟨decide_eq_false (by omega), decide_eq_false (by omega)⟩
    simp only [Glstack.isinternstr, hin, Bool.false_and, and_self]
  leftover_old _ a ha := hr.old a ha
  leftover_new _ _ d _ hd _ _ := hr.onGlstack hd.1 hd.2.2
  aliasOk_cost v hv := by
    refine ⟨?_, fun _ => hv⟩
    rw [heapSetup_cost]
    cases v with
    | float x => cases hv
    | _ => rfl
  shared_new _ y hy := hr.onGlstack hy.1 hy.2.2
  shared_other q hq := by
    cases q with
    | list a => cases hq
    | _ => rfl
  enter_argument mem' c' v hv hattv := by
    refine ⟨c', rfl, ?_⟩
    have hv : deref mem' len c' = some v := hv
    show (findallCopyToHeap g len).enter mem' c' = some v
    cases c' with
    | ref a => exact hv
    | attv a =>
      have hisattv : v.isattv = true := by
        rcases hattv rfl with hisattv | ⟨b, hb, hne⟩
        · exact hisattv
        · exact absurd (h.attv b hb).2.1 hne
      show (deref mem' len (.attv a)).filter Cell.isattv = some v
      rw [hv, Option.filter_some, if_pos hisattv]
    | _ =>
      obtain ⟨len, rfl⟩ := Nat.exists_eq_add_of_le' hlen
      exact hv
  enter_end mem' v hv := by
    obtain ⟨len, rfl⟩ := Nat.exists_eq_add_of_le' hlen
    cases v with
    | ref a => exact if_pos (hv a (.inl rfl))
    | attv a =>
      show (deref mem' (len + 1) (.attv a)).filter Cell.isattv = some _
      rw [deref, if_pos (hv a (.inr rfl))]
      rfl
    | _ => rfl
  attr _ _ _ hv := hv
  allocPair _ hgood hlimit := heapSetup_alloc hr hgood hlimit
  allocStruct _ _ hgood _ hlimit := heapSetup_alloc hr hgood hlimit
  box _ := ⟨rfl, fun _ hgood hlimit => ⟨_, _, rfl, heapSetup_alloc hr hgood hlimit⟩⟩
  noBox hb := by cases hb

theorem heapSetup_graph (hlen : 2 ≤ len) (htop : top ∈ old) :
    (heapSetup g hreg len lim dest old h hold).Graph where
  ref a ha := by
    obtain ⟨hown, hfree⟩ := h.ref a ha
    refine ⟨?_, fun hne => absurd hfree hne⟩
    rcases hown with rfl | hown
    · exact htop
    · exact hold a hown
  attv a ha := by
    obtain ⟨⟨hown, -⟩, hfree, -⟩ := h.attv a ha
    exact ⟨hold a hown, fun hne => absurd hfree hne⟩
  free a ha hfree := by
    obtain ⟨⟨-, hown⟩, -, hne⟩ := h.attv a ha
    have hattr : Reaches g.isinternstr mem c (mem (a + 1)) := .attr ha hfree
    refine ⟨hold _ hown, hattr, (h.finite_blocks hold).mem_toFinset.mpr ⟨ha, rfl⟩, ?_⟩
    exact fun hend => hne (hend.unique ⟨1, h.ends hattr⟩).symm
  list a ha hint := by
    obtain ⟨hown, hown'⟩ := h.list a ha hint
    have hhead : Reaches g.isinternstr mem c (mem a) := .head ha hint
    refine ⟨⟨hold a hown, hold _ hown'⟩, ⟨hhead, .tail ha hint⟩,
      (h.finite_blocks hold).mem_toFinset.mpr ⟨ha, congrArg (!·) hint⟩, ?_⟩
    dsimp only [heapSetup]
    cases hm : mem a with
    | list p =>
      by_cases hint' : g.isinternstr (.list p) = true
      · have hout : (decide (p < g.low) || decide (g.high < p)) = true :=
          (Bool.and_eq_true_iff.mp hint').1
        rw [Bool.or_eq_true, decide_eq_true_eq, decide_eq_true_eq] at hout
        show g.onGlstack p = false
        unfold Glstack.onGlstack
        have hnot : ¬g.low ≤ p ∨ ¬p < g.high := by omega
        rcases hnot with hnot | hnot <;> simp [hnot]
      · rw [Bool.not_eq_true] at hint'
        rw [hm] at hhead
        exact hr.old p (hold p (h.list p hhead hint').1)
    | _ => rfl
  cs a ha hint := by
    obtain ⟨psc, hpsc, har, hcells⟩ := h.cs a ha hint
    refine ⟨hold a (hcells 0 (by omega)),
      (h.finite_blocks hold).mem_toFinset.mpr ⟨ha, congrArg (!·) hint⟩, psc, hpsc, har, ?_⟩
    intro j hj
    have hcell := hcells (j + 1) (by omega)
    rw [← Nat.add_assoc, Nat.add_right_comm] at hcell
    exact ⟨hold _ hcell, .arg ha hint hpsc hj⟩
  functor psc hu := h.functor psc hu
  ends u hu := ⟨u, deref_mono (h.ends hu) (Nat.le_sub_one_of_lt hlen)⟩
  separate a ha ha' := absurd ha' (h.separate a ha)
  blocks a ha := by
    have := ((h.finite_blocks hold).mem_toFinset.mp ha).2
    cases this

end

/-- The head of a list is read elsewhere only if it is a free variable. -/
theorem heapSetup_safe : (heapSetup g hreg len lim dest old h hold).Safe
    ((heapSetup g hreg len lim dest old h hold).scan (fun _ => none) [] c) := by
  refine Scan.safe_of_reaches ⟨1, h.ends .refl⟩ fun a u hread ha hint hu => ?_
  have hfree : mem a = .ref a := by
    rcases hread with hr | hr | hl
    · exact (h.ref a hr).2
    · exact (h.attv a hr).2.1
    · exact absurd hl (h.apart a ha hint)
  have hu : EndsAt mem (mem a) u := hu
  rw [hfree] at hu
  cases hu.unique ⟨1, if_pos hfree⟩
  rfl

/-- What is closed is copied to the heap, in no more cells than it weighs. -/
theorem copy_to_heap (h : Closed g.isinternstr mem c top maxArity P)
    (hold : ∀ y, P y → y ∈ old) (hr : HeapRoom g hreg lim dest old) (hlen : 2 ≤ len)
    (htop : top ∈ old)
    (hlim : hreg + (∑ u ∈ (h.finite_blocks hold).toFinset, copyWeight mem u + boxCost c) ≤ lim) :
    ∃ N, ∀ n ≥ N, ∃ s ρ, copyCell (findallCopyToHeap g len) n c dest
        ⟨mem, ⟨hreg, 0, 0⟩, []⟩ = some s ∧
      (heapSetup g hreg len lim dest old h hold).Copied ⟨mem, ⟨hreg, 0, 0⟩, []⟩ (fun _ => none)
        dest c s ρ ∧ hreg ≤ s.space.h ∧ s.space.h ≤ lim := by
  have hσ : (heapSetup g hreg len lim dest old h hold).Sound := heapSetup_sound hr (by omega)
  have hg : (heapSetup g hreg len lim dest old h hold).Graph := heapSetup_graph hr hlen htop
  have hrest : (heapSetup g hreg len lim dest old h hold).rest (fun _ => none) =
      ∑ u ∈ (h.finite_blocks hold).toFinset, copyWeight mem u := by
    unfold Setup.rest
    rw [Finset.filter_true_of_mem fun _ _ => rfl]
    refine Finset.sum_congr rfl fun u hu => ?_
    obtain ⟨hur, hub⟩ := (h.finite_blocks hold).mem_toFinset.mp hu
    exact heapSetup_weight (by omega) hur hub
  have henter : (heapSetup g hreg len lim dest old h hold).K.enter mem c = some c :=
    hσ.enter_end mem c fun a ha => by
      rcases ha with rfl | rfl
      · exact (h.ref a .refl).2
      · exact (h.attv a .refl).2.1
  have hlimit : (heapSetup g hreg len lim dest old h hold).used ⟨hreg, 0, 0⟩ +
      ((heapSetup g hreg len lim dest old h hold).rest (fun _ => none) +
        (heapSetup g hreg len lim dest old h hold).cost c) ≤ lim := by
    rw [hrest, heapSetup_cost]
    exact hlim
  refine ⟨(heapSetup g hreg len lim dest old h hold).rest (fun _ => none) + 1, fun n hn => ?_⟩
  obtain ⟨s, ρ, hrun, hcopied⟩ := Setup.copyCell_first (n := n) (c := c) (v := c)
    (s := ⟨mem, ⟨hreg, 0, 0⟩, []⟩) hg hσ (fun _ _ => rfl) rfl (Nat.le_refl hreg)
    ⟨c, .refl, 1, h.ends .refl⟩ henter (fun _ => hr.stack) hlimit hn heapSetup_safe
  refine ⟨s, ρ, hrun, hcopied, hcopied.inv.good, ?_⟩
  have hsum := hcopied.step.sum
  have hused : (heapSetup g hreg len lim dest old h hold).used s.space = s.space.h := rfl
  exact (hused.symm.trans_le (Nat.le_add_right _ _)).trans (hsum.trans_le (by
    rw [Nat.add_assoc]
    exact hlimit))

end Setting

end XSBEngine.Copying
