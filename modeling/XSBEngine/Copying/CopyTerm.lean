import XSBEngine.Copying.TermSize

/-!
# Copying a term on the heap

`copy_term`, `XSB/emu/findall.c:1421–1453`, up to the unification of the copy with the second
argument.
-/

namespace XSBEngine.Copying

open XSBEngine.Heap

/-- What `copy_term` has built. -/
structure TermCopy where
  result : Cell
  mem : Nat → Cell
  hreg : Nat
  size : Nat

/-- Before a term is counted or copied. -/
def startCopy (hreg : Nat) (mem : Nat → Cell) : CopyState := ⟨mem, ⟨hreg, 0, 0⟩, []⟩

/-- `copy_term`, without the last unification. A free variable is not copied. The local variable
`to` is the cell 0. -/
def copyTerm (g : Glstack) (hreg len n : Nat) (arg : Cell) (mem : Nat → Cell) :
    Option (Option TermCopy) :=
  (deref mem len arg).bind fun arg1 =>
    if arg1.isref then some none
    else
      (termSize hreg len n arg1 (startCopy hreg mem)).bind fun (size, s) =>
        let mem := untrail s.trail s.mem
        (copyCell (doCopyTerm g hreg len) n arg1 0 (startCopy hreg mem)).map fun s =>
          some ⟨s.mem 0, untrail s.trail s.mem, s.space.h, size⟩

/-! ### The setting -/

variable {g : Glstack} {hreg len n k a x y : Nat} {mem : Nat → Cell} {arg c u v : Cell}

/-- What `do_copy_term` copies. -/
noncomputable def copySetup (len : Nat) (h : HeapTerm g hreg mem arg) : Setup where
  K := doCopyTerm g hreg len
  src := mem
  old := Finset.Ico g.low hreg
  words := {c | Reaches g.isinternstr mem arg c}
  blocks := h.finite_blocks.toFinset
  len := len
  maxAr := hreg
  top := 0
  Good sp := hreg ≤ sp.h
  Owned sp y := hreg ≤ y ∧ y < sp.h ∧ y < g.high
  used sp := sp.h
  limit := g.high
  boxed := false
  AliasOk _ := True

section

variable (h : HeapTerm g hreg mem arg)
include h

theorem copySetup_cost : (copySetup len h).cost v = 0 := by
  cases v with
  | float x | _ => rfl

theorem copySetup_cellCost : (copySetup len h).cellCost x = 0 := by
  unfold Setup.cellCost
  split
  · exact copySetup_cost h
  · rfl

theorem copySetup_weight :
    (copySetup len h).weight v = blockSize mem v := by
  cases v with
  | list a | attv a => simp only [Setup.weight, copySetup_cellCost, blockSize]
  | cs a =>
    simp only [Setup.weight, copySetup_cellCost, Finset.sum_const_zero, blockSize]
    rfl
  | _ => rfl

theorem copySetup_alloc (hlow : 0 < g.low) (hle : g.low ≤ hreg)
    {sp : Space} {n : Nat} (hgood : hreg ≤ sp.h) (hlimit : sp.h + n ≤ g.high) :
    (copySetup len h).Alloc n sp sp.h { sp with h := sp.h + n } where
  fresh j hj := by
    show ¬(hreg ≤ sp.h + j ∧ sp.h + j < sp.h ∧ sp.h + j < g.high) ∧ sp.h + j ≠ 0
    omega
  owned y hy := by
    have hy : (hreg ≤ y ∧ y < sp.h ∧ y < g.high) ∨ sp.h ≤ y ∧ y < sp.h + n := hy
    show hreg ≤ y ∧ y < sp.h + n ∧ y < g.high
    omega
  top hy := by
    have hy : hreg ≤ 0 := hy.1
    omega
  used := rfl
  good := by
    show hreg ≤ sp.h + n
    omega

theorem copySetup_sound (hlow : 0 < g.low) (hle : g.low ≤ hreg) :
    (copySetup len h).Sound where
  not_old sp y hy hold := by
    have := (Finset.mem_Ico.mp hold).2
    have := hy.1
    omega
  top_old hold := by
    have := (Finset.mem_Ico.mp hold).1
    have htop : (copySetup len h).top = 0 := rfl
    omega
  copied_old a ha := decide_eq_false (Nat.not_le.mpr (Finset.mem_Ico.mp ha).2)
  copied_new sp y hy := decide_eq_true hy.1
  intern_new sp y hy := by
    obtain ⟨hy, -, hhigh⟩ := hy
    show g.isinternstr (.list y) = false ∧ g.isinternstr (.cs y) = false
    have hin : (decide (y < g.low) || decide (g.high < y)) = false := by
      rw [Bool.or_eq_false_iff]
      exact ⟨decide_eq_false (by omega), decide_eq_false (by omega)⟩
    simp only [Glstack.isinternstr, hin, Bool.false_and, and_self]
  leftover_old _ a ha := decide_eq_false (Nat.not_le.mpr (Finset.mem_Ico.mp ha).2)
  leftover_new _ _ d _ hd _ _ := decide_eq_true hd.1
  aliasOk_cost v _ := ⟨copySetup_cost h, fun hb => by cases hb⟩
  shared_new _ y hy := decide_eq_true hy.1
  shared_other q hq := by
    cases q with
    | list a => cases hq
    | _ => rfl
  enter_argument _ _ v hv _ := ⟨v, hv, rfl⟩
  enter_end _ _ _ := rfl
  attr _ _ _ hv := hv
  allocPair _ hgood hlimit := copySetup_alloc h hlow hle hgood hlimit
  allocStruct _ _ hgood _ hlimit := copySetup_alloc h hlow hle hgood hlimit
  box hb := by cases hb
  noBox _ _ := ⟨rfl, fun hgood => hgood, rfl, fun _ => Iff.rfl⟩

end

theorem Attribute.ne_own {intern : Cell → Bool} (h : Attribute intern mem a) :
    mem (a + 1) ≠ .attv a := by
  induction h with
  | word hnv =>
    intro he
    rw [he] at hnv
    cases hnv
  | ref hb =>
    rw [hb]
    exact Cell.noConfusion
  | attv hb _ _ ih =>
    intro he
    cases hb.symm.trans he
    exact ih hb

/-- An attributed variable is not its own attribute. -/
theorem Attribute.not_own {intern : Cell → Bool} (h : Attribute intern mem a) :
    ¬EndsAt mem (mem (a + 1)) (.attv a) := by
  intro hend
  have hne := h.ne_own
  cases h with
  | word hnv => exact hne (hend.unique ⟨1, deref_other hnv 0⟩).symm
  | ref hb hv hblock =>
    rw [hb] at hend
    cases hend.unique hv
    cases hblock
  | @attv _ b hb hfree _ =>
    rw [hb] at hend hne
    exact hne (hend.unique ⟨1, if_pos hfree⟩).symm

theorem copySetup_graph (h : HeapTerm g hreg mem arg)
    (hheads : ∀ a p, Reaches g.isinternstr mem arg (.list a) → g.isinternstr (.list a) = false →
      mem a = .list p → g.isinternstr (.list p) = true → p < hreg)
    (hattr : ∀ a, Reaches g.isinternstr mem arg (.attv a) → mem a = .ref a →
      Attribute g.isinternstr mem a)
    (hlen : ∀ c, Reaches g.isinternstr mem arg c → ∃ v, deref mem (len - 1) c = some v) :
    (copySetup len h).Graph := by
  refine h.graph rfl rfl (fun _ => Iff.rfl) rfl ?_ (fun a hr hfree => (hattr a hr hfree).not_own) ?_
    hlen
  · intro a hr hint
    dsimp only [copySetup]
    cases hm : mem a with
    | list p =>
      have hp : p < hreg := by
        by_cases hint' : g.isinternstr (.list p) = true
        · exact hheads a p hr hint hm hint'
        · rw [Bool.not_eq_true] at hint'
          have := h.list p (hm ▸ .head hr hint) hint'
          omega
      exact decide_eq_false (Nat.not_le.mpr hp)
    | _ => rfl
  · intro a psc hr hint hpsc
    obtain ⟨hlow, psc', hpsc', hlt⟩ := h.cs a hr hint
    cases hpsc.symm.trans hpsc'
    show psc.arity ≤ hreg
    omega

/-! ### The copy -/

/-- The copy has the variables that `f` gives, in new cells, no more than have been counted, and
nothing else has changed. -/
structure Copies (g : Glstack) (hreg : Nat) (mem : Nat → Cell) (arg : Cell) (C : TermCopy)
    (f : Nat → Nat) : Prop where
  variant : Variant g.isinternstr mem arg C.mem C.result f
  new : ∀ a, Occurs g.isinternstr mem arg a → hreg ≤ f a ∧ f a < C.hreg
  size : C.hreg ≤ hreg + C.size
  unchanged : ∀ y, y ≠ 0 → y < hreg ∨ C.hreg < y → C.mem y = mem y

/-- The word that is not a reference is not copied to one. -/
theorem Setup.Image.not_ref {σ : Setup} {ρ : Cell → Option Cell} {P : Nat → Prop}
    {s : CopyState} {w : Cell} (h : ∀ v w, ρ v = some w → σ.Pair s v w)
    (hi : σ.Image s.mem ρ P v w) (hv : v.isref = false) : w.isref = false := by
  cases hi with
  | plain _ hplain =>
    by_cases hl : σ.leaf v = true
    · rw [Setup.Plain, if_pos hl] at hplain
      rw [hplain]
      exact hv
    · rw [Setup.Plain, if_neg hl] at hplain
      cases h _ _ hplain with
      | ref => cases hv
      | _ => rfl
  | box => rfl

/-- `do_copy_term` after `term_size`. -/
theorem doCopyTerm_copies (h : HeapTerm g hreg mem arg) (hlow : 0 < g.low) (hle : g.low ≤ hreg)
    (hg : (copySetup len h).Graph) (hv : EndsAt mem arg v) (href : v.isref = false)
    {mem1 : Nat → Cell} (hmem : ∀ y ≠ hreg, mem1 y = mem y) {size : Nat}
    (hsize : ∑ u ∈ h.finite_blocks.toFinset, blockSize mem u ≤ size)
    (hroom : hreg + size ≤ g.high) (hn : size < n) :
    ∃ s f, copyCell (doCopyTerm g hreg len) n v 0 (startCopy hreg mem1) = some s ∧
      Copies g hreg mem arg ⟨s.mem 0, untrail s.trail s.mem, s.space.h, size⟩ f := by
  have hσ : (copySetup len h).Sound := copySetup_sound h hlow hle
  have hrest : (copySetup len h).rest (fun _ => none) ≤ size := by
    refine le_trans (le_of_eq ?_) hsize
    unfold Setup.rest
    rw [Finset.filter_true_of_mem fun _ _ => rfl]
    exact Finset.sum_congr rfl fun u _ => copySetup_weight h
  have hold : ∀ a ∈ (copySetup len h).old, mem1 a = mem a := by
    intro a ha
    exact hmem a (Finset.mem_Ico.mp ha).2.ne
  obtain ⟨s, ρ, hrun, hcopied⟩ := Setup.copyCell_first (n := n) (c := v) (v := v)
    (s := startCopy hreg mem1) hg hσ hold rfl le_rfl ⟨arg, .refl, hv⟩ rfl
    (fun hr => by rw [href] at hr; cases hr) (by
      rw [copySetup_cost h]
      show hreg + _ ≤ g.high
      omega) (by omega) fun _ _ _ _ _ _ _ _ _ => trivial
  refine ⟨s, Setup.place ρ, hrun, ?_⟩
  have huntrail : ∀ y ∉ (copySetup len h).old, untrail s.trail s.mem y = s.mem y := fun y hy =>
    Setup.untrail_other fun p hp he => hy (he ▸ hcopied.inv.trail p hp)
  have hnew : ∀ y, y = 0 ∨ (copySetup len h).Owned s.space y →
      untrail s.trail s.mem y = s.mem y := by
    intro y hy
    refine huntrail y ?_
    rcases hy with rfl | hy
    · exact hσ.top_old
    · exact hσ.not_old _ _ hy
  let s' : CopyState := { s with mem := untrail s.trail s.mem }
  have hcomplete : (copySetup len h).Complete s' ρ
      ((copySetup len h).Fresh (startCopy hreg mem1) s) := hcopied.complete.congr rfl hnew
  have himage : (copySetup len h).Image (untrail s.trail s.mem) ρ
      ((copySetup len h).Fresh (startCopy hreg mem1) s) v (s.mem 0) :=
    hcopied.image.mono (fun _ _ hu => hu) fun y hy => ⟨hy, hnew y (.inr hy.1)⟩
  constructor
  case variant => exact hcomplete.variant hg hσ .refl hv himage
  case new =>
    intro a ha
    rcases hcomplete.place_owned hg hσ .refl hv himage ha with htop | hown
    · exfalso
      obtain ⟨u, w, hρ, -, -, hw⟩ := hcomplete.occurs hg hσ .refl hv himage ha
      have hresult := himage.not_ref hcomplete.pairs href
      rw [htop] at hw
      have hzero : ∀ sp, ¬(copySetup len h).Owned sp 0 := by
        rintro sp ⟨hge, -⟩
        omega
      cases hcomplete.pairs _ _ hρ with
      | @ref _ d _ _ _ _ hcell =>
        have hd : d = 0 := hw
        rw [hd] at hcell
        have hcell : s.mem 0 = .ref 0 := (hnew 0 (.inl rfl)).symm.trans hcell
        rw [hcell] at hresult
        cases hresult
      | @attv _ d _ _ hown _ | @list _ d _ _ hown | @cs _ d _ _ hown =>
        have hd : d = 0 := hw
        exact hzero _ (hd ▸ hown)
    · exact ⟨hown.1, hown.2.1⟩
  case size =>
    have hsum := hcopied.step.sum
    rw [copySetup_cost h] at hsum
    have hstart : (copySetup len h).used (startCopy hreg mem1).space = hreg := rfl
    have hused : (copySetup len h).used s.space = s.space.h := rfl
    show s.space.h ≤ hreg + size
    omega
  case unchanged =>
    intro y hy hout
    have hgood : hreg ≤ s.space.h := hcopied.inv.good
    have hne : y ≠ hreg := by
      rintro rfl
      rcases hout with hout | hout
      · exact Nat.lt_irrefl _ hout
      · exact Nat.not_lt.mpr hgood hout
    by_cases hyo : y ∈ (copySetup len h).old
    · exact hcopied.inv.undo rfl y hyo
    · show untrail s.trail s.mem y = mem y
      rw [huntrail y hyo, hcopied.step.frame y hyo hy, ← hmem y hne]
      · rfl
      · rintro ⟨⟨hge, hlt, -⟩, -⟩
        have hout : y < hreg ∨ s.space.h < y := hout
        omega

/-- `copy_term` gives a copy, or nothing for a free variable, if there is room on the heap for the
cells that `term_size` counts. -/
def CopiesTerm (g : Glstack) (hreg : Nat) (mem : Nat → Cell) (arg : Cell) : Prop :=
  ∃ L, ∀ len ≥ L, ∃ N, ∀ n ≥ N,
    (∃ a, EndsAt mem arg (.ref a)) ∧ copyTerm g hreg len n arg mem = some none ∨
    ∃ v size s, EndsAt mem arg v ∧ v.isref = false ∧
      termSize hreg len n v (startCopy hreg mem) = some (size, s) ∧
      (hreg + size ≤ g.high → ∃ C f, copyTerm g hreg len n arg mem = some (some C) ∧
        C.size = size ∧ Copies g hreg mem arg C f)

/-- `copy_term` copies terms whose lists have no interned lists above the top of the heap for heads,
and whose attributes are counted whole. -/
theorem copyTerm_copies (h : HeapTerm g hreg mem arg) (hlow : 0 < g.low) (hle : g.low ≤ hreg)
    (hhigh : hreg ≤ g.high)
    (hheads : ∀ a p, Reaches g.isinternstr mem arg (.list a) → g.isinternstr (.list a) = false →
      mem a = .list p → g.isinternstr (.list p) = true → p < hreg)
    (hattr : ∀ a, Reaches g.isinternstr mem arg (.attv a) → mem a = .ref a →
      Attribute g.isinternstr mem a) :
    CopiesTerm g hreg mem arg := by
  obtain ⟨L, hL⟩ := h.bound
  obtain ⟨v, hv⟩ := h.ends .refl
  refine ⟨L + 1, fun len hlen => ?_⟩
  obtain ⟨len, rfl⟩ := Nat.exists_eq_add_of_le' (Nat.one_le_of_lt hlen)
  have hbound := hL len (Nat.le_of_succ_le_succ hlen)
  have hderef : deref mem (len + 1) arg = some v := by
    obtain ⟨u, hu⟩ := hbound arg .refl
    cases hv.unique ⟨len, hu⟩
    exact deref_mono hu (Nat.le_succ len)
  cases href : v.isref with
  | true =>
    refine ⟨0, fun n _ => .inl ⟨?_, ?_⟩⟩
    · cases v with
      | ref a => exact ⟨a, hv⟩
      | _ => cases href
    · rw [copyTerm, hderef, Option.bind_some, if_pos href]
  | false =>
    obtain ⟨N, size, s₁, hcount, hundo, hsize⟩ :=
      termSize_spec (s := startCopy hreg mem) h hle hhigh hattr hbound rfl rfl hv
    have hg : (copySetup (len + 1) h).Graph := copySetup_graph h hheads hattr hbound
    refine ⟨N + size + 1, fun n hn => .inr ⟨v, size, s₁, hv, href, hcount n (by omega), ?_⟩⟩
    intro hroom
    obtain ⟨s, f, hrun, hcopies⟩ := doCopyTerm_copies (n := n) h hlow hle hg hv href hundo
      (hsize _ fun u hu => h.finite_blocks.mem_toFinset.mp hu) hroom (by omega)
    refine ⟨_, f, ?_, rfl, hcopies⟩
    rw [copyTerm, hderef, Option.bind_some, if_neg (by rw [href]; exact Bool.false_ne_true),
      hcount n (by omega), Option.bind_some]
    simp only [hrun, Option.map_some]

/-- An attributed variable whose attribute is a list of a free variable and of itself. -/
def attributedHeap : Nat → Cell
  | 1 => .ref 1
  | 2 => .list 3
  | 3 => .ref 3
  | 4 => .attv 1
  | _ => .int 0

theorem attributedHeap_reaches (h : Reaches smallGlstack.isinternstr attributedHeap (.attv 1) c) :
    c = .attv 1 ∨ c = .list 3 ∨ c = .ref 3 := by
  induction h with
  | refl => exact .inl rfl
  | ref _ hne ih => simp_all [attributedHeap]
  | bound _ hne ih => simp_all [attributedHeap]
  | attr _ _ ih | head _ _ ih | tail _ _ ih | arg _ _ _ _ ih => simp_all [attributedHeap]

theorem attributedHeap_term : HeapTerm smallGlstack 5 attributedHeap (.attv 1) where
  ref a ha := by
    rcases attributedHeap_reaches ha with h | h | h <;> cases h
    decide
  attv a ha := by
    rcases attributedHeap_reaches ha with h | h | h <;> cases h
    decide
  list a ha _ := by
    rcases attributedHeap_reaches ha with h | h | h <;> cases h
    decide
  cs a ha _ := by rcases attributedHeap_reaches ha with h | h | h <;> cases h
  separate a ha ha' := by
    rcases attributedHeap_reaches ha with h | h | h <;> cases h
    rcases attributedHeap_reaches ha' with h | h | h <;> cases h
  finite c hc := by
    rcases attributedHeap_reaches hc with rfl | rfl | rfl
    · exact ⟨1, _, rfl⟩
    · exact ⟨2, _, rfl⟩
    · exact ⟨1, _, rfl⟩
  record c hc hint := by
    rcases attributedHeap_reaches hc with rfl | rfl | rfl <;> cases hint

theorem copyTerm_copies_attributed : CopiesTerm smallGlstack 5 attributedHeap (.attv 1) := by
  refine copyTerm_copies attributedHeap_term (by decide) (by decide) (by decide) ?_ ?_
  · intro a p ha _ hp _
    rcases attributedHeap_reaches ha with h | h | h <;> cases h
    cases hp
  · intro a ha _
    rcases attributedHeap_reaches ha with h | h | h <;> cases h
    exact .word rfl

/-- A list whose head is an interned list above the heap. -/
def internedHeap : Nat → Cell
  | 1 => .list 30
  | 2 => .int 8
  | 30 => .int 7
  | _ => .int 0

theorem internedHeap_reaches (h : Reaches smallGlstack.isinternstr internedHeap (.list 1) c) :
    c = .list 1 ∨ c = .list 30 ∨ c = .int 8 := by
  induction h with
  | refl => exact .inl rfl
  | ref _ hne ih | bound _ hne ih | attr _ _ ih => simp_all
  | head _ hint ih =>
    rcases ih with h | h | h <;> cases h
    · exact .inr (.inl rfl)
    · cases hint
  | tail _ hint ih =>
    rcases ih with h | h | h <;> cases h
    · exact .inr (.inr rfl)
    · cases hint
  | arg _ _ _ _ ih => simp_all

theorem internedHeap_term : HeapTerm smallGlstack 5 internedHeap (.list 1) where
  ref a ha := by rcases internedHeap_reaches ha with h | h | h <;> cases h
  attv a ha := by rcases internedHeap_reaches ha with h | h | h <;> cases h
  list a ha hint := by
    rcases internedHeap_reaches ha with h | h | h <;> cases h
    · decide
    · cases hint
  cs a ha _ := by rcases internedHeap_reaches ha with h | h | h <;> cases h
  separate a ha _ := by rcases internedHeap_reaches ha with h | h | h <;> cases h
  finite c hc := by
    rcases internedHeap_reaches hc with rfl | rfl | rfl
    · exact ⟨2, _, rfl⟩
    · exact ⟨1, _, rfl⟩
    · exact ⟨1, _, rfl⟩
  record c hc hint := by
    rcases internedHeap_reaches hc with rfl | rfl | rfl
    · cases hint
    · exact .list (by decide) .int .int
    · cases hint

theorem interned_head_not_copied : ¬∀ g hreg mem arg, HeapTerm g hreg mem arg → 0 < g.low →
    g.low ≤ hreg → hreg ≤ g.high → CopiesTerm g hreg mem arg := by
  intro hclaim
  obtain ⟨L, hL⟩ := hclaim _ _ _ _ internedHeap_term (by decide) (by decide) (by decide)
  obtain ⟨N, hN⟩ := hL (L + 1) (Nat.le_succ L)
  have hrun : ∃ s, termSize 5 (L + 1) (N + 3) (.list 1) (startCopy 5 internedHeap) = some (4, s) :=
    ⟨_, rfl⟩
  have hcopy : ∃ C, copyTerm smallGlstack 5 (L + 1) (N + 3) (.list 1) internedHeap =
      some (some C) ∧ C.result = .list 30 := ⟨_, rfl, rfl⟩
  obtain ⟨s, hrun⟩ := hrun
  obtain ⟨C, hcopy, hresult⟩ := hcopy
  rcases hN (N + 3) (by omega) with ⟨⟨a, ha⟩, -⟩ | ⟨v, size, s', hv, -, hsize, hcopies⟩
  · cases ha.unique ⟨1, rfl⟩
  · cases hv.unique ⟨1, rfl⟩
    cases hrun.symm.trans hsize
    obtain ⟨C', f, hcopy', -, hcopies⟩ := hcopies (by decide)
    cases hcopy.symm.trans hcopy'
    have hterm := hcopies.variant.term 2 _ rfl
    rw [hresult] at hterm
    cases hterm

end XSBEngine.Copying
