import XSBEngine.Copying.Closed

/-!
# Solution lists

`findall_init`, `findall_add` and `findall_get_solutions`, `XSB/emu/findall.c:128–219, 699–787`. The
solutions of a list are copied to its chunks, which are linked, and later from there to the heap.
-/

namespace XSBEngine.Copying

open Function XSBEngine.Heap

/-- `findall_solution_list`, with the memory. The current chunk is given by its number. -/
structure SolutionList where
  mem : Nat → Cell
  termptr : Nat
  tail : Nat
  topOfChunk : Nat
  currentChunk : Nat
  size : Nat

/-- `findall_init_c`, for the list whose chunks are at `chunkAt`. -/
def findallInit (chunkAt : Nat → Nat) (mem : Nat → Cell) : SolutionList :=
  let w := chunkAt 0 + 1
  ⟨update mem w (.ref w), w, w, w + 1, 0, 1⟩

/-- The cells for the next element of the list. -/
def elementSpace (chunkAt : Nat → Nat) (p : SolutionList) : Space :=
  let sp : Space := ⟨p.topOfChunk, p.currentChunk, 0⟩
  if chunkAt p.currentChunk + findallChunckSize - 1 < p.topOfChunk + 2 then getMoreChunk chunkAt sp
  else sp

/-- `findall_add`, whose third argument is a free variable. -/
def findallAdd (g : Glstack) (chunkAt : Nat → Nat) (len n : Nat) (arg1 : Cell)
    (p : SolutionList) : Option SolutionList :=
  (deref p.mem len arg1).bind fun arg1 =>
    let sp := elementSpace chunkAt p
    let dest := sp.h
    (copyCell (findallCopyTemplateToChunk g chunkAt len) n arg1 dest
        ⟨p.mem, { sp with h := dest + 2 }, []⟩).bind fun s =>
      let mem := update (untrail s.trail s.mem) (dest + 1) (.ref (dest + 1))
      match mem p.tail with
      | .ref a =>
        some ⟨update mem a (.list dest), p.termptr, dest + 1, s.space.h, s.space.chunk,
          p.size + (s.space.size + 2)⟩
      | _ => none

/-- What `findall_get_solutions` leaves: the memory and the top of the heap. -/
structure SolutionCopy where
  mem : Nat → Cell
  hreg : Nat

/-- `findall_get_solutions`, where the first two arguments are the free variables at `arg1` and
`arg2`. -/
def findallGetSolutions (g : Glstack) (hreg len n arg1 arg2 : Nat) (p : SolutionList) :
    Option SolutionCopy :=
  (copyCell (findallCopyToHeap g len) n (p.mem p.termptr) arg1
    ⟨p.mem, ⟨hreg, 0, 0⟩, []⟩).map fun s =>
      ⟨update s.mem arg2 (s.mem p.tail), s.space.h⟩

/-! ### Chunks -/

/-- The chunks are apart from each other, from the stacks and from the records of interned terms. -/
structure Chunks (g : Glstack) (chunkAt : Nat → Nat) : Prop where
  apart : ∀ j k, j ≠ k → chunkAt j + findallChunckSize ≤ chunkAt k ∨
    chunkAt k + findallChunckSize ≤ chunkAt j
  outside : ∀ k, chunkAt k + findallChunckSize ≤ g.low ∨ g.high ≤ chunkAt k
  notInterned : ∀ k y, chunkAt k ≤ y → y < chunkAt k + findallChunckSize →
    g.isInternedRec (.list y) = false ∧ g.isInternedRec (.cs y) = false

/-- A cell of the chunk `k`. -/
def InChunk (chunkAt : Nat → Nat) (k y : Nat) : Prop :=
  chunkAt k ≤ y ∧ y < chunkAt k + findallChunckSize

/-- The cells that have been taken from `start` in chunk `j` on. -/
def TakenFrom (chunkAt : Nat → Nat) (j start : Nat) (sp : Space) (y : Nat) : Prop :=
  ∃ k, InChunk chunkAt k y ∧ j ≤ k ∧ k ≤ sp.chunk ∧ (k = j → start ≤ y) ∧ (k = sp.chunk → y < sp.h)

/-- A template on the heap. Arities are bounded. -/
structure Template (g : Glstack) (hreg : Nat) (mem : Nat → Cell) (arg : Cell) : Prop
    extends HeapTerm g hreg mem arg where
  arity : ∀ a psc, Reaches g.isinternstr mem arg (.cs a) → mem a = .functor psc →
    psc.arity ≤ maxArity

/-- The head cell of a list that is read again after the list has been entered, through a reference
or as a later cell of a block, does not hold an interned term or a floating-point number; and no
variable is its own attribute. -/
structure Copyable (g : Glstack) (mem : Nat → Cell) (arg : Cell) : Prop where
  heads : ∀ v, EndsAt mem arg v → Scan.Safe g.isinternstr mem
    (fun u => g.isinternstr u = false ∧ u.isfloat = false)
    (Scan.enter g.isinternstr mem ⟨fun _ => false, []⟩ v)
  attrs : ∀ a, Reaches g.isinternstr mem arg (.attv a) → mem a = .ref a →
    ¬EndsAt mem (mem (a + 1)) (.attv a)

variable {g : Glstack} {chunkAt : Nat → Nat} {hreg len n j k start top lim x y : Nat}
  {mem : Nat → Cell} {arg c u v w : Cell} {sp : Space}

theorem InChunk.unique (hc : Chunks g chunkAt) (h : InChunk chunkAt k y)
    (h' : InChunk chunkAt j y) : k = j := by
  by_contra hne
  obtain ⟨hle, hlt⟩ := h
  obtain ⟨hle', hlt'⟩ := h'
  rcases hc.apart k j hne with h | h <;> omega

theorem onGlstack_of_lt (hlow : g.low ≤ y) (hy : y < g.high) : g.onGlstack y = true := by
  rw [Glstack.onGlstack, decide_eq_true hlow, decide_eq_true hy, Bool.and_self]

theorem InChunk.not_glstack (hc : Chunks g chunkAt) (h : InChunk chunkAt k y) :
    g.onGlstack y = false := by
  obtain ⟨hle, hlt⟩ := h
  unfold Glstack.onGlstack
  rcases hc.outside k with h | h
  · have hlow : ¬g.low ≤ y ∨ ¬y < g.high := by omega
    rcases hlow with h | h <;> simp [h]
  · have hhigh : ¬y < g.high := by omega
    simp [hhigh]

theorem InChunk.not_interned (hc : Chunks g chunkAt) (h : InChunk chunkAt k y) :
    g.isinternstr (.list y) = false ∧ g.isinternstr (.cs y) = false := by
  obtain ⟨hlist, hcs⟩ := hc.notInterned k y h.1 h.2
  simp only [Glstack.isinternstr, hlist, hcs, Bool.and_false, and_self]

/-! ### The copy of a template -/

/-- What `findall_copy_template_to_chunk` copies, to the cells from `start` in chunk `j` on. -/
noncomputable def chunkSetup (chunkAt : Nat → Nat) (len j start top lim : Nat)
    (h : HeapTerm g hreg mem arg) : Setup where
  K := findallCopyTemplateToChunk g chunkAt len
  src := mem
  old := Finset.Ico g.low hreg
  words := {c | Reaches g.isinternstr mem arg c}
  blocks := h.finite_blocks.toFinset
  len := len
  maxAr := maxArity
  top := top
  Good sp := (chunkAt sp.chunk < sp.h ∧ sp.h ≤ chunkAt sp.chunk + findallChunckSize) ∧
    j ≤ sp.chunk ∧ (sp.chunk = j → start ≤ sp.h)
  Owned sp y := TakenFrom chunkAt j start sp y
  used sp := sp.size
  limit := lim
  boxed := false
  AliasOk v := g.isinternstr v = false ∧ v.isfloat = false

/-- Cells at `d`, in the current chunk or in the next one. -/
theorem chunkSetup_alloc_at (hc : Chunks g chunkAt) (h : HeapTerm g hreg mem arg)
    (htop : InChunk chunkAt j top) (hstart : top < start) (sp1 : Space) {n : Nat}
    (hn : sp1.h + n ≤ chunkAt sp1.chunk + findallChunckSize) (hsize : sp1.size = sp.size)
    (hgood : (chunkSetup chunkAt len j start top lim h).Good sp1)
    (hnew : sp1 = sp ∨ sp1.chunk = sp.chunk + 1 ∧ j ≤ sp.chunk) :
    (chunkSetup chunkAt len j start top lim h).Alloc n sp sp1.h
      { sp1 with h := sp1.h + n, size := sp1.size + n } := by
  obtain ⟨⟨hlow, hhigh⟩, hj, hfirst⟩ := hgood
  have hin : ∀ i < n, InChunk chunkAt sp1.chunk (sp1.h + i) := fun i hi =>
    ⟨by omega, by omega⟩
  have htopNew : ∀ sp', ¬TakenFrom chunkAt j start sp' top := by
    rintro sp' ⟨k, hk, -, -, hfirst, -⟩
    have := hfirst (hk.unique hc htop)
    omega
  constructor
  case fresh =>
    intro i hi
    constructor
    · rintro ⟨k, hk, -, hle, -, hlast⟩
      have hke := hk.unique hc (hin i hi)
      rcases hnew with rfl | ⟨hnext, -⟩
      · have := hlast hke
        omega
      · omega
    · intro he
      have he : sp1.h + i = top := he
      have hke := (hin i hi).unique hc (he ▸ htop)
      rcases hnew with rfl | ⟨hnext, hle⟩
      · have := hfirst hke
        omega
      · omega
  case owned =>
    rintro y (⟨k, hk, hle, hchunk, hfirst', hlast⟩ | hy)
    · refine ⟨k, hk, hle, ?_, hfirst', fun he => ?_⟩
      · show k ≤ sp1.chunk
        rcases hnew with rfl | ⟨hnext, -⟩ <;> omega
      · have he : k = sp1.chunk := he
        show y < sp1.h + n
        rcases hnew with rfl | ⟨hnext, -⟩
        · have := hlast he
          omega
        · omega
    · refine ⟨sp1.chunk, ⟨by omega, by omega⟩, hj, le_rfl, fun he => ?_, fun _ => hy.2⟩
      have := hfirst he
      omega
  case top => exact fun hy => absurd hy (htopNew _)
  case used =>
    show sp1.size + n = sp.size + n
    rw [hsize]
  case good =>
    refine ⟨⟨?_, hn⟩, hj, fun he => ?_⟩
    · show chunkAt sp1.chunk < sp1.h + n
      omega
    · have := hfirst he
      show start ≤ sp1.h + n
      omega

theorem chunkSetup_alloc (hc : Chunks g chunkAt) (h : HeapTerm g hreg mem arg)
    (htop : InChunk chunkAt j top) (hstart : top < start) {limit n : Nat}
    (hlimit : limit + n ≤ chunkAt sp.chunk + findallChunckSize) (hn : n < findallChunckSize)
    (hgood : (chunkSetup chunkAt len j start top lim h).Good sp) :
    (chunkSetup chunkAt len j start top lim h).Alloc n sp (chunkAlloc chunkAt limit n sp).1
      (chunkAlloc chunkAt limit n sp).2 := by
  obtain ⟨hrange, hj, hfirst⟩ := hgood
  unfold chunkAlloc
  split
  next hfull =>
    refine chunkSetup_alloc_at hc h htop hstart (getMoreChunk chunkAt sp) ?_ rfl ?_
      (.inr ⟨rfl, hj⟩)
    · show chunkAt (sp.chunk + 1) + 1 + n ≤ chunkAt (sp.chunk + 1) + findallChunckSize
      omega
    · refine ⟨⟨Nat.lt_succ_self _, ?_⟩, Nat.le_succ_of_le hj, fun he => ?_⟩
      · show chunkAt (sp.chunk + 1) + 1 ≤ chunkAt (sp.chunk + 1) + findallChunckSize
        omega
      · have he : sp.chunk + 1 = j := he
        omega
  next hroom =>
    exact chunkSetup_alloc_at hc h htop hstart sp (by omega) rfl ⟨hrange, hj, hfirst⟩ (.inl rfl)

theorem chunkSetup_cost (h : HeapTerm g hreg mem arg) (hv : v.isfloat = false) :
    (chunkSetup chunkAt len j start top lim h).cost v = 0 := by
  cases v with
  | float x => cases hv
  | _ => rfl

/-- The tests of `findall_copy_template_to_chunk` tell the chunks from the stacks. -/
theorem chunkSetup_sound (hc : Chunks g chunkAt) (h : HeapTerm g hreg mem arg)
    (hhigh : hreg ≤ g.high) (htop : InChunk chunkAt j top) (hstart : top < start) :
    (chunkSetup chunkAt len j start top lim h).Sound where
  not_old sp y hy hold := by
    obtain ⟨k, hk, -⟩ := hy
    obtain ⟨hlow, hlt⟩ := Finset.mem_Ico.mp hold
    have hon := onGlstack_of_lt hlow (hlt.trans_le hhigh)
    rw [hk.not_glstack hc] at hon
    cases hon
  top_old hold := by
    obtain ⟨hlow, hlt⟩ := Finset.mem_Ico.mp hold
    have hon : g.onGlstack top = true := onGlstack_of_lt hlow (hlt.trans_le hhigh)
    rw [htop.not_glstack hc] at hon
    cases hon
  copied_old a ha := by
    obtain ⟨hlow, hlt⟩ := Finset.mem_Ico.mp ha
    show (!g.onGlstack a) = false
    rw [onGlstack_of_lt hlow (hlt.trans_le hhigh)]
    rfl
  copied_new _ y hy := by
    obtain ⟨k, hk, -⟩ := hy
    show (!g.onGlstack y) = true
    rw [hk.not_glstack hc]
    rfl
  intern_new _ y hy := by
    obtain ⟨k, hk, -⟩ := hy
    exact hk.not_interned hc
  leftover_old mem' a ha := by
    obtain ⟨hlow, hlt⟩ := Finset.mem_Ico.mp ha
    show (!g.onGlstack a && !g.isinternstr (mem' a)) = false
    rw [onGlstack_of_lt hlow (hlt.trans_le hhigh)]
    rfl
  leftover_new sp mem' d v hd hv hmem := by
    obtain ⟨k, hk, -⟩ := hd
    have hint : g.isinternstr (mem' d) = false := by
      rcases hmem with hmem | hvar | ⟨y, ⟨i, hi, -⟩, hmem | hmem⟩
      · rw [hmem]
        exact hv.1
      · cases hm : mem' d with
        | ref a | attv a => rfl
        | _ =>
          rw [hm] at hvar
          cases hvar
      · rw [hmem]
        exact (hi.not_interned hc).1
      · rw [hmem]
        exact (hi.not_interned hc).2
    show (!g.onGlstack d && !g.isinternstr (mem' d)) = true
    rw [hk.not_glstack hc, hint]
    rfl
  aliasOk_cost v hv := ⟨chunkSetup_cost h hv.2, fun _ => hv.2⟩
  shared_new _ y hy := by
    obtain ⟨k, hk, -⟩ := hy
    show (!g.isinternstr (.list y) && !g.onGlstack y) = true
    rw [(hk.not_interned hc).1, hk.not_glstack hc]
    rfl
  shared_other q hq := by
    cases q with
    | list a => cases hq
    | _ => rfl
  enter_argument _ _ v hv _ := ⟨v, hv, rfl⟩
  enter_end _ _ _ := rfl
  attr _ _ _ hv := hv
  allocPair sp hgood _ := by
    have hsize : findallChunckSize = 131070 := rfl
    exact chunkSetup_alloc hc h htop hstart (by omega) (by omega) hgood
  allocStruct sp ar hgood har _ := by
    have hsize : findallChunckSize = 131070 := rfl
    have har : ar ≤ 65535 := har
    exact chunkSetup_alloc hc h htop hstart (by omega) (by omega) hgood
  box hb := by cases hb
  noBox _ _ := ⟨rfl, fun hgood => hgood, rfl, fun _ => Iff.rfl⟩

theorem chunkSetup_graph (h : Template g hreg mem arg) (hhigh : hreg ≤ g.high)
    (hcopy : Copyable g mem arg)
    (hlen : ∀ c, Reaches g.isinternstr mem arg c → ∃ v, deref mem (len - 1) c = some v) :
    (chunkSetup chunkAt len j start top lim h.toHeapTerm).Graph := by
  refine h.graph rfl rfl (fun _ => Iff.rfl) rfl ?_ hcopy.attrs (fun a psc hr _ => h.arity a psc hr)
    hlen
  · intro a hr hint
    dsimp only [chunkSetup, findallCopyTemplateToChunk]
    cases hm : mem a with
    | list p =>
      by_cases hint' : g.isinternstr (.list p) = true
      · simp only [hint', Bool.not_true, Bool.false_and]
      · rw [Bool.not_eq_true] at hint'
        have := h.list p (hm ▸ .head hr hint) hint'
        have hon : g.onGlstack p = true := onGlstack_of_lt this.1 (by omega)
        simp only [hon, Bool.not_true, Bool.and_false]
    | _ => rfl

/-- A template has been copied to the cells from `start` in chunk `j` on, with its first word at
`top`. -/
structure ChunkCopy (g : Glstack) (chunkAt : Nat → Nat) (mem : Nat → Cell) (arg : Cell)
    (j top : Nat) (sp : Space) (mem' : Nat → Cell) (f : Nat → Nat) : Prop where
  variant : Variant g.isinternstr mem arg mem' (mem' top) f
  closed : Closed g.isinternstr mem' (mem' top) top maxArity (TakenFrom chunkAt j (top + 2) sp)
  size : ∀ T : Finset Cell, (∀ u ∈ T, Reaches g.isinternstr mem' (mem' top) u ∧
    isBlock g.isinternstr u = true) → ∑ u ∈ T, copyWeight mem' u + boxCost (mem' top) ≤ sp.size
  unchanged : ∀ y, y ≠ top → ¬TakenFrom chunkAt j (top + 2) sp y → mem' y = mem y
  good : (chunkAt sp.chunk < sp.h ∧ sp.h ≤ chunkAt sp.chunk + findallChunckSize) ∧
    j ≤ sp.chunk ∧ (sp.chunk = j → top + 2 ≤ sp.h)

theorem copyTemplate_chunk (hc : Chunks g chunkAt) (h : Template g hreg mem arg)
    (hhigh : hreg ≤ g.high) (hcopy : Copyable g mem arg)
    (hlen : ∀ c, Reaches g.isinternstr mem arg c → ∃ v, deref mem (len - 1) c = some v)
    (hv : EndsAt mem arg v) (htop : chunkAt j < top)
    (hroom : top + 2 ≤ chunkAt j + findallChunckSize) :
    ∃ N, ∀ n ≥ N, ∃ s f, copyCell (findallCopyTemplateToChunk g chunkAt len) n v top
        ⟨mem, ⟨top + 2, j, 0⟩, []⟩ = some s ∧
      ChunkCopy g chunkAt mem arg j top s.space (untrail s.trail s.mem) f := by
  let lim := (chunkSetup chunkAt len j (top + 2) top 0 h.toHeapTerm).rest (fun _ => none) +
    (chunkSetup chunkAt len j (top + 2) top 0 h.toHeapTerm).cost v
  let σ := chunkSetup chunkAt len j (top + 2) top lim h.toHeapTerm
  have hin : InChunk chunkAt j top := ⟨htop.le, by omega⟩
  have hσ : σ.Sound := chunkSetup_sound hc h.toHeapTerm hhigh hin (by omega)
  have hg : σ.Graph := chunkSetup_graph h hhigh hcopy hlen
  have hgood : σ.Good ⟨top + 2, j, 0⟩ :=
    ⟨⟨by show chunkAt j < top + 2; omega, hroom⟩, le_rfl, fun _ => le_rfl⟩
  have hcopied0 : v.isref = true → σ.K.copied σ.top = true := by
    intro _
    show (!g.onGlstack top) = true
    rw [hin.not_glstack hc]
    rfl
  have hlimit : σ.used ⟨top + 2, j, 0⟩ + (σ.rest (fun _ => none) + σ.cost v) ≤ σ.limit := by
    show 0 + lim ≤ lim
    omega
  refine ⟨σ.rest (fun _ => none) + 1, fun n hn => ?_⟩
  obtain ⟨s, ρ, hrun, hcopied⟩ := Setup.copyCell_first (n := n) (c := v) (v := v)
    (s := ⟨mem, ⟨top + 2, j, 0⟩, []⟩) hg hσ (fun _ _ => rfl) rfl hgood ⟨arg, .refl, hv⟩ rfl hcopied0
    hlimit hn (hcopy.heads v hv)
  refine ⟨s, Setup.place ρ, hrun, ?_⟩
  have huntrail : ∀ y ∉ σ.old, untrail s.trail s.mem y = s.mem y := fun y hy =>
    Setup.untrail_other fun p hp he => hy (he ▸ hcopied.inv.trail p hp)
  have hnew : ∀ y, y = top ∨ σ.Owned s.space y → untrail s.trail s.mem y = s.mem y := by
    intro y hy
    refine huntrail y ?_
    rcases hy with rfl | hy
    · exact hσ.top_old
    · exact hσ.not_old _ _ hy
  let s' : CopyState := { s with mem := untrail s.trail s.mem }
  have hcomplete : σ.Complete s' ρ (σ.Fresh ⟨mem, ⟨top + 2, j, 0⟩, []⟩ s) :=
    hcopied.complete.congr rfl hnew
  have hword : σ.Word v := ⟨arg, .refl, hv⟩
  have himage : σ.Image s'.mem ρ (σ.Fresh ⟨mem, ⟨top + 2, j, 0⟩, []⟩ s) v (s'.mem top) := by
    have htop' : s'.mem top = s.mem top := hnew top (.inl rfl)
    rw [htop']
    exact hcopied.image.mono (fun _ _ hu => hu) fun y hy => ⟨hy, hnew y (.inr hy.1)⟩
  constructor
  case variant => exact hcomplete.variant hg hσ .refl hv himage
  case closed => exact hcomplete.closed hg rfl hword himage
  case size =>
    intro T hT
    have hle := hcomplete.size hg rfl rfl hword himage hT
    have hcost := himage.cost_eq rfl rfl hcomplete.pairs
    have hsum : s.space.size + σ.rest ρ = 0 + σ.rest (fun _ => none) + σ.cost v :=
      hcopied.step.sum
    have hle : ∑ u ∈ T, copyWeight (untrail s.trail s.mem) u + σ.rest ρ ≤
      σ.rest fun _ => none := hle
    have hcost : σ.cost v = boxCost (untrail s.trail s.mem top) := hcost
    omega
  case unchanged =>
    intro y hy hout
    by_cases hyo : y ∈ σ.old
    · exact hcopied.inv.undo rfl y hyo
    · rw [huntrail y hyo]
      exact hcopied.step.frame y hyo hy fun hf => hout hf.1
  case good => exact hcopied.inv.good

end XSBEngine.Copying
