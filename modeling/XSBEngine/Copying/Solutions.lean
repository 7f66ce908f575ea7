import XSBEngine.Copying.HeapCopy

/-!
# The solutions of a list

Each element of a solution list has cells of its own in the chunks, until the whole list is copied
to the heap.
-/

namespace XSBEngine.Copying

open Function List Option XSBEngine.Heap

variable {g : Glstack} {chunkAt : Nat → Nat} {hreg len n t x y : Nat} {mem mem' : Nat → Cell}
  {arg c u v : Cell} {p p' : SolutionList} {xs : List Nat}

/-! ### The spine -/

/-- The list that begins in the cell `q`, with its elements in the cells `xs`. The cell `t` is a
free variable. -/
def Spine (mem : Nat → Cell) (t : Nat) : Nat → List Nat → Prop
  | q, [] => q = t ∧ mem t = .ref t
  | q, x :: xs => mem q = .list x ∧ Spine mem t (x + 1) xs

variable {q : Nat} {intern : Cell → Bool}

section

variable (h : Spine mem t q xs)
include h

theorem Spine.tail_free : mem t = .ref t := by
  induction xs generalizing q with
  | nil => exact h.2
  | cons x xs ih => exact ih h.2

theorem Spine.tail_mem : t = q ∨ ∃ x ∈ xs, t = x + 1 := by
  induction xs generalizing q with
  | nil => exact .inl h.1.symm
  | cons x xs ih =>
    right
    rcases ih h.2 with he | ⟨y, hy, he⟩
    · exact ⟨x, mem_cons_self, he⟩
    · exact ⟨y, mem_cons_of_mem _ hy, he⟩

theorem Spine.congr
    (hmem : ∀ z, (z = q ∨ ∃ x ∈ xs, z = x + 1) → mem' z = mem z) : Spine mem' t q xs := by
  induction xs generalizing q with
  | nil => exact ⟨h.1, (hmem t (.inl h.1.symm)).trans h.2⟩
  | cons x xs ih =>
    refine ⟨(hmem q (.inl rfl)).trans h.1, ih h.2 fun z hz => hmem z (.inr ?_)⟩
    rcases hz with he | ⟨y, hy, he⟩
    · exact ⟨x, mem_cons_self, he⟩
    · exact ⟨y, mem_cons_of_mem _ hy, he⟩

/-- A new element is linked in at the tail. -/
theorem Spine.append (hmem : ∀ z, (z = q ∨ ∃ x ∈ xs, z = x + 1) → z ≠ t → mem' z = mem z)
    (ht : mem' t = .list y) (hy : mem' (y + 1) = .ref (y + 1)) :
    Spine mem' (y + 1) q (xs ++ [y]) := by
  induction xs generalizing q with
  | nil =>
    obtain ⟨rfl, -⟩ := h
    exact ⟨ht, rfl, hy⟩
  | cons x xs ih =>
    have hne : q ≠ t := by
      rintro rfl
      cases h.1.symm.trans h.2.tail_free
    refine ⟨(hmem q (.inl rfl) hne).trans h.1, ih h.2 fun z hz => hmem z (.inr ?_)⟩
    rcases hz with he | ⟨y, hy, he⟩
    · exact ⟨x, mem_cons_self, he⟩
    · exact ⟨y, mem_cons_of_mem _ hy, he⟩

end

theorem Spine.next {z : Nat} (h : Spine mem t q xs) (hz : z = q ∨ ∃ x ∈ xs, z = x + 1) :
    mem z = .ref t ∨ ∃ y ∈ xs, mem z = .list y := by
  induction xs generalizing q with
  | nil =>
    rcases hz with rfl | ⟨x, hx, -⟩
    · left
      rw [h.1]
      exact h.2
    · cases hx
  | cons x xs ih =>
    rcases hz with rfl | ⟨y, hy, rfl⟩
    · exact .inr ⟨x, mem_cons_self, h.1⟩
    · have hy' : y + 1 = x + 1 ∨ ∃ x ∈ xs, y + 1 = x + 1 := by
        rcases mem_cons.mp hy with rfl | hy
        · exact .inl rfl
        · exact .inr ⟨y, hy, rfl⟩
      rcases ih h.2 hy' with hm | ⟨w, hw, hm⟩
      · exact .inl hm
      · exact .inr ⟨w, mem_cons_of_mem _ hw, hm⟩

/-- The elements and the tail are reached. -/
theorem Spine.reaches (h : Spine mem t q xs)
    (hq : Reaches intern mem c (mem q)) (hxs : ∀ x ∈ xs, intern (.list x) = false) :
    (∀ x ∈ xs, Reaches intern mem c (.list x)) ∧ Reaches intern mem c (.ref t) := by
  induction xs generalizing q with
  | nil =>
    refine ⟨fun x hx => (by cases hx), ?_⟩
    rw [h.1, h.2] at hq
    exact hq
  | cons x xs ih =>
    rw [h.1] at hq
    obtain ⟨hall, ht⟩ := ih h.2 (.tail hq (hxs x mem_cons_self))
      fun y hy => hxs y (mem_cons_of_mem _ hy)
    refine ⟨fun y hy => ?_, ht⟩
    rcases mem_cons.mp hy with rfl | hy
    · exact hq
    · exact hall y hy

theorem Reaches.trans (h : Reaches intern mem c u)
    (h' : Reaches intern mem u v) : Reaches intern mem c v := by
  induction h' with
  | refl => exact h
  | ref _ hne ih => exact .ref ih hne
  | bound _ hne ih => exact .bound ih hne
  | attr _ hfree ih => exact .attr ih hfree
  | head _ hint ih => exact .head ih hint
  | tail _ hint ih => exact .tail ih hint
  | arg _ hint hpsc hj ih => exact .arg ih hint hpsc hj

/-! ### Elements -/

/-- An element of a solution list: its cell, the memory and the template it was copied from, its
variables, the memory after that, its other cells, and its size. -/
structure Element where
  cell : Nat
  mem : Nat → Cell
  arg : Cell
  place : Nat → Nat
  store : Nat → Cell
  owned : Nat → Prop
  size : Nat

/-- The cells of an element, with that of the rest of the list. -/
def Element.Region (e : Element) (y : Nat) : Prop := y = e.cell ∨ y = e.cell + 1 ∨ e.owned y

/-- The element is as it was copied. -/
structure Element.Stored (g : Glstack) (e : Element) (mem : Nat → Cell) : Prop where
  variant : Variant g.isinternstr e.mem e.arg e.store (e.store e.cell) e.place
  closed : Closed g.isinternstr e.store (e.store e.cell) e.cell maxArity e.owned
  size : ∀ T : Finset Cell, (∀ u ∈ T, Reaches g.isinternstr e.store (e.store e.cell) u ∧
    isBlock g.isinternstr u = true) →
    ∑ u ∈ T, copyWeight e.store u + boxCost (e.store e.cell) ≤ e.size
  apart : ¬e.owned e.cell ∧ ¬e.owned (e.cell + 1)
  same : ∀ y, y = e.cell ∨ e.owned y → mem y = e.store y

/-- The cells of a list that have been taken. -/
def Before (chunkAt : Nat → Nat) (p : SolutionList) (y : Nat) : Prop :=
  ∃ k, InChunk chunkAt k y ∧ k ≤ p.currentChunk ∧ (k = p.currentChunk → y < p.topOfChunk)

/-- `es` are the elements of the list. -/
structure Listed (g : Glstack) (chunkAt : Nat → Nat) (p : SolutionList) (es : List Element) :
    Prop where
  space : chunkAt p.currentChunk < p.topOfChunk ∧
    p.topOfChunk ≤ chunkAt p.currentChunk + findallChunckSize
  spine : Spine p.mem p.tail p.termptr (es.map Element.cell)
  stored : ∀ e ∈ es, e.Stored g p.mem
  before : ∀ e ∈ es, ∀ y, e.Region y → Before chunkAt p y
  termptr : Before chunkAt p p.termptr
  first : ∀ e ∈ es, ¬e.Region p.termptr
  disjoint : es.Pairwise fun e e' => ∀ y, e.Region y → ¬e'.Region y
  size : p.size = 1 + (es.map fun e => e.size + 2).sum

variable {e e' : Element} {es : List Element}

section

variable (h : Listed g chunkAt p es)
include h

theorem Listed.same (he : e ∈ es) (he' : e' ∈ es)
    (hy : e.Region y) (hy' : e'.Region y) : e = e' := by
  by_contra hne
  have hsymm : Std.Symm fun e e' : Element => ∀ y, e.Region y → ¬e'.Region y :=
    ⟨fun e e' hd y hy hy' => hd y hy' hy⟩
  exact h.disjoint.forall he he' hne y hy hy'

/-- The tail is no cell of an element, but for that of the rest of the list. -/
theorem Listed.tail_notMem (he : e ∈ es) :
    ¬(p.tail = e.cell ∨ e.owned p.tail) := by
  intro hy
  have hregion : e.Region p.tail := hy.imp_right .inr
  rcases h.spine.tail_mem with ht | ⟨x, hx, ht⟩
  · rw [ht] at hregion
    exact h.first e he hregion
  · obtain ⟨e', he', rfl⟩ := mem_map.mp hx
    cases h.same he he' hregion (.inr (.inl ht))
    rcases hy with hy | hy
    · omega
    · rw [ht] at hy
      exact (h.stored e he).apart.2 hy

theorem Listed.tail_before : Before chunkAt p p.tail := by
  rcases h.spine.tail_mem with ht | ⟨x, hx, ht⟩
  · rw [ht]
    exact h.termptr
  · obtain ⟨e, he, rfl⟩ := mem_map.mp hx
    exact h.before e he _ (.inr (.inl ht))

/-- Only cells outside of the chunks change. -/
theorem Listed.other (hmem : ∀ k y, InChunk chunkAt k y → mem' y = p.mem y) :
    Listed g chunkAt { p with mem := mem' } es where
  space := h.space
  spine := by
    refine h.spine.congr fun z hz => ?_
    have hb : Before chunkAt p z := by
      rcases hz with rfl | ⟨x, hx, rfl⟩
      · exact h.termptr
      · obtain ⟨e, he, rfl⟩ := mem_map.mp hx
        exact h.before e he _ (.inr (.inl rfl))
    obtain ⟨k, hk, -⟩ := hb
    exact hmem k z hk
  stored e he := by
    have hs := h.stored e he
    refine ⟨hs.variant, hs.closed, hs.size, hs.apart, fun y hy => ?_⟩
    obtain ⟨k, hk, -⟩ := h.before e he y (hy.imp_right .inr)
    exact (hmem k y hk).trans (hs.same y hy)
  before := h.before
  termptr := h.termptr
  first := h.first
  disjoint := h.disjoint
  size := h.size

end

/-- `findall_init` makes an empty list. -/
theorem listed_init (g : Glstack) (chunkAt : Nat → Nat) (mem : Nat → Cell) :
    Listed g chunkAt (findallInit chunkAt mem) [] where
  space := by
    have hsize : findallChunckSize = 131070 := rfl
    show chunkAt 0 < chunkAt 0 + 1 + 1 ∧ chunkAt 0 + 1 + 1 ≤ chunkAt 0 + findallChunckSize
    omega
  spine := ⟨rfl, update_self ..⟩
  stored e he := by cases he
  before e he := by cases he
  termptr := by
    have hsize : findallChunckSize = 131070 := rfl
    refine ⟨0, ⟨?_, ?_⟩, le_rfl, fun _ => ?_⟩
    · show chunkAt 0 ≤ chunkAt 0 + 1
      omega
    · show chunkAt 0 + 1 < chunkAt 0 + findallChunckSize
      omega
    · show chunkAt 0 + 1 < chunkAt 0 + 1 + 1
      omega
  first e he := by cases he
  disjoint := .nil
  size := rfl

/-! ### A new element -/

/-- Where the next element is: at the top, or in a new chunk. -/
structure NewPlace (chunkAt : Nat → Nat) (p : SolutionList) (j top : Nat) : Prop where
  low : chunkAt j < top
  room : top + 2 ≤ chunkAt j + findallChunckSize
  place : j = p.currentChunk ∧ top = p.topOfChunk ∨ j = p.currentChunk + 1

theorem Listed.newPlace (h : Listed g chunkAt p es) : ∃ j top,
    elementSpace chunkAt p = ⟨top, j, 0⟩ ∧ NewPlace chunkAt p j top := by
  have hsize : findallChunckSize = 131070 := rfl
  obtain ⟨hlow, hhigh⟩ := h.space
  unfold elementSpace
  split
  next hfull =>
    refine ⟨_, _, rfl, Nat.lt_succ_self _, ?_, .inr rfl⟩
    omega
  next hroom =>
    refine ⟨_, _, rfl, hlow, ?_, .inl ⟨rfl, rfl⟩⟩
    omega

/-- The list with the element whose first word has been copied to `dest`, up to `sp`. -/
def linkElement (p : SolutionList) (dest : Nat) (sp : Space) (mem : Nat → Cell) : SolutionList :=
  ⟨update (update mem (dest + 1) (.ref (dest + 1))) p.tail (.list dest),
    p.termptr, dest + 1, sp.h, sp.chunk, p.size + (sp.size + 2)⟩

variable {j top : Nat} {sp : Space} {f : Nat → Nat}

/-- The cells of a new element. -/
def NewCell (chunkAt : Nat → Nat) (j top : Nat) (sp : Space) (y : Nat) : Prop :=
  y = top ∨ y = top + 1 ∨ TakenFrom chunkAt j (top + 2) sp y

theorem NewPlace.notBefore (hc : Chunks g chunkAt) (h : NewPlace chunkAt p j top)
    (hy : NewCell chunkAt j top sp y) : ¬Before chunkAt p y := by
  rintro ⟨k, hk, hle, hlt⟩
  have hlow := h.low
  have hroom := h.room
  have hin : ∃ i, InChunk chunkAt i y ∧ j ≤ i ∧ (i = j → top ≤ y) := by
    rcases hy with rfl | rfl | ⟨i, hi, hge, -, hstart, -⟩
    · exact ⟨j, ⟨by omega, by omega⟩, le_rfl, fun _ => le_rfl⟩
    · exact ⟨j, ⟨by omega, by omega⟩, le_rfl, fun _ => Nat.le_succ _⟩
    · exact ⟨i, hi, hge, fun he => (Nat.le_add_right _ 2).trans (hstart he)⟩
  obtain ⟨i, hi, hge, hstart⟩ := hin
  have hik := hi.unique hc hk
  rcases h.place with ⟨hchunk, htop⟩ | hchunk
  · have := hlt (by omega)
    have := hstart (by omega)
    omega
  · omega

theorem NewPlace.apart (hc : Chunks g chunkAt) (h : NewPlace chunkAt p j top) :
    ¬TakenFrom chunkAt j (top + 2) sp top ∧ ¬TakenFrom chunkAt j (top + 2) sp (top + 1) := by
  have hlow := h.low
  have hroom := h.room
  constructor
  · rintro ⟨k, hk, -, -, hstart, -⟩
    have := hstart (hk.unique hc ⟨hlow.le, by omega⟩)
    omega
  · rintro ⟨k, hk, -, -, hstart, -⟩
    have := hstart (hk.unique hc ⟨by omega, by omega⟩)
    omega

/-- The new element is linked in. -/
theorem Listed.link (hc : Chunks g chunkAt) (h : Listed g chunkAt p es)
    (hplace : NewPlace chunkAt p j top) (hcopy : ChunkCopy g chunkAt p.mem arg j top sp mem f) :
    Listed g chunkAt (linkElement p top sp mem)
      (es ++ [⟨top, p.mem, arg, f, mem, TakenFrom chunkAt j (top + 2) sp, sp.size⟩]) := by
  have hnew : ∀ y, NewCell chunkAt j top sp y → ¬Before chunkAt p y := fun y hy =>
    hplace.notBefore hc hy
  obtain ⟨hrange, hj, hstart⟩ := hcopy.good
  have hsame : ∀ y, Before chunkAt p y → y ≠ p.tail →
      (linkElement p top sp mem).mem y = p.mem y := by
    intro y hy hne
    have hy' : ¬NewCell chunkAt j top sp y := fun hn => hnew y hn hy
    rw [NewCell, not_or, not_or] at hy'
    show update (update mem _ _) _ _ y = _
    rw [update_of_ne hne, update_of_ne hy'.2.1]
    exact hcopy.unchanged y hy'.1 hy'.2.2
  have htail : ∀ y, NewCell chunkAt j top sp y → y ≠ p.tail := by
    rintro y hy rfl
    exact hnew _ hy h.tail_before
  have hbefore : ∀ y, Before chunkAt p y → Before chunkAt (linkElement p top sp mem) y := by
    rintro y ⟨k, hk, hle, hlt⟩
    have hle' : p.currentChunk ≤ sp.chunk := by
      rcases hplace.place with ⟨he, -⟩ | he <;> omega
    refine ⟨k, hk, hle.trans hle', fun he => ?_⟩
    have he : k = sp.chunk := he
    show y < sp.h
    rcases hplace.place with ⟨hchunk, htop⟩ | hchunk
    · have := hlt (by omega)
      have := hstart (by omega)
      omega
    · omega
  have hnewBefore : ∀ y, NewCell chunkAt j top sp y →
      Before chunkAt (linkElement p top sp mem) y := by
    have hlow := hplace.low
    have hroom := hplace.room
    rintro y (rfl | rfl | ⟨k, hk, -, hle, -, hlast⟩)
    · refine ⟨j, ⟨by omega, by omega⟩, hj, fun he => ?_⟩
      have := hstart he.symm
      show y < sp.h
      omega
    · refine ⟨j, ⟨by omega, by omega⟩, hj, fun he => ?_⟩
      have := hstart he.symm
      show top + 1 < sp.h
      omega
    · exact ⟨k, hk, hle, hlast⟩
  constructor
  case space => exact hrange
  case spine =>
    rw [map_append]
    refine h.spine.append (fun z hz hne => hsame z ?_ hne) (update_self ..) ?_
    · rcases hz with rfl | ⟨x, hx, rfl⟩
      · exact h.termptr
      · obtain ⟨e, he, rfl⟩ := mem_map.mp hx
        exact h.before e he _ (.inr (.inl rfl))
    · show update (update mem _ _) _ _ (top + 1) = _
      rw [update_of_ne (htail _ (.inr (.inl rfl))), update_self]
  case stored =>
    intro e he
    rcases mem_append.mp he with he | he
    · have hs := h.stored e he
      refine ⟨hs.variant, hs.closed, hs.size, hs.apart, fun y hy => ?_⟩
      rw [hsame y (h.before e he y (hy.imp_right .inr)) fun hyt => ?_]
      · exact hs.same y hy
      · exact h.tail_notMem he (hyt ▸ hy)
    · cases mem_singleton.mp he
      refine ⟨hcopy.variant, hcopy.closed, hcopy.size, hplace.apart hc, fun y hy => ?_⟩
      have hne : y ≠ top + 1 := by
        rintro rfl
        rcases hy with hy | hy
        · exact absurd hy (Nat.succ_ne_self top)
        · exact (hplace.apart hc).2 hy
      show update (update mem _ _) _ _ y = _
      rw [update_of_ne (htail y (hy.imp_right .inr)), update_of_ne hne]
  case before =>
    intro e he y hy
    rcases mem_append.mp he with he | he
    · exact hbefore y (h.before e he y hy)
    · cases mem_singleton.mp he
      exact hnewBefore y hy
  case termptr => exact hbefore _ h.termptr
  case first =>
    intro e he hy
    rcases mem_append.mp he with he | he
    · exact h.first e he hy
    · cases mem_singleton.mp he
      exact hnew _ hy h.termptr
  case disjoint =>
    rw [pairwise_append]
    refine ⟨h.disjoint, pairwise_singleton _ _, fun e he e' he' y hy hy' => ?_⟩
    cases mem_singleton.mp he'
    exact hnew y hy' (h.before e he y hy)
  case size =>
    rw [map_append, sum_append, map_singleton, sum_singleton]
    show p.size + (sp.size + 2) = _
    rw [h.size, Nat.add_assoc]

/-! ### Adding solutions -/

theorem chunkCopy_mono {n m len len' d : Nat} {s s' : CopyState}
    (h : copyCell (findallCopyTemplateToChunk g chunkAt len) n c d s = some s')
    (hlen : len ≤ len') (hn : n ≤ m) :
    copyCell (findallCopyTemplateToChunk g chunkAt len') m c d s = some s' :=
  copyCell_mono (fun _ c => some c) (fun mem c => deref mem len' c) (fun mem c => deref mem len' c)
    (fun _ _ _ hv => hv) (fun _ _ _ hv => deref_mono hv hlen) (fun _ _ _ hv => deref_mono hv hlen)
    h hn

/-- The steps of `findall_add`. -/
theorem findallAdd_cases {len n : Nat} (h : findallAdd g chunkAt len n arg p = some p') :
    ∃ v s a, deref p.mem len arg = some v ∧
      copyCell (findallCopyTemplateToChunk g chunkAt len) n v (elementSpace chunkAt p).h
        ⟨p.mem, { elementSpace chunkAt p with h := (elementSpace chunkAt p).h + 2 }, []⟩ = some s ∧
      update (untrail s.trail s.mem) ((elementSpace chunkAt p).h + 1)
        (.ref ((elementSpace chunkAt p).h + 1)) p.tail = .ref a ∧
      p' = ⟨update (update (untrail s.trail s.mem)
          ((elementSpace chunkAt p).h + 1) (.ref ((elementSpace chunkAt p).h + 1))) a
            (.list (elementSpace chunkAt p).h),
        p.termptr, (elementSpace chunkAt p).h + 1, s.space.h, s.space.chunk,
        p.size + (s.space.size + 2)⟩ := by
  obtain ⟨v, hv, h⟩ := bind_eq_some_iff.mp h
  obtain ⟨s, hs, h⟩ := bind_eq_some_iff.mp h
  refine ⟨v, s, ?_⟩
  simp only at h
  split at h
  next a ha =>
    cases h
    exact ⟨a, hv, hs, ha, rfl⟩
  next => cases h

/-- `findall_add` copies the template and links it in. -/
theorem Listed.add_copy (hc : Chunks g chunkAt) (h : Listed g chunkAt p es)
    (ht : Template g hreg p.mem arg) (hhigh : hreg ≤ g.high) (hcopy : Copyable g p.mem arg) :
    ∃ j top s f v, NewPlace chunkAt p j top ∧ elementSpace chunkAt p = ⟨top, j, 0⟩ ∧
      ChunkCopy g chunkAt p.mem arg j top s.space (untrail s.trail s.mem) f ∧
      ∃ L, ∀ len ≥ L, deref p.mem len arg = some v ∧ ∃ N, ∀ n ≥ N,
        copyCell (findallCopyTemplateToChunk g chunkAt len) n v top
          ⟨p.mem, ⟨top + 2, j, 0⟩, []⟩ = some s := by
  obtain ⟨j, top, hspace, hplace⟩ := h.newPlace
  obtain ⟨L, hL⟩ := ht.bound
  obtain ⟨v, hv⟩ := hL L le_rfl arg .refl
  have hends : ∀ c, Reaches g.isinternstr p.mem arg c → ∃ v, deref p.mem (L + 1 - 1) c = some v :=
    hL L le_rfl
  obtain ⟨N, hN⟩ := copyTemplate_chunk hc ht hhigh hcopy hends ⟨L, hv⟩ hplace.low hplace.room
  obtain ⟨s, f, hrun, hchunk⟩ := hN N le_rfl
  refine ⟨j, top, s, f, v, hplace, hspace, hchunk, L + 1, fun len hlen => ⟨?_, N, fun n hn => ?_⟩⟩
  · exact deref_mono hv (Nat.le_of_succ_le hlen)
  · exact chunkCopy_mono hrun hlen hn

theorem Listed.tail_kept (hc : Chunks g chunkAt) (h : Listed g chunkAt p es)
    (hplace : NewPlace chunkAt p j top) (hcopy : ChunkCopy g chunkAt p.mem arg j top sp mem f) :
    update mem (top + 1) (.ref (top + 1)) p.tail = .ref p.tail := by
  have hnot : ¬NewCell chunkAt j top sp p.tail := fun hn => hplace.notBefore hc hn h.tail_before
  rw [NewCell, not_or, not_or] at hnot
  rw [update_of_ne hnot.2.1, hcopy.unchanged _ hnot.1 hnot.2.2]
  exact h.spine.tail_free

/-- `findall_add` adds an element, and changes nothing outside of the chunks. -/
theorem Listed.add (hc : Chunks g chunkAt) (h : Listed g chunkAt p es)
    (ht : Template g hreg p.mem arg) (hhigh : hreg ≤ g.high) (hcopy : Copyable g p.mem arg) :
    ∃ p' e, e.mem = p.mem ∧ e.arg = arg ∧ Listed g chunkAt p' (es ++ [e]) ∧
      (∀ y, (∀ k, ¬InChunk chunkAt k y) → p'.mem y = p.mem y) ∧
      (∃ L, ∀ len ≥ L, ∃ N, ∀ n ≥ N, findallAdd g chunkAt len n arg p = some p') ∧
      ∀ len n p₁, findallAdd g chunkAt len n arg p = some p₁ → p₁ = p' := by
  obtain ⟨j, top, s, f, v, hplace, hspace, hchunk, L, hL⟩ := h.add_copy hc ht hhigh hcopy
  have hkept := h.tail_kept hc hplace hchunk
  refine ⟨linkElement p top s.space (untrail s.trail s.mem), _, rfl, rfl,
    h.link hc hplace hchunk, fun y hy => ?_, ⟨L, fun len hlen => ?_⟩, fun len n p₁ hrun => ?_⟩
  · have hlow := hplace.low
    have hroom := hplace.room
    have htail : y ≠ p.tail := by
      rintro rfl
      obtain ⟨k, hk, -⟩ := h.tail_before
      exact hy k hk
    have htop : y ≠ top := by
      rintro rfl
      exact hy j ⟨by omega, by omega⟩
    have htop' : y ≠ top + 1 := by
      rintro rfl
      exact hy j ⟨by omega, by omega⟩
    show update (update _ _ _) _ _ y = _
    rw [update_of_ne htail, update_of_ne htop']
    refine hchunk.unchanged y htop ?_
    rintro ⟨k, hk, -⟩
    exact hy k hk
  · obtain ⟨hd, N, hN⟩ := hL len hlen
    refine ⟨N, fun n hn => ?_⟩
    unfold findallAdd
    rw [hd, bind_some, hspace]
    simp only [hN n hn, bind_some, hkept]
    rfl
  · obtain ⟨v', s', a, hv', hs', ha, rfl⟩ := findallAdd_cases hrun
    obtain ⟨hd, N, hN⟩ := hL (max L len) (le_max_left _ _)
    cases (deref_mono hv' (le_max_right L len)).symm.trans hd
    rw [hspace] at hs' ha
    have hs := hN (max N n) (le_max_left _ _)
    cases (chunkCopy_mono hs' (le_max_right L len) (le_max_right N n)).symm.trans hs
    cases hkept.symm.trans ha
    rw [hspace]
    rfl

/-! ### The whole list -/

theorem Element.Stored.now (h : e.Stored g mem) :
    Variant g.isinternstr e.mem e.arg mem (mem e.cell) e.place ∧
      Closed g.isinternstr mem (mem e.cell) e.cell maxArity e.owned := by
  rw [h.same e.cell (.inl rfl)]
  exact ⟨h.closed.variant_congr h.same h.variant, h.closed.congr h.same⟩

/-- What is reached from the list is its tail, one of its cells, or in an element. -/
theorem Listed.reach_cases (h : Listed g chunkAt p es)
    (hu : Reaches g.isinternstr p.mem (p.mem p.termptr) u) :
    u = .ref p.tail ∨ (∃ e ∈ es, u = .list e.cell) ∨
      ∃ e ∈ es, Reaches g.isinternstr p.mem (p.mem e.cell) u := by
  have hnext : ∀ {z}, (z = p.termptr ∨ ∃ x ∈ es.map Element.cell, z = x + 1) →
      p.mem z = .ref p.tail ∨ (∃ e ∈ es, p.mem z = .list e.cell) ∨
        ∃ e ∈ es, Reaches g.isinternstr p.mem (p.mem e.cell) (p.mem z) := by
    intro z hz
    rcases h.spine.next hz with hm | ⟨x, hx, hm⟩
    · exact .inl hm
    · obtain ⟨e, he, rfl⟩ := mem_map.mp hx
      exact .inr (.inl ⟨e, he, hm⟩)
  induction hu with
  | refl => exact hnext (.inl rfl)
  | ref _ hne ih =>
    rcases ih with he | ⟨e, -, he⟩ | ⟨e, he, hr⟩
    · cases he
      exact absurd h.spine.tail_free hne
    · cases he
    · exact .inr (.inr ⟨e, he, .ref hr hne⟩)
  | bound _ hne ih =>
    rcases ih with he | ⟨e, -, he⟩ | ⟨e, he, hr⟩
    · cases he
    · cases he
    · exact .inr (.inr ⟨e, he, .bound hr hne⟩)
  | attr _ hfree ih =>
    rcases ih with he | ⟨e, -, he⟩ | ⟨e, he, hr⟩
    · cases he
    · cases he
    · exact .inr (.inr ⟨e, he, .attr hr hfree⟩)
  | head _ hint ih =>
    rcases ih with he | ⟨e, he, hl⟩ | ⟨e, he, hr⟩
    · cases he
    · cases hl
      exact .inr (.inr ⟨e, he, .refl⟩)
    · exact .inr (.inr ⟨e, he, .head hr hint⟩)
  | tail _ hint ih =>
    rcases ih with he | ⟨e, he, hl⟩ | ⟨e, he, hr⟩
    · cases he
    · cases hl
      exact hnext (.inr ⟨_, mem_map_of_mem he, rfl⟩)
    · exact .inr (.inr ⟨e, he, .tail hr hint⟩)
  | arg _ hint hpsc hj ih =>
    rcases ih with he | ⟨e, -, he⟩ | ⟨e, he, hr⟩
    · cases he
    · cases he
    · exact .inr (.inr ⟨e, he, .arg hr hint hpsc hj⟩)

/-- The cells of the chunks of a list. -/
def chunkCells (chunkAt : Nat → Nat) (p : SolutionList) : Finset Nat :=
  (Finset.range (p.currentChunk + 1)).biUnion fun k =>
    Finset.Ico (chunkAt k) (chunkAt k + findallChunckSize)

theorem mem_chunkCells : y ∈ chunkCells chunkAt p ↔ ∃ k ≤ p.currentChunk, InChunk chunkAt k y := by
  simp only [chunkCells, Finset.mem_biUnion, Finset.mem_range, Finset.mem_Ico, Nat.lt_succ_iff,
    InChunk]

theorem Before.mem_cells (h : Before chunkAt p y) : y ∈ chunkCells chunkAt p := by
  obtain ⟨k, hk, hle, -⟩ := h
  exact mem_chunkCells.mpr ⟨k, hle, hk⟩

theorem Listed.not_interned (hc : Chunks g chunkAt) (h : Listed g chunkAt p es) (he : e ∈ es) :
    g.isinternstr (.list e.cell) = false := by
  obtain ⟨k, hk, -⟩ := h.before e he _ (.inl rfl)
  exact (hk.not_interned hc).1

section

variable (h : Listed g chunkAt p es)
include h

/-- A later cell of a block of the list is the rest of the list, or is in an element. -/
theorem Listed.later_cases (hx : Later g.isinternstr p.mem (p.mem p.termptr) x) :
    (∃ e ∈ es, x = e.cell + 1) ∨
      ∃ e ∈ es, Later g.isinternstr p.mem (p.mem e.cell) x ∧ e.owned x := by
  cases hx with
  | tail hr hint =>
    rcases h.reach_cases hr with he | ⟨e, he, hl⟩ | ⟨e, he, hr⟩
    · cases he
    · cases hl
      exact .inl ⟨e, he, rfl⟩
    · exact .inr ⟨e, he, .tail hr hint, ((h.stored e he).now.2.list _ hr hint).2⟩
  | @arg y j psc hr hint hpsc hj =>
    rcases h.reach_cases hr with he | ⟨e, -, he⟩ | ⟨e, he, hr⟩
    · cases he
    · cases he
    · obtain ⟨psc', hpsc', -, hcells⟩ := (h.stored e he).now.2.cs _ hr hint
      cases hpsc.symm.trans hpsc'
      have hcell := hcells (j + 1) (by omega)
      rw [← Nat.add_assoc, Nat.add_right_comm] at hcell
      exact .inr ⟨e, he, .arg hr hint hpsc hj, hcell⟩
  | attr hr hfree =>
    rcases h.reach_cases hr with he | ⟨e, -, he⟩ | ⟨e, he, hr⟩
    · cases he
    · cases he
    · exact .inr ⟨e, he, .attr hr hfree, ((h.stored e he).now.2.attv _ hr).1.2⟩

/-- The list is closed. -/
theorem Listed.closed :
    Closed g.isinternstr p.mem (p.mem p.termptr) p.tail maxArity (· ∈ chunkCells chunkAt p) := by
  have hmem : ∀ {e y}, e ∈ es → e.Region y → y ∈ chunkCells chunkAt p := fun he hy =>
    (h.before _ he _ hy).mem_cells
  constructor
  case ref =>
    intro a ha
    rcases h.reach_cases ha with he | ⟨e, -, he⟩ | ⟨e, he, hr⟩
    · cases he
      exact ⟨.inl rfl, h.spine.tail_free⟩
    · cases he
    · obtain ⟨hown, hfree⟩ := (h.stored e he).now.2.ref a hr
      exact ⟨.inr (hmem he (hown.imp_right .inr)), hfree⟩
  case attv =>
    intro a ha
    rcases h.reach_cases ha with he | ⟨e, -, he⟩ | ⟨e, he, hr⟩
    · cases he
    · cases he
    · obtain ⟨⟨hown, hown'⟩, hfree, hne⟩ := (h.stored e he).now.2.attv a hr
      exact ⟨⟨hmem he (.inr (.inr hown)), hmem he (.inr (.inr hown'))⟩, hfree, hne⟩
  case list =>
    intro a ha hint
    rcases h.reach_cases ha with he | ⟨e, he, hl⟩ | ⟨e, he, hr⟩
    · cases he
    · cases hl
      exact ⟨hmem he (.inl rfl), hmem he (.inr (.inl rfl))⟩
    · obtain ⟨hown, hown'⟩ := (h.stored e he).now.2.list a hr hint
      exact ⟨hmem he (.inr (.inr hown)), hmem he (.inr (.inr hown'))⟩
  case cs =>
    intro a ha hint
    rcases h.reach_cases ha with he | ⟨e, -, he⟩ | ⟨e, he, hr⟩
    · cases he
    · cases he
    · obtain ⟨psc, hpsc, har, hcells⟩ := (h.stored e he).now.2.cs a hr hint
      exact ⟨psc, hpsc, har, fun j hj => hmem he (.inr (.inr (hcells j hj)))⟩
  case functor =>
    intro psc hr
    rcases h.reach_cases hr with he | ⟨e, -, he⟩ | ⟨e, he, hr⟩
    · cases he
    · cases he
    · exact (h.stored e he).now.2.functor psc hr
  case separate =>
    intro a ha ha'
    rcases h.reach_cases ha' with he | ⟨e, -, he⟩ | ⟨e, he, hr'⟩
    · cases he
    · cases he
    · obtain ⟨⟨hown, -⟩, -, -⟩ := (h.stored e he).now.2.attv a hr'
      rcases h.reach_cases ha with he' | ⟨e', -, he'⟩ | ⟨e', he', hr⟩
      · cases he'
        exact h.tail_notMem he (.inr hown)
      · cases he'
      · obtain ⟨hown', -⟩ := (h.stored e' he').now.2.ref a hr
        cases h.same he he' (.inr (.inr hown)) (hown'.imp_right .inr)
        exact (h.stored e he).now.2.separate a hr hr'
  case apart =>
    intro a ha hint hlater
    rcases h.reach_cases ha with he | ⟨e, he, hl⟩ | ⟨e, he, hr⟩
    · cases he
    · cases hl
      rcases h.later_cases hlater with ⟨e', he', hx⟩ | ⟨e', he', -, hown⟩
      · cases h.same he he' (.inl rfl) (.inr (.inl hx))
        omega
      · cases h.same he he' (.inl rfl) (.inr (.inr hown))
        exact (h.stored e he).apart.1 hown
    · obtain ⟨hown, -⟩ := (h.stored e he).now.2.list a hr hint
      rcases h.later_cases hlater with ⟨e', he', hx⟩ | ⟨e', he', hlater, hown'⟩
      · cases h.same he he' (.inr (.inr hown)) (.inr (.inl hx))
        rw [hx] at hown
        exact (h.stored e he).apart.2 hown
      · cases h.same he he' (.inr (.inr hown)) (.inr (.inr hown'))
        exact (h.stored e he).now.2.apart a hr hint hlater

theorem Listed.weight_element (he : e ∈ es) {T : Finset Cell}
    (hT : ∀ u ∈ T, isBlock g.isinternstr u = true ∧
      (u = .list e.cell ∨ Reaches g.isinternstr p.mem (p.mem e.cell) u)) :
    ∑ u ∈ T, copyWeight p.mem u ≤ e.size + 2 := by
  classical
  have hs := h.stored e he
  have hcell := hs.same e.cell (.inl rfl)
  have hrest : boxCost (p.mem (e.cell + 1)) = 0 := by
    rcases h.spine.next (.inr ⟨_, mem_map_of_mem he, rfl⟩) with hm | ⟨y, -, hm⟩
    · rw [hm]
      rfl
    · rw [hm]
      rfl
  have hin : ∑ u ∈ T.erase (.list e.cell), copyWeight p.mem u + boxCost (p.mem e.cell) ≤
      e.size := by
    have hreach : ∀ u ∈ T.erase (.list e.cell), Reaches g.isinternstr e.store (e.store e.cell) u ∧
        isBlock g.isinternstr u = true := by
      intro u hu
      obtain ⟨hne, hu⟩ := Finset.mem_erase.mp hu
      obtain ⟨hb, hu⟩ := hT u hu
      have hr := hu.resolve_left hne
      rw [hcell] at hr
      exact ⟨hs.closed.reaches_of hs.same hr, hb⟩
    have hsize := hs.size _ hreach
    rw [hcell]
    refine le_of_eq_of_le ?_ hsize
    congr 1
    apply Finset.sum_congr rfl
    intro u hu
    obtain ⟨hr, hb⟩ := hreach u hu
    exact hs.closed.weight_congr hs.same hr hb
  have hlist : copyWeight p.mem (.list e.cell) = 2 + boxCost (p.mem e.cell) := by
    rw [copyWeight, hrest, Nat.add_zero]
  by_cases hmem : .list e.cell ∈ T
  · rw [← Finset.sum_erase_add _ _ hmem, hlist]
    omega
  · rw [Finset.erase_eq_of_notMem hmem] at hin
    omega

/-- The list weighs no more than its size. -/
theorem Listed.weight {l : List Element} (hl : ∀ e ∈ l, e ∈ es)
    {T : Finset Cell} (hT : ∀ u ∈ T, isBlock g.isinternstr u = true ∧
      ∃ e ∈ l, u = .list e.cell ∨ Reaches g.isinternstr p.mem (p.mem e.cell) u) :
    ∑ u ∈ T, copyWeight p.mem u ≤ (l.map fun e => e.size + 2).sum := by
  classical
  induction l generalizing T with
  | nil =>
    have hempty : T = ∅ := by
      apply Finset.eq_empty_of_forall_notMem
      intro u hu
      obtain ⟨-, e, he, -⟩ := hT u hu
      cases he
    rw [hempty]
    exact Nat.le_refl 0
  | cons e l ih =>
    let A : Cell → Prop := fun u =>
      u = .list e.cell ∨ Reaches g.isinternstr p.mem (p.mem e.cell) u
    have hfirst : ∑ u ∈ T.filter A, copyWeight p.mem u ≤ e.size + 2 := by
      refine h.weight_element (hl e mem_cons_self) fun u hu => ?_
      obtain ⟨hu, hA⟩ := Finset.mem_filter.mp hu
      exact ⟨(hT u hu).1, hA⟩
    have hothers := ih (T := T.filter fun u => ¬A u)
      (fun e' he' => hl e' (mem_cons_of_mem _ he')) fun u hu => by
        obtain ⟨hu, hA⟩ := Finset.mem_filter.mp hu
        obtain ⟨hb, e', he', hr⟩ := hT u hu
        rcases mem_cons.mp he' with rfl | he'
        · exact absurd hr hA
        · exact ⟨hb, e', he', hr⟩
    rw [map_cons, sum_cons, ← Finset.sum_filter_add_sum_filter_not T A]
    exact Nat.add_le_add hfirst hothers

theorem Listed.boxCost : boxCost (p.mem p.termptr) = 0 := by
  rcases h.spine.next (.inl rfl) with hm | ⟨y, -, hm⟩
  · rw [hm]
    rfl
  · rw [hm]
    rfl

theorem Listed.weight_blocks :
    ∑ u ∈ (h.closed.finite_blocks fun _ hy => hy).toFinset, copyWeight p.mem u +
      Copying.boxCost (p.mem p.termptr) + 1 ≤ p.size := by
  have hle := h.weight (l := es) (fun _ he => he)
    (T := (h.closed.finite_blocks fun _ hy => hy).toFinset) fun u hu => by
      obtain ⟨hr, hb⟩ := (h.closed.finite_blocks fun _ hy => hy).mem_toFinset.mp hu
      refine ⟨hb, ?_⟩
      rcases h.reach_cases hr with rfl | ⟨e, he, hl⟩ | ⟨e, he, hr⟩
      · cases hb
      · exact ⟨e, he, .inl hl⟩
      · exact ⟨e, he, .inr hr⟩
  rw [h.boxCost, h.size]
  omega

end

/-! ### Collecting the solutions -/

/-- The list `w` has the elements `ws`, and the free variable `t` for a tail. -/
inductive ListAt (mem : Nat → Cell) (t : Nat) : Cell → List Cell → Prop
  | nil : mem t = .ref t → ListAt mem t (.ref t) []
  | cons {d : Nat} {ws : List Cell} : ListAt mem t (mem (d + 1)) ws →
      ListAt mem t (.list d) (mem d :: ws)

/-- A template, the memory in which it was added, its copy, and the variables of that. -/
structure Solution where
  mem : Nat → Cell
  arg : Cell
  word : Cell
  place : Nat → Nat

/-- The list at `arg1`, whose tail is at `arg2`, has variants of the templates `ts` for its
elements, in this order, which have no variables in common. -/
def Collected (g : Glstack) (ts : List ((Nat → Cell) × Cell)) (arg1 arg2 : Nat)
    (mem : Nat → Cell) : Prop :=
  ∃ t, ∃ sols : List Solution, ListAt mem t (mem arg1) (sols.map Solution.word) ∧
    mem arg2 = .ref t ∧ (sols.map fun S => (S.mem, S.arg)) = ts ∧
    (∀ S ∈ sols, Variant g.isinternstr S.mem S.arg mem S.word S.place) ∧
    sols.Pairwise fun S S' => ∀ a b, Occurs g.isinternstr S.mem S.arg a →
      Occurs g.isinternstr S'.mem S'.arg b → S.place a ≠ S'.place b

/-- Where the list whose cell is `x` has been copied, the word of its first element. -/
def elementWord (ρ : Cell → Option Cell) (mem : Nat → Cell) (x : Nat) : Cell :=
  match ρ (.list x) with
  | some w => mem (Setup.addr w)
  | none => .ref 0

theorem Setup.Complete.spine {σ : Setup} {ρ : Cell → Option Cell} {P : Nat → Prop}
    {s : CopyState} {w : Cell} (h : σ.Complete s ρ P) (hs : Spine σ.src t q xs)
    (hi : σ.Image s.mem ρ P (σ.src q) w) (hxs : ∀ x ∈ xs, σ.K.isinternstr (.list x) = false)
    (hends : ∀ z, z = q ∨ (∃ x ∈ xs, z = x ∨ z = x + 1) → EndsAt σ.src (σ.src z) (σ.src z)) :
    ListAt s.mem (place ρ t) w (xs.map (elementWord ρ s.mem)) ∧
      ∀ x ∈ xs, σ.Image s.mem ρ P (σ.src x) (elementWord ρ s.mem x) := by
  induction xs generalizing q w with
  | nil =>
    obtain ⟨rfl, hfree⟩ := hs
    rw [hfree] at hi
    obtain ⟨hw, hm⟩ := h.place_ref (hi.of_var rfl)
    rw [hw]
    exact ⟨.nil hm, fun x hx => by cases hx⟩
  | cons x xs ih =>
    rw [hs.1] at hi
    have hint := hxs x mem_cons_self
    have hρ : ρ (.list x) = some w := by
      cases hi with
      | plain _ hplain =>
        have hl : σ.leaf (.list x) = false := hint
        rw [Plain, if_neg (by rw [hl]; exact Bool.false_ne_true)] at hplain
        exact hplain
    have hword : elementWord ρ s.mem x = s.mem (addr w) := by
      simp only [elementWord, hρ]
    have hx : EndsAt σ.src (σ.src x) (σ.src x) :=
      hends x (.inr ⟨x, mem_cons_self, .inl rfl⟩)
    have hx' : EndsAt σ.src (σ.src (x + 1)) (σ.src (x + 1)) :=
      hends (x + 1) (.inr ⟨x, mem_cons_self, .inr rfl⟩)
    cases h.done _ _ hρ with
    | list _ _ hd hd' =>
      obtain ⟨v, hv, hi1⟩ := hd
      obtain ⟨v', hv', hi2⟩ := hd'
      cases hv.unique hx
      cases hv'.unique hx'
      obtain ⟨hlist, hall⟩ := ih hs.2 hi2 (fun y hy => hxs y (mem_cons_of_mem _ hy))
        fun z hz => by
          rcases hz with rfl | ⟨y, hy, hz⟩
          · exact hx'
          · exact hends z (.inr ⟨y, mem_cons_of_mem _ hy, hz⟩)
      constructor
      · rw [map_cons, hword]
        exact .cons hlist
      · intro y hy
        rcases mem_cons.mp hy with rfl | hy
        · rw [hword]
          exact hi1
        · exact hall y hy

/-- Runs of `findall_init`, `findall_add` and of the program in between, which does not change the
chunks. -/
inductive FindallRun (g : Glstack) (chunkAt : Nat → Nat) :
    List ((Nat → Cell) × Cell) → SolutionList → Prop
  | init (mem : Nat → Cell) : FindallRun g chunkAt [] (findallInit chunkAt mem)
  | add {ts : List ((Nat → Cell) × Cell)} {p p' : SolutionList} {arg : Cell} {len n : Nat} :
      FindallRun g chunkAt ts p → findallAdd g chunkAt len n arg p = some p' →
      FindallRun g chunkAt (ts ++ [(p.mem, arg)]) p'
  | other {ts : List ((Nat → Cell) × Cell)} {p : SolutionList} {mem : Nat → Cell} :
      FindallRun g chunkAt ts p → (∀ k y, InChunk chunkAt k y → mem y = p.mem y) →
      FindallRun g chunkAt ts { p with mem }

variable {ts : List ((Nat → Cell) × Cell)}

/-- A template that `findall_add` copies. -/
def Addable (g : Glstack) (mem : Nat → Cell) (arg : Cell) : Prop :=
  ∃ hreg ≤ g.high, Template g hreg mem arg ∧ Copyable g mem arg

theorem FindallRun.listed (hc : Chunks g chunkAt) (hrun : FindallRun g chunkAt ts p)
    (hts : ∀ T ∈ ts, Addable g T.1 T.2) :
    ∃ es, Listed g chunkAt p es ∧ (es.map fun e => (e.mem, e.arg)) = ts := by
  induction hrun with
  | init mem => exact ⟨[], listed_init g chunkAt mem, rfl⟩
  | @add ts p p' arg len n _ hadd ih =>
    obtain ⟨es, hes, rfl⟩ := ih fun T hT => hts T (mem_append_left _ hT)
    obtain ⟨hreg, hhigh, ht, hcopy⟩ :=
      hts (p.mem, arg) (mem_append_right _ (mem_singleton_self _))
    obtain ⟨p1, e, hmem, harg, hlisted, -, -, huniq⟩ := hes.add hc ht hhigh hcopy
    cases huniq len n p' hadd
    refine ⟨es ++ [e], hlisted, ?_⟩
    rw [map_append, map_singleton, hmem, harg]
  | other _ hmem ih =>
    obtain ⟨es, hes, he⟩ := ih hts
    exact ⟨es, hes.other hmem, he⟩

theorem Listed.room (hc : Chunks g chunkAt) {lim dest : Nat} (hlow : g.low ≤ hreg)
    (hhigh : lim ≤ g.high) (hdest : g.onGlstack dest = true) (hout : dest < hreg ∨ lim ≤ dest) :
    HeapRoom g hreg lim dest (chunkCells chunkAt p) where
  low := hlow
  high := hhigh
  old y hy := by
    obtain ⟨k, -, hk⟩ := mem_chunkCells.mp hy
    exact hk.not_glstack hc
  stack := hdest
  outside := hout

/-- The mark on the tail of the list leads to the tail of the copy. -/
theorem Setup.Inv.tail_mark {σ : Setup} {ρ : Cell → Option Cell} {s : CopyState} {d : Nat}
    (hg : σ.Graph) (h : σ.Inv s ρ none) (ht : t ∈ σ.old) (hfree : σ.src t = .ref t)
    (hρ : ρ (.ref t) = some (.ref d)) (hnot : ρ (.list t) = none) : s.mem t = .ref d := by
  cases h.cells t ht with
  | kept _ _ _ hnone =>
    rw [(hnone hfree).1] at hρ
    cases hρ
  | str hs => cases hs.symm.trans hfree
  | head _ hl =>
    rw [hnot] at hl
    cases hl
  | var _ hm hρ' =>
    cases hρ.symm.trans hρ'
    exact hm
  | attv _ _ hρ' =>
    cases h.pairs _ _ hρ with
    | ref hword =>
      cases h.pairs _ _ hρ' with
      | attv hword' => exact absurd hfree (hg.separate t hword hword')

/-- The variables of an element are in its cells. -/
theorem Element.Stored.occurs (h : e.Stored g mem) {a : Nat}
    (ha : Occurs g.isinternstr e.mem e.arg a) :
    Occurs g.isinternstr mem (mem e.cell) (e.place a) ∧ e.Region (e.place a) := by
  obtain ⟨hvariant, hclosed⟩ := h.now
  have hocc := hvariant.occurs ha
  refine ⟨hocc, ?_⟩
  obtain ⟨hr | hr, -⟩ := hocc
  · exact (hclosed.ref _ hr).1.imp_right .inr
  · exact .inr (.inr (hclosed.attv _ hr).1.1)

theorem Occurs.of_reaches {a : Nat} (h : Reaches intern mem c u)
    (ha : Occurs intern mem u a) : Occurs intern mem c a :=
  ⟨ha.1.imp h.trans h.trans, ha.2⟩

theorem Listed.tail_notList (h : Listed g chunkAt p es)
    (hint : g.isinternstr (.list p.tail) = false) :
    ¬Reaches g.isinternstr p.mem (p.mem p.termptr) (.list p.tail) := by
  intro hr
  rcases h.reach_cases hr with he | ⟨e, he, hl⟩ | ⟨e, he, hr⟩
  · cases he
  · exact h.tail_notMem he (.inl (Cell.list.inj hl))
  · exact h.tail_notMem he (.inr ((h.stored e he).now.2.list _ hr hint).1)

/-- `findall_get_solutions` copies the list. -/
theorem Listed.collect (hc : Chunks g chunkAt) (h : Listed g chunkAt p es) {arg1 arg2 : Nat}
    (hlow : g.low ≤ hreg) (hhigh : hreg + p.size ≤ g.high) (harg1 : g.onGlstack arg1 = true)
    (hout1 : arg1 < hreg ∨ hreg + p.size ≤ arg1) (hout2 : arg2 < hreg ∨ hreg + p.size ≤ arg2)
    (hne : arg1 ≠ arg2) (hlen : 2 ≤ len) : ∃ N, ∀ n ≥ N, ∃ C,
      findallGetSolutions g hreg len n arg1 arg2 p = some C ∧
      Collected g (es.map fun e => (e.mem, e.arg)) arg1 arg2 C.mem ∧ C.hreg ≤ hreg + p.size := by
  have hr : HeapRoom g hreg (hreg + p.size) arg1 (chunkCells chunkAt p) :=
    Listed.room hc hlow hhigh harg1 hout1
  have hclosed := h.closed
  have hold : ∀ y, y ∈ chunkCells chunkAt p → y ∈ chunkCells chunkAt p := fun _ hy => hy
  have hweight := h.weight_blocks
  obtain ⟨N, hN⟩ := copy_to_heap hclosed hold hr hlen h.tail_before.mem_cells
    (by omega)
  refine ⟨N, fun n hn => ?_⟩
  obtain ⟨s, ρ, hrun, hcopied, hge, hle⟩ := hN n hn
  let σ := heapSetup g hreg len (hreg + p.size) arg1 (chunkCells chunkAt p) hclosed hold
  have hσ : σ.Sound := heapSetup_sound hr (by omega)
  have hg : σ.Graph := heapSetup_graph hr hlen h.tail_before.mem_cells
  let s' : CopyState := { s with mem := update s.mem arg2 (s.mem p.tail) }
  have hnew : ∀ y, y = arg1 ∨ σ.Owned s.space y → s'.mem y = s.mem y := by
    intro y hy
    refine update_of_ne ?_ _ _
    rcases hy with rfl | ⟨hy, -, hlim⟩
    · exact hne
    · omega
  have hcomplete : σ.Complete s' ρ (σ.Fresh ⟨p.mem, ⟨hreg, 0, 0⟩, []⟩ s) :=
    hcopied.complete.congr rfl hnew
  have himage : σ.Image s'.mem ρ (σ.Fresh ⟨p.mem, ⟨hreg, 0, 0⟩, []⟩ s) (p.mem p.termptr)
      (s'.mem arg1) := by
    rw [hnew arg1 (.inl rfl)]
    exact hcopied.image.mono (fun _ _ hu => hu) fun y hy => ⟨hy, hnew y (.inr hy.1)⟩
  have hint : ∀ x ∈ es.map Element.cell, g.isinternstr (.list x) = false := by
    intro x hx
    obtain ⟨e, he, rfl⟩ := mem_map.mp hx
    exact h.not_interned hc he
  obtain ⟨hreach, htail⟩ := h.spine.reaches .refl hint
  have hhead : ∀ x ∈ es.map Element.cell,
      Reaches g.isinternstr p.mem (p.mem p.termptr) (p.mem x) := fun x hx =>
    .head (hreach x hx) (hint x hx)
  have hends : ∀ {u}, Reaches g.isinternstr p.mem (p.mem p.termptr) u → EndsAt p.mem u u :=
    fun hu => ⟨1, hclosed.ends hu⟩
  obtain ⟨hlist, hall⟩ := hcomplete.spine h.spine himage hint fun z hz => by
    rcases hz with rfl | ⟨x, hx, rfl | rfl⟩
    · exact hends .refl
    · exact hends (hhead _ hx)
    · exact hends (.tail (hreach x hx) (hint x hx))
  have hwhole := hcomplete.variant hg hσ .refl (hends .refl) himage
  have htailρ := (hcomplete.image_ref hg hσ .refl (hends .refl) himage htail
    h.spine.tail_free).1
  have htailNone : ρ (.list p.tail) = none := by
    cases hρ : ρ (.list p.tail) with
    | none => rfl
    | some w =>
      cases hcomplete.pairs _ _ hρ with
      | list hword hint' _ => exact absurd hword (h.tail_notList hint')
  have hmark := hcopied.inv.tail_mark hg h.tail_before.mem_cells h.spine.tail_free htailρ htailNone
  let sol : Element → Solution := fun e =>
    ⟨e.mem, e.arg, elementWord ρ s'.mem e.cell, Setup.place ρ ∘ e.place⟩
  refine ⟨⟨s'.mem, s.space.h⟩, ?_, ⟨Setup.place ρ p.tail, es.map sol, ?_, ?_, ?_, ?_, ?_⟩, hle⟩
  · rw [findallGetSolutions, hrun, map_some]
  · rw [List.map_map] at hlist ⊢
    exact hlist
  · show update s.mem arg2 (s.mem p.tail) arg2 = _
    rw [update_self]
    exact hmark
  · rw [List.map_map]
    rfl
  · intro S hS
    obtain ⟨e, he, rfl⟩ := mem_map.mp hS
    have hcell : e.cell ∈ es.map Element.cell := mem_map_of_mem he
    exact (h.stored e he).now.1.trans
      (hcomplete.variant hg hσ (hhead _ hcell) (hends (hhead _ hcell)) (hall _ hcell))
  · rw [pairwise_map]
    refine h.disjoint.imp_of_mem fun {e e'} he he' hd a b ha hb heq => ?_
    obtain ⟨hocc, hin⟩ := (h.stored e he).occurs ha
    obtain ⟨hocc', hin'⟩ := (h.stored e' he').occurs hb
    have hsame := hwhole.inj _ _ (hocc.of_reaches (hhead _ (mem_map_of_mem he)))
      (hocc'.of_reaches (hhead _ (mem_map_of_mem he'))) heq
    rw [hsame] at hin
    exact hd _ hin hin'

/-- `findall_add` returns with the list `p'`, and leaves all cells outside of the chunks. -/
def Adds (g : Glstack) (chunkAt : Nat → Nat) (arg : Cell) (p p' : SolutionList) : Prop :=
  (∃ L, ∀ len ≥ L, ∃ N, ∀ n ≥ N, findallAdd g chunkAt len n arg p = some p') ∧
    ∀ y, (∀ k, ¬InChunk chunkAt k y) → p'.mem y = p.mem y

/-- `findall_get_solutions` returns the solutions in cells that have been counted, where there is
room on the heap. The free variables at `arg1` and `arg2` are on the stacks. -/
def Collects (g : Glstack) (ts : List ((Nat → Cell) × Cell)) (p : SolutionList) : Prop :=
  ∀ hreg arg1 arg2 len, g.low ≤ hreg → hreg + p.size ≤ g.high → g.onGlstack arg1 = true →
    (arg1 < hreg ∨ hreg + p.size ≤ arg1) → (arg2 < hreg ∨ hreg + p.size ≤ arg2) →
    arg1 ≠ arg2 → 2 ≤ len → ∃ N, ∀ n ≥ N, ∃ C,
      findallGetSolutions g hreg len n arg1 arg2 p = some C ∧
      Collected g ts arg1 arg2 C.mem ∧ C.hreg ≤ hreg + p.size

theorem findall_collects (hc : Chunks g chunkAt) (hrun : FindallRun g chunkAt ts p)
    (hts : ∀ T ∈ ts, Addable g T.1 T.2) :
    (∀ arg, Addable g p.mem arg → ∃ p', Adds g chunkAt arg p p') ∧ Collects g ts p := by
  obtain ⟨es, hes, rfl⟩ := hrun.listed hc hts
  constructor
  · rintro arg ⟨hreg, hhigh, ht, hcopy⟩
    obtain ⟨p', e, -, -, -, hsame, hadd, -⟩ := hes.add hc ht hhigh hcopy
    exact ⟨p', hadd, hsame⟩
  · intro hreg arg1 arg2 len hlow hhigh harg1 hout1 hout2 hne hlen
    exact hes.collect hc hlow hhigh harg1 hout1 hout2 hne hlen

/-- Chunks above the stacks. -/
def chunksAbove (k : Nat) : Nat := 1000 + k * 131070

theorem chunksAbove_chunks (f : Cell → Bool) (hf : ∀ y, 1000 ≤ y →
    f (.list y) = false ∧ f (.cs y) = false) : Chunks ⟨1, 20, f⟩ chunksAbove where
  apart j k hne := by
    show 1000 + j * 131070 + 131070 ≤ 1000 + k * 131070 ∨
      1000 + k * 131070 + 131070 ≤ 1000 + j * 131070
    omega
  outside k := by
    show 1000 + k * 131070 + 131070 ≤ 1 ∨ 20 ≤ 1000 + k * 131070
    omega
  notInterned k y hy _ := by
    have hy : 1000 + k * 131070 ≤ y := hy
    exact hf y (by omega)

/-- A list whose head is a free variable, and whose tail is this variable. -/
def pairHeap : Nat → Cell
  | 1 => .ref 1
  | 2 => .ref 1
  | _ => .int 0

theorem pairHeap_reaches (h : Reaches intern (findallInit chunksAbove pairHeap).mem (.list 1) c) :
    c = .list 1 ∨ c = .ref 1 := by
  induction h with
  | refl => exact .inl rfl
  | ref _ hne ih =>
    rcases ih with h | h <;> cases h
    exact absurd rfl hne
  | bound _ _ ih | attr _ _ ih => rcases ih with h | h <;> cases h
  | head _ _ ih | tail _ _ ih =>
    rcases ih with h | h <;> cases h
    exact .inr rfl
  | arg _ _ _ _ ih => rcases ih with h | h <;> cases h

theorem pairHeap_addable : Addable ⟨1, 20, fun _ => false⟩
    (findallInit chunksAbove pairHeap).mem (.list 1) := by
  refine ⟨5, by decide, ?_, ?_⟩
  · constructor
    case toHeapTerm =>
      constructor
      case ref =>
        intro a ha
        rcases pairHeap_reaches ha with h | h <;> cases h
        decide
      case attv =>
        intro a ha
        rcases pairHeap_reaches ha with h | h <;> cases h
      case list =>
        intro a ha _
        rcases pairHeap_reaches ha with h | h <;> cases h
        decide
      case cs =>
        intro a ha _
        rcases pairHeap_reaches ha with h | h <;> cases h
      case separate =>
        intro a _ ha
        rcases pairHeap_reaches ha with h | h <;> cases h
      case finite =>
        intro c hc
        rcases pairHeap_reaches hc with rfl | rfl
        · exact ⟨2, _, rfl⟩
        · exact ⟨1, _, rfl⟩
      case record =>
        intro c hc hint
        rcases pairHeap_reaches hc with rfl | rfl <;> cases hint
    case arity =>
      intro a psc ha _
      rcases pairHeap_reaches ha with h | h <;> cases h
  · constructor
    case heads =>
      intro v hv
      refine Scan.safe_of_reaches hv fun a u _ ha _ hu => ?_
      rcases pairHeap_reaches ha with h | h <;> cases h
      cases hu.unique ⟨1, rfl⟩
      exact ⟨rfl, rfl⟩
    case attrs =>
      intro a ha
      rcases pairHeap_reaches ha with h | h <;> cases h

theorem findall_collects_pair : ∃ p, FindallRun ⟨1, 20, fun _ => false⟩ chunksAbove
    [((findallInit chunksAbove pairHeap).mem, .list 1)] p ∧
    Collects ⟨1, 20, fun _ => false⟩ [((findallInit chunksAbove pairHeap).mem, .list 1)] p := by
  have hadd : ∃ p, findallAdd ⟨1, 20, fun _ => false⟩ chunksAbove 2 3 (.list 1)
      (findallInit chunksAbove pairHeap) = some p := ⟨_, rfl⟩
  obtain ⟨p, hadd⟩ := hadd
  have hrun := FindallRun.add (.init pairHeap) hadd
  refine ⟨p, hrun, (findall_collects (chunksAbove_chunks _ fun _ _ => ⟨rfl, rfl⟩) hrun ?_).2⟩
  intro T hT
  cases mem_singleton.mp hT
  exact pairHeap_addable

/-- `f/2`. -/
def pairPsc : Psc := ⟨⟨[102], noNul_f⟩, 2, none⟩

/-- A structure whose arguments are a list, and a reference to the head of this list, which is an
interned list. -/
def aliasedHeap : Nat → Cell
  | 1 => .functor pairPsc
  | 2 => .list 4
  | 3 => .ref 4
  | 4 => .list 30
  | 5 => .int 8
  | 30 => .int 7
  | _ => .int 0

/-- The list with this template alone. -/
def aliasedRun : Option SolutionList :=
  findallAdd smallGlstack chunksAbove 3 4 (.cs 1) (findallInit chunksAbove aliasedHeap)

/-- The list is copied once more in place of the reference. -/
theorem aliased_collected : (aliasedRun.bind fun p =>
    (findallGetSolutions smallGlstack 8 3 9 6 7 p).map fun C =>
      (p.size, [6, 8, 10, 11, 12].map C.mem)) =
    some (10, [.list 8, .cs 10, .functor pairPsc, .list 13, .list 15]) := by
  decide +kernel

theorem aliasedHeap_reaches
    (h : Reaches smallGlstack.isinternstr (findallInit chunksAbove aliasedHeap).mem (.cs 1) c) :
    c = .cs 1 ∨ c = .list 4 ∨ c = .ref 4 ∨ c = .list 30 ∨ c = .int 8 := by
  induction h with
  | refl => exact .inl rfl
  | ref _ hne ih =>
    rcases ih with h | h | h | h | h <;> cases h
    exact .inr (.inr (.inr (.inl rfl)))
  | bound _ _ ih | attr _ _ ih => rcases ih with h | h | h | h | h <;> cases h
  | head _ hint ih =>
    rcases ih with h | h | h | h | h <;> cases h
    · exact .inr (.inr (.inr (.inl rfl)))
    · cases hint
  | tail _ hint ih =>
    rcases ih with h | h | h | h | h <;> cases h
    · exact .inr (.inr (.inr (.inr rfl)))
    · cases hint
  | @arg a j psc _ _ hpsc hj ih =>
    rcases ih with h | h | h | h | h <;> cases h
    cases hpsc
    match j, hj with
    | 0, _ => exact .inr (.inl rfl)
    | 1, _ => exact .inr (.inr (.inl rfl))

theorem aliasedHeap_template :
    Template smallGlstack 6 (findallInit chunksAbove aliasedHeap).mem (.cs 1) where
  ref a ha := by
    rcases aliasedHeap_reaches ha with h | h | h | h | h <;> cases h
    decide
  attv a ha := by rcases aliasedHeap_reaches ha with h | h | h | h | h <;> cases h
  list a ha hint := by
    rcases aliasedHeap_reaches ha with h | h | h | h | h <;> cases h
    · decide
    · cases hint
  cs a ha _ := by
    rcases aliasedHeap_reaches ha with h | h | h | h | h <;> cases h
    exact ⟨by decide, pairPsc, rfl, by decide⟩
  separate a _ ha := by rcases aliasedHeap_reaches ha with h | h | h | h | h <;> cases h
  finite c hc := by
    rcases aliasedHeap_reaches hc with rfl | rfl | rfl | rfl | rfl
    · exact ⟨4, _, rfl⟩
    · exact ⟨3, _, rfl⟩
    · exact ⟨2, _, rfl⟩
    · exact ⟨1, _, rfl⟩
    · exact ⟨1, _, rfl⟩
  record c hc hint := by
    rcases aliasedHeap_reaches hc with rfl | rfl | rfl | rfl | rfl
    · cases hint
    · cases hint
    · cases hint
    · exact .list (by decide) .int .int
    · cases hint
  arity a psc ha hpsc := by
    rcases aliasedHeap_reaches ha with h | h | h | h | h <;> cases h
    cases hpsc
    decide

theorem findallGetSolutions_mono {arg1 arg2 m : Nat} {C : SolutionCopy}
    (h : findallGetSolutions g hreg len n arg1 arg2 p = some C) (hm : n ≤ m) :
    findallGetSolutions g hreg len m arg1 arg2 p = some C := by
  obtain ⟨s, hs, rfl⟩ := map_eq_some_iff.mp h
  have hs' := copyCell_mono _ _ _ (fun _ _ _ h => h) (fun _ _ _ h => h) (fun _ _ _ h => h) hs hm
  exact map_eq_some_iff.mpr ⟨s, hs', rfl⟩

theorem aliased_head_not_collected : ¬∀ g chunkAt ts p, Chunks g chunkAt →
    FindallRun g chunkAt ts p → (∀ T ∈ ts, ∃ hreg ≤ g.high, Template g hreg T.1 T.2) →
    Collects g ts p := by
  intro hclaim
  obtain ⟨p, hp, hC⟩ := bind_eq_some_iff.mp aliased_collected
  obtain ⟨C, hget, he⟩ := map_eq_some_iff.mp hC
  simp only [Prod.mk.injEq, map_cons, map_nil, List.cons.injEq, and_true] at he
  obtain ⟨hsize, h6, h8, h10, h11, h12⟩ := he
  have hchunks : Chunks smallGlstack chunksAbove := by
    refine chunksAbove_chunks _ fun y hy => ⟨decide_eq_false ?_, decide_eq_false ?_⟩
    · rintro ⟨⟩
      omega
    · rintro ⟨⟩
  have hcollects := hclaim _ _ _ _ hchunks (.add (.init aliasedHeap) hp) fun T hT => by
    cases mem_singleton.mp hT
    exact ⟨6, by decide, aliasedHeap_template⟩
  obtain ⟨N, hN⟩ := hcollects 8 6 7 3 (by decide) (by rw [hsize]; decide) (by decide)
    (.inl (by decide)) (.inl (by decide)) (by decide) (by decide)
  obtain ⟨C', hget', ⟨t, sols, hlist, -, hts, hvariant, -⟩, -⟩ := hN (max N 9) (le_max_left _ _)
  cases (findallGetSolutions_mono hget (le_max_right N 9)).symm.trans hget'
  obtain ⟨⟨mem, arg, word, f⟩, rfl, hS⟩ : ∃ S, sols = [S] ∧
      (S.mem, S.arg) = ((findallInit chunksAbove aliasedHeap).mem, .cs 1) := by
    simpa only [nil_append, map_eq_singleton_iff] using hts
  obtain ⟨rfl, rfl⟩ := Prod.mk.inj hS
  have hterm := (hvariant _ (mem_singleton_self _)).term 4 _ rfl
  rw [h6] at hlist
  generalize hws : [(⟨_, _, word, f⟩ : Solution)].map Solution.word = ws at hlist
  cases hlist with
  | cons htail =>
    obtain ⟨rfl, -⟩ := List.cons.inj hws
    rw [h8, denote, h10] at hterm
    obtain ⟨args, hargs, he⟩ := map_eq_some_iff.mp hterm
    have hrange : List.range pairPsc.arity = [0, 1] := rfl
    rw [hrange, mapM_cons, mapM_cons] at hargs
    obtain ⟨t0, -, hargs⟩ := bind_eq_some_iff.mp hargs
    obtain ⟨ts, hts, hargs⟩ := bind_eq_some_iff.mp hargs
    obtain ⟨t₁, ht1, hts⟩ := bind_eq_some_iff.mp hts
    cases hts
    cases hargs
    cases he
    rw [h12, denote] at ht1
    obtain ⟨head, -, ht1⟩ := bind_eq_some_iff.mp ht1
    obtain ⟨tail, -, ht1⟩ := map_eq_some_iff.mp ht1
    cases ht1

end XSBEngine.Copying
