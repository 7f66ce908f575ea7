import Mathlib
import XSBEngine.Copying.Sources

/-!
# The size of a term

`term_size`, `XSB/emu/findall.c:791–854`. It marks the attributed variables that it has counted,
counts other terms as often as they occur, and goes into interned terms.
-/

namespace XSBEngine.Copying

open Function List Option XSBEngine.Heap

/-- The mark on an attributed variable that is counted, `XSB/emu/findall.c:845–847`. -/
def CopyState.count (s : CopyState) (hreg a : Nat) : CopyState :=
  { s.write a (.attv hreg) with trail := (a, .ref a) :: s.trail }.write hreg (.ref hreg)

/-- `term_size`. The attribute of a variable is not dereferenced. The bound is on the depth. -/
def termSize (hreg len : Nat) : Nat → Cell → CopyState → Option (Nat × CopyState)
  | 0, _, _ => none
  | n + 1, term, s =>
    match term with
    | .list pfirstel =>
      (deref s.mem len (s.mem pfirstel)).bind fun c =>
        (termSize hreg len n c s).bind fun (k, s) =>
          (deref s.mem len (s.mem (pfirstel + 1))).bind fun c =>
            (termSize hreg len n c s).map fun (k', s) => (2 + k + k', s)
    | .cs pfirstel =>
      match s.mem pfirstel with
      | .functor psc =>
        (List.range psc.arity).foldlM (fun (k, s) j =>
          (deref s.mem len (s.mem (pfirstel + 1 + j))).bind fun c =>
            (termSize hreg len n c s).map fun (k', s) => (k + k', s)) (psc.arity + 1, s)
      | _ => none
    | .attv pfirstel =>
      if pfirstel < hreg then
        let s := s.count hreg pfirstel
        (termSize hreg len n (s.mem (pfirstel + 1)) s).map fun (k, s) => (2 + k, s)
      else some (0, s)
    | .functor _ => none
    | _ => some (0, s)

variable {g : Glstack} {hreg len n k a x y : Nat} {mem : Nat → Cell} {c₀ c u v : Cell}
  {s s' : CopyState}

/-- The cells of a block whose words are copied. -/
inductive BlockCell (mem : Nat → Cell) : Cell → Nat → Prop
  | head {a : Nat} : BlockCell mem (.list a) a
  | tail {a : Nat} : BlockCell mem (.list a) (a + 1)
  | attr {a : Nat} : BlockCell mem (.attv a) (a + 1)
  | arg {a j : Nat} {psc : Psc} : mem a = .functor psc → j < psc.arity →
      BlockCell mem (.cs a) (a + 1 + j)

/-! ### Counting -/

/-- The block that a word leads to has been counted. -/
def Covered (g : Glstack) (mem : Nat → Cell) (B : Finset Cell) (c : Cell) : Prop :=
  ∃ u, EndsAt mem c u ∧ (isBlock g.isinternstr u = true → u ∈ B)

/-- The blocks `B` have been counted. The attributes of the variables in `P` are being counted. -/
structure Counted (g : Glstack) (hreg : Nat) (mem : Nat → Cell) (c₀ : Cell) (s : CopyState)
    (B : Finset Cell) (P : Nat → Prop) : Prop where
  attvs : ∀ a, .attv a ∈ B →
    Reaches g.isinternstr mem c₀ (.attv a) ∧ mem a = .ref a ∧ s.mem a = .attv hreg
  same : ∀ y, y ≠ hreg → .attv y ∉ B → s.mem y = mem y
  free : ∀ a, .attv a ∈ B → s.mem hreg = .ref hreg
  trail : ∀ p ∈ s.trail, p.2 = mem p.1
  trailed : ∀ a, .attv a ∈ B → ∃ p ∈ s.trail, p.1 = a
  closed : ∀ v ∈ B, (∀ a, v = .attv a → ¬P a) → ∀ x, BlockCell mem v x → Covered g mem B (mem x)

/-- A word that stands for `u` while attributed variables that have been counted are marked. -/
def StandsFor (hreg : Nat) (B : Finset Cell) (u c : Cell) : Prop :=
  c = u ∧ (∀ a, u = .attv a → .attv a ∉ B) ∨ ∃ a, u = .attv a ∧ .attv a ∈ B ∧ c = .attv hreg

variable {B B' : Finset Cell} {P : Nat → Prop}

theorem Covered.mono (hB : B ⊆ B') (h : Covered g mem B c) : Covered g mem B' c := by
  obtain ⟨u, hu, hb⟩ := h
  exact ⟨u, hu, fun hblock => hB (hb hblock)⟩

section

variable (hterm : HeapTerm g hreg mem c₀)
include hterm

/-- A cell whose word is reached has no mark. -/
theorem Counted.notMem (h : Counted g hreg mem c₀ s B P)
    (hx : Reaches g.isinternstr mem c₀ (mem x)) : .attv x ∉ B := by
  intro hB
  obtain ⟨hr, hfree, -⟩ := h.attvs x hB
  rw [hfree] at hx
  exact hterm.separate x hx hr hfree

theorem Counted.read (h : Counted g hreg mem c₀ s B P)
    (hx : Reaches g.isinternstr mem c₀ (mem x)) (hne : x ≠ hreg) : s.mem x = mem x :=
  h.same x hne (h.notMem hterm hx)

theorem Counted.deref (h : Counted g hreg mem c₀ s B P)
    (hc : Reaches g.isinternstr mem c₀ c) (hu : Heap.deref mem n c = some u) :
    ∃ c', Heap.deref s.mem (n + 1) c = some c' ∧ StandsFor hreg B u c' := by
  induction n generalizing c with
  | zero => cases hu
  | succ n ih =>
    cases c with
    | ref a =>
      have hne : a ≠ hreg := (hterm.ref a hc).2.ne
      by_cases ha : mem a = .ref a
      · rw [Heap.deref, if_pos ha] at hu
        cases hu
        have hnot : .attv a ∉ B := fun hB => hterm.separate a hc (h.attvs a hB).1 ha
        refine ⟨.ref a, ?_, .inl ⟨rfl, fun b hb => by cases hb⟩⟩
        rw [Heap.deref, if_pos ((h.same a hne hnot).trans ha)]
      · rw [Heap.deref, if_neg ha] at hu
        have hnot : .attv a ∉ B := fun hB => ha (h.attvs a hB).2.1
        obtain ⟨c', hc', hs⟩ := ih (.ref hc ha) hu
        refine ⟨c', ?_, hs⟩
        rw [Heap.deref, h.same a hne hnot, if_neg ha]
        exact hc'
    | attv a =>
      have hne : a ≠ hreg := by
        have := (hterm.attv a hc).2
        omega
      by_cases ha : mem a = .ref a
      · rw [Heap.deref, if_pos ha] at hu
        cases hu
        by_cases hB : .attv a ∈ B
        · refine ⟨.attv hreg, ?_, .inr ⟨a, rfl, hB, rfl⟩⟩
          have hm := (h.attvs a hB).2.2
          rw [Heap.deref, if_neg (by rw [hm]; exact Cell.noConfusion), hm, Heap.deref,
            if_pos (h.free a hB)]
        · refine ⟨.attv a, ?_, .inl ⟨rfl, fun b hb => by cases hb; exact hB⟩⟩
          rw [Heap.deref, if_pos ((h.same a hne hB).trans ha)]
      · rw [Heap.deref, if_neg ha] at hu
        have hnot : .attv a ∉ B := fun hB => ha (h.attvs a hB).2.1
        obtain ⟨c', hc', hs⟩ := ih (.bound hc ha) hu
        refine ⟨c', ?_, hs⟩
        rw [Heap.deref, h.same a hne hnot, if_neg ha]
        exact hc'
    | _ =>
      cases hu
      exact ⟨_, rfl, .inl ⟨rfl, fun b hb => by cases hb⟩⟩

end

/-- What is put back is what the cells had before. -/
theorem untrail_eq {trail : List (Nat × Cell)} {m : Nat → Cell} (ht : ∀ p ∈ trail, p.2 = mem p.1)
    (hy : m y = mem y ∨ ∃ p ∈ trail, p.1 = y) : untrail trail m y = mem y := by
  induction trail generalizing m with
  | nil =>
    rcases hy with hy | ⟨p, hp, -⟩
    · exact hy
    · cases hp
  | cons p trail ih =>
    rw [untrail]
    apply ih fun q hq => ht q (mem_cons_of_mem _ hq)
    by_cases he : y = p.1
    · left
      rw [he, update_self]
      exact ht p mem_cons_self
    · rw [update_of_ne he]
      rcases hy with hy | ⟨q, hq, hqy⟩
      · exact .inl hy
      · rcases mem_cons.mp hq with rfl | hq
        · exact absurd hqy.symm he
        · exact .inr ⟨q, hq, hqy⟩

theorem Counted.undo (h : Counted g hreg mem c₀ s B P) (hy : y ≠ hreg) :
    untrail s.trail s.mem y = mem y := by
  apply untrail_eq h.trail
  by_cases hB : .attv y ∈ B
  · exact .inr (h.trailed y hB)
  · exact .inl (h.same y hy hB)

/-! ### Steps -/

/-- `k` cells have been counted, for the blocks `B'` and not only for `B`. -/
structure Counting (g : Glstack) (hreg : Nat) (mem : Nat → Cell) (c₀ : Cell) (P : Nat → Prop)
    (B : Finset Cell) (k : Nat) (s' : CopyState) (B' : Finset Cell) : Prop where
  grow : B ⊆ B'
  counted : Counted g hreg mem c₀ s' B' P
  sum : ∑ v ∈ B', blockSize mem v ≤ ∑ v ∈ B, blockSize mem v + k

/-- `term_size` counts the block `u` at the word `c`. -/
def Counts (g : Glstack) (hreg len : Nat) (mem : Nat → Cell) (c₀ : Cell) (P : Nat → Prop)
    (s : CopyState) (B : Finset Cell) (c u : Cell) : Prop :=
  ∃ N k s' B', (∀ n ≥ N, termSize hreg len n c s = some (k, s')) ∧
    Counting g hreg mem c₀ P B k s' B' ∧ (isBlock g.isinternstr u = true → u ∈ B')

/-- `term_size` counts what the cell `x` leads to. -/
def CountsCell (g : Glstack) (hreg len : Nat) (mem : Nat → Cell) (c₀ : Cell) (P : Nat → Prop)
    (s : CopyState) (B : Finset Cell) (x : Nat) : Prop :=
  ∃ N k s' B', (∀ n ≥ N, ((Heap.deref s.mem len (s.mem x)).bind fun c =>
    termSize hreg len n c s) = some (k, s')) ∧
    Counting g hreg mem c₀ P B k s' B' ∧ Covered g mem B' (mem x)

variable {s1 s2 : CopyState} {B1 B2 : Finset Cell} {k1 k2 : Nat}

theorem Counting.refl (h : Counted g hreg mem c₀ s B P) : Counting g hreg mem c₀ P B k s B :=
  ⟨subset_rfl, h, Nat.le_add_right _ _⟩

theorem Counting.trans (h1 : Counting g hreg mem c₀ P B k1 s1 B1)
    (h2 : Counting g hreg mem c₀ P B1 k2 s2 B2) :
    Counting g hreg mem c₀ P B (k1 + k2) s2 B2 where
  grow := h1.grow.trans h2.grow
  counted := h2.counted
  sum := by
    have := h1.sum
    have := h2.sum
    omega

/-- A list or a structure has been counted after its words. -/
theorem Counting.block (h : Counting g hreg mem c₀ P B k s1 B1) (hu : ∀ a, u ≠ .attv a)
    (hcells : ∀ x, BlockCell mem u x → Covered g mem B1 (mem x)) :
    Counting g hreg mem c₀ P B (blockSize mem u + k) s1 (insert u B1) where
  grow := h.grow.trans (Finset.subset_insert _ _)
  counted := by
    have hattv : ∀ a, .attv a ∈ insert u B1 → .attv a ∈ B1 := fun a ha =>
      (Finset.mem_insert.mp ha).resolve_left (hu a).symm
    constructor
    case attvs => exact fun a ha => h.counted.attvs a (hattv a ha)
    case same =>
      intro y hy hB
      exact h.counted.same y hy fun hB' => hB (Finset.mem_insert_of_mem hB')
    case free => exact fun a ha => h.counted.free a (hattv a ha)
    case trail => exact h.counted.trail
    case trailed => exact fun a ha => h.counted.trailed a (hattv a ha)
    case closed =>
      intro v hv hP x hx
      apply Covered.mono (Finset.subset_insert u B1)
      rcases Finset.mem_insert.mp hv with rfl | hv
      · exact hcells x hx
      · exact h.counted.closed v hv hP x hx
  sum := by
    have hsum := h.sum
    by_cases hB : u ∈ B1
    · rw [Finset.insert_eq_of_mem hB]
      omega
    · rw [Finset.sum_insert hB]
      omega

/-- A cell with a word that is reached. -/
theorem Counted.cell (hterm : HeapTerm g hreg mem c₀) (h : Counted g hreg mem c₀ s B P)
    (hx : Reaches g.isinternstr mem c₀ (mem x)) (hne : x ≠ hreg)
    (hu : Heap.deref mem n (mem x) = some u) (hlen : n < len)
    (hcounts : ∀ c, StandsFor hreg B u c → Counts g hreg len mem c₀ P s B c u) :
    CountsCell g hreg len mem c₀ P s B x := by
  obtain ⟨c, hc, hstands⟩ := h.deref hterm hx hu
  obtain ⟨N, k, s', B', hrun, hstep, hmem⟩ := hcounts c hstands
  refine ⟨N, k, s', B', fun m hm => ?_, hstep, u, ⟨n, hu⟩, hmem⟩
  rw [h.read hterm hx hne, deref_mono hc hlen, bind_some, hrun m hm]

theorem Counted.list {a : Nat} (h : Counted g hreg mem c₀ s B P)
    (hcells : ∀ s' B', Counted g hreg mem c₀ s' B' P → B ⊆ B' → ∀ x, BlockCell mem (.list a) x →
      CountsCell g hreg len mem c₀ P s' B' x) :
    Counts g hreg len mem c₀ P s B (.list a) (.list a) := by
  obtain ⟨N1, k1, s1, B1, hrun1, hstep1, hcov1⟩ := hcells s B h subset_rfl a .head
  obtain ⟨N2, k2, s2, B2, hrun2, hstep2, hcov2⟩ :=
    hcells s1 B1 hstep1.counted hstep1.grow (a + 1) .tail
  have hstep := (hstep1.trans hstep2).block (u := .list a) (fun _ => Cell.noConfusion) (by
    intro x hx
    cases hx with
    | head => exact hcov1.mono hstep2.grow
    | tail => exact hcov2)
  refine ⟨N1 + N2 + 1, _, s2, _, fun n hn => ?_, hstep, fun _ => Finset.mem_insert_self _ _⟩
  obtain ⟨n, rfl⟩ := Nat.exists_eq_add_of_le' (show 1 ≤ n by omega)
  have h1 := hrun1 n (by omega)
  have h2 := hrun2 n (by omega)
  obtain ⟨c1, hc1, h1⟩ := bind_eq_some_iff.mp h1
  obtain ⟨c2, hc2, h2⟩ := bind_eq_some_iff.mp h2
  rw [termSize, hc1, bind_some, h1, bind_some]
  simp only [hc2, bind_some, h2, map_some, blockSize, Nat.add_assoc]

theorem Counted.args {a : Nat} {l : List Nat} (h : Counted g hreg mem c₀ s B P)
    (hcells : ∀ j ∈ l, ∀ s' B', Counted g hreg mem c₀ s' B' P → B ⊆ B' →
      CountsCell g hreg len mem c₀ P s' B' (a + 1 + j)) (acc : Nat) :
    ∃ N k s' B', (∀ n ≥ N, (l.foldlM (fun (k, s) j =>
        (Heap.deref s.mem len (s.mem (a + 1 + j))).bind fun c =>
          (termSize hreg len n c s).map fun (k', s) => (k + k', s)) (acc, s)) =
        some (acc + k, s')) ∧
      Counting g hreg mem c₀ P B k s' B' ∧ ∀ j ∈ l, Covered g mem B' (mem (a + 1 + j)) := by
  induction l generalizing s B acc with
  | nil => exact ⟨0, 0, s, B, fun _ _ => rfl, .refl h, fun j hj => by cases hj⟩
  | cons j l ih =>
    obtain ⟨N1, k1, s1, B1, hrun1, hstep1, hcov1⟩ :=
      hcells j mem_cons_self s B h subset_rfl
    obtain ⟨N2, k2, s2, B2, hrun2, hstep2, hcov2⟩ := ih hstep1.counted
      (fun i hi s' B' h' hB =>
        hcells i (mem_cons_of_mem _ hi) s' B' h' (hstep1.grow.trans hB)) (acc + k1)
    refine ⟨N1 + N2, k1 + k2, s2, B2, fun n hn => ?_, hstep1.trans hstep2, fun i hi => ?_⟩
    · obtain ⟨c, hc, h1⟩ := bind_eq_some_iff.mp (hrun1 n (by omega))
      rw [foldlM_cons]
      simp only [hc, bind_some, h1, map_some]
      rw [← Nat.add_assoc]
      exact hrun2 n (by omega)
    · rcases mem_cons.mp hi with rfl | hi
      · exact hcov1.mono hstep2.grow
      · exact hcov2 i hi

theorem Counted.struct {a : Nat} {psc : Psc} (hterm : HeapTerm g hreg mem c₀)
    (hr : Reaches g.isinternstr mem c₀ (.cs a)) (hint : g.isinternstr (.cs a) = false)
    (hpsc : mem a = .functor psc) (h : Counted g hreg mem c₀ s B P)
    (hcells : ∀ s' B', Counted g hreg mem c₀ s' B' P → B ⊆ B' → ∀ x, BlockCell mem (.cs a) x →
      CountsCell g hreg len mem c₀ P s' B' x) :
    Counts g hreg len mem c₀ P s B (.cs a) (.cs a) := by
  have hfunctor : s.mem a = .functor psc := by
    have hne : a ≠ hreg := by
      obtain ⟨-, psc', -, hlt⟩ := hterm.cs a hr hint
      omega
    rw [h.same a hne fun hB => ?_, hpsc]
    have hfree := (h.attvs a hB).2.1
    rw [hpsc] at hfree
    cases hfree
  obtain ⟨N, k, s', B', hrun, hstep, hcov⟩ := h.args (l := List.range psc.arity)
    (fun j hj s' B' h' hB =>
      hcells s' B' h' hB _ (.arg hpsc (mem_range.mp hj))) (psc.arity + 1)
  have hblock := hstep.block (u := .cs a) (fun _ => Cell.noConfusion) (by
    intro x hx
    cases hx with
    | arg hpsc' hj =>
      cases hpsc.symm.trans hpsc'
      exact hcov _ (mem_range.mpr hj))
  have hsize : blockSize mem (.cs a) = psc.arity + 1 := by
    simp only [blockSize, hpsc]
  rw [hsize] at hblock
  refine ⟨N + 1, _, s', _, fun n hn => ?_, hblock, fun _ => Finset.mem_insert_self _ _⟩
  obtain ⟨n, rfl⟩ := Nat.exists_eq_add_of_le' (show 1 ≤ n by omega)
  rw [termSize]
  simp only [hfunctor]
  exact hrun n (by omega)

/-! ### Attributed variables -/

/-- The attribute of a variable is counted whole: no reference leads from its cell to a list, a
structure or an attributed variable, and if its word is an attributed variable, that is free. -/
inductive Attribute (intern : Cell → Bool) (mem : Nat → Cell) : Nat → Prop
  | word {a : Nat} : isVar (mem (a + 1)) = false → Attribute intern mem a
  | ref {a b : Nat} {v : Cell} : mem (a + 1) = .ref b → EndsAt mem (.ref b) v →
      isBlock intern v = false → Attribute intern mem a
  | attv {a b : Nat} : mem (a + 1) = .attv b → mem b = .ref b → Attribute intern mem b →
      Attribute intern mem a

@[simp] theorem CopyState.count_hreg (s : CopyState) (hreg a : Nat) :
    (s.count hreg a).mem hreg = .ref hreg := update_self ..

theorem CopyState.count_self (s : CopyState) {hreg a : Nat} (h : a ≠ hreg) :
    (s.count hreg a).mem a = .attv hreg := by
  rw [count, write_of_ne _ _ h]
  exact update_self ..

theorem CopyState.count_of_ne (s : CopyState) {hreg a y : Nat} (hy : y ≠ hreg) (hne : y ≠ a) :
    (s.count hreg a).mem y = s.mem y := by
  rw [count, write_of_ne _ _ hy]
  exact update_of_ne hne _ _

theorem Counted.count {a : Nat} (hterm : HeapTerm g hreg mem c₀)
    (hr : Reaches g.isinternstr mem c₀ (.attv a)) (hfree : mem a = .ref a)
    (h : Counted g hreg mem c₀ s B P) :
    Counted g hreg mem c₀ (s.count hreg a) (insert (.attv a) B) fun b => P b ∨ b = a := by
  have hmem : ∀ b, .attv b ∈ insert (.attv a : Cell) B → b ≠ a → .attv b ∈ B := by
    intro b hb hne
    refine (Finset.mem_insert.mp hb).resolve_left fun he => ?_
    cases he
    exact hne rfl
  have hlt : ∀ b, Reaches g.isinternstr mem c₀ (.attv b) → b ≠ hreg := by
    intro b hb
    have := (hterm.attv b hb).2
    omega
  constructor
  case attvs =>
    intro b hb
    by_cases he : b = a
    · rw [he]
      exact ⟨hr, hfree, s.count_self (hlt a hr)⟩
    · obtain ⟨hrb, hfb, hm⟩ := h.attvs b (hmem b hb he)
      exact ⟨hrb, hfb, (s.count_of_ne (hlt b hrb) he).trans hm⟩
  case same =>
    intro y hy hB
    rw [Finset.mem_insert, not_or] at hB
    rw [s.count_of_ne hy fun he => hB.1 (congrArg Cell.attv he)]
    exact h.same y hy hB.2
  case free => exact fun b _ => s.count_hreg hreg a
  case trail =>
    intro p hp
    rcases mem_cons.mp hp with rfl | hp
    · exact hfree.symm
    · exact h.trail p hp
  case trailed =>
    intro b hb
    by_cases he : b = a
    · exact ⟨_, mem_cons_self, he.symm⟩
    · obtain ⟨p, hp, hpb⟩ := h.trailed b (hmem b hb he)
      exact ⟨p, mem_cons_of_mem _ hp, hpb⟩
  case closed =>
    intro v hv hP x hx
    apply Covered.mono (Finset.subset_insert _ B)
    rcases Finset.mem_insert.mp hv with rfl | hv
    · exact absurd (.inr rfl) (hP a rfl)
    · exact h.closed v hv (fun b hb hPb => hP b hb (.inl hPb)) x hx

/-- The attribute of a variable has been counted. -/
theorem Counted.settle {a : Nat} (h : Counted g hreg mem c₀ s B fun b => P b ∨ b = a)
    (ha : Covered g mem B (mem (a + 1))) : Counted g hreg mem c₀ s B P where
  attvs := h.attvs
  same := h.same
  free := h.free
  trail := h.trail
  trailed := h.trailed
  closed v hv hP x hx := by
    by_cases he : v = .attv a
    · subst he
      cases hx with
      | attr => exact ha
    · refine h.closed v hv (fun b hb hPb => ?_) x hx
      rcases hPb with hPb | rfl
      · exact hP b hb hPb
      · exact he hb

theorem Counted.attv {a : Nat} (hterm : HeapTerm g hreg mem c₀)
    (hr : Reaches g.isinternstr mem c₀ (.attv a)) (hfree : mem a = .ref a)
    (h : Counted g hreg mem c₀ s B P) (hu : EndsAt mem (mem (a + 1)) u)
    (hattr : Counts g hreg len mem c₀ (fun b => P b ∨ b = a) (s.count hreg a)
      (insert (.attv a) B) (mem (a + 1)) u) :
    Counts g hreg len mem c₀ P s B (.attv a) (.attv a) := by
  obtain ⟨N, k, s', B', hrun, hstep, hmem⟩ := hattr
  have hlt := (hterm.attv a hr).2
  have hattv : (s.count hreg a).mem (a + 1) = mem (a + 1) :=
    (h.count hterm hr hfree).read hterm (.attr hr hfree) (by omega)
  have hblock : Counting g hreg mem c₀ P B (2 + k) s' B' := by
    constructor
    case grow => exact (Finset.subset_insert _ _).trans hstep.grow
    case counted => exact hstep.counted.settle ⟨u, hu, hmem⟩
    case sum =>
      have hsum := hstep.sum
      by_cases hB : .attv a ∈ B
      · rw [Finset.insert_eq_of_mem hB] at hsum
        omega
      · rw [Finset.sum_insert hB] at hsum
        simp only [blockSize] at hsum ⊢
        omega
  refine ⟨N + 1, 2 + k, s', B', fun n hn => ?_, hblock, fun _ =>
    hstep.grow (Finset.mem_insert_self _ _)⟩
  obtain ⟨n, rfl⟩ := Nat.exists_eq_add_of_le' (show 1 ≤ n by omega)
  rw [termSize, if_pos (by omega)]
  simp only [hattv, hrun n (by omega), map_some]

/-! ### Interned terms -/

/-- `term_size` finds `k` for the word, in whatever state, and marks nothing. -/
def Constant (g : Glstack) (hreg len : Nat) (mem : Nat → Cell) (c : Cell) : Prop :=
  ∃ N k, ∀ n ≥ N, ∀ s : CopyState, (∀ y, y < g.low ∨ g.high < y → s.mem y = mem y) →
    termSize hreg len n c s = some (k, s)

theorem Constant.zero (h : ∀ n s, termSize hreg len (n + 1) c s = some (0, s)) :
    Constant g hreg len mem c := by
  refine ⟨1, 0, fun n hn s _ => ?_⟩
  obtain ⟨n, rfl⟩ := Nat.exists_eq_add_of_le' hn
  exact h n s

theorem Constant.args {a : Nat} {l : List Nat}
    (hout : ∀ j ∈ l, a + 1 + j < g.low ∨ g.high < a + 1 + j)
    (hderef : ∀ j ∈ l, ∀ m, Heap.deref m len (mem (a + 1 + j)) = some (mem (a + 1 + j)))
    (hargs : ∀ j ∈ l, Constant g hreg len mem (mem (a + 1 + j))) :
    ∃ N k, ∀ n ≥ N, ∀ s : CopyState, (∀ y, y < g.low ∨ g.high < y → s.mem y = mem y) → ∀ acc,
      (l.foldlM (fun (k, s) j =>
        (Heap.deref s.mem len (s.mem (a + 1 + j))).bind fun c =>
          (termSize hreg len n c s).map fun (k', s) => (k + k', s)) (acc, s)) =
        some (acc + k, s) := by
  induction l with
  | nil => exact ⟨0, 0, fun _ _ _ _ _ => rfl⟩
  | cons j l ih =>
    obtain ⟨N1, k1, h1⟩ := hargs j mem_cons_self
    obtain ⟨N2, k2, h2⟩ := ih (fun i hi => hout i (mem_cons_of_mem _ hi))
      (fun i hi => hderef i (mem_cons_of_mem _ hi))
      fun i hi => hargs i (mem_cons_of_mem _ hi)
    refine ⟨N1 + N2, k1 + k2, fun n hn s hs acc => ?_⟩
    rw [foldlM_cons]
    simp only [hs _ (hout j mem_cons_self), hderef j mem_cons_self, bind_some,
      h1 n (by omega) s hs, map_some]
    rw [← Nat.add_assoc]
    exact h2 n (by omega) s hs (acc + k1)

theorem Record.deref (hc : Record g mem c) (hlen : 0 < len) (m : Nat → Cell) :
    Heap.deref m len c = some c := by
  obtain ⟨len, rfl⟩ := Nat.exists_eq_add_of_le' hlen
  apply deref_other
  cases hc with
  | _ => rfl

/-- Interned terms are counted as often as they occur. -/
theorem Record.constant (hc : Record g mem c) (hlen : 0 < len) :
    Constant g hreg len mem c := by
  induction hc with
  | int | string | float => exact .zero fun _ _ => rfl
  | @list a hout hhead htail ih1 ih2 =>
    obtain ⟨N1, k1, h1⟩ := ih1
    obtain ⟨N2, k2, h2⟩ := ih2
    refine ⟨N1 + N2 + 1, 2 + k1 + k2, fun n hn s hs => ?_⟩
    obtain ⟨n, rfl⟩ := Nat.exists_eq_add_of_le' (show 1 ≤ n by omega)
    rw [termSize, hs a (hout 0 (by omega)), hhead.deref hlen, bind_some,
      h1 n (by omega) s hs, bind_some]
    simp only [hs (a + 1) (hout 1 (by omega)), htail.deref hlen, bind_some,
      h2 n (by omega) s hs, map_some]
  | @cs a psc hpsc hout hargs ih =>
    have hout' : ∀ j ∈ List.range psc.arity, a + 1 + j < g.low ∨ g.high < a + 1 + j := by
      intro j hj
      have hj := mem_range.mp hj
      have := hout (j + 1) (by omega)
      rwa [← Nat.add_assoc, Nat.add_right_comm] at this
    obtain ⟨N, k, h⟩ := Constant.args hout'
      (fun j hj => (hargs j (mem_range.mp hj)).deref hlen)
      fun j hj => ih j (mem_range.mp hj)
    refine ⟨N + 1, psc.arity + 1 + k, fun n hn s hs => ?_⟩
    obtain ⟨n, rfl⟩ := Nat.exists_eq_add_of_le' (show 1 ≤ n by omega)
    rw [termSize]
    have hfunctor : s.mem a = .functor psc := by
      rw [hs a (hout 0 (by omega)), hpsc]
    simp only [hfunctor]
    exact h n (by omega) s hs (psc.arity + 1)

theorem Counted.outside (hterm : HeapTerm g hreg mem c₀) (h : Counted g hreg mem c₀ s B P)
    (hlow : g.low ≤ hreg) (hhigh : hreg ≤ g.high) (hy : y < g.low ∨ g.high < y) :
    s.mem y = mem y := by
  refine h.same y (by omega) fun hB => ?_
  have := hterm.attv y (h.attvs y hB).1
  omega

theorem Counted.constant (hterm : HeapTerm g hreg mem c₀) (h : Counted g hreg mem c₀ s B P)
    (hlow : g.low ≤ hreg) (hhigh : hreg ≤ g.high) (hc : Constant g hreg len mem c)
    (hu : isBlock g.isinternstr u = false) : Counts g hreg len mem c₀ P s B c u := by
  obtain ⟨N, k, hrun⟩ := hc
  refine ⟨N, k, s, B, fun n hn => ?_, .refl h, fun hb => ?_⟩
  · exact hrun n hn s fun y hy => h.outside hterm hlow hhigh hy
  · rw [hu] at hb
    cases hb

/-! ### The whole term -/

/-- The attributed variables that have not been counted. -/
def uncounted (g : Glstack) (hreg : Nat) (B : Finset Cell) : Nat :=
  ((Finset.Ico g.low hreg).filter fun a => .attv a ∉ B).card

theorem uncounted_mono (hB : B ⊆ B') : uncounted g hreg B' ≤ uncounted g hreg B := by
  apply Finset.card_le_card
  intro a ha
  rw [Finset.mem_filter] at ha ⊢
  exact ⟨ha.1, fun h => ha.2 (hB h)⟩

theorem uncounted_insert {a : Nat} (ha : g.low ≤ a ∧ a < hreg) (hB : .attv a ∉ B) :
    uncounted g hreg (insert (.attv a) B) < uncounted g hreg B := by
  apply Finset.card_lt_card
  refine ⟨fun b hb => ?_, fun hsub => ?_⟩
  · rw [Finset.mem_filter] at hb ⊢
    exact ⟨hb.1, fun h => hb.2 (Finset.mem_insert_of_mem h)⟩
  · have hmem : a ∈ (Finset.Ico g.low hreg).filter fun b => .attv b ∉ B :=
      Finset.mem_filter.mpr ⟨Finset.mem_Ico.mpr ha, hB⟩
    exact (Finset.mem_filter.mp (hsub hmem)).2 (Finset.mem_insert_self _ _)

/-- Words are counted where less than `M` attributed variables are left. -/
def CountsWords (g : Glstack) (hreg len : Nat) (mem : Nat → Cell) (c₀ : Cell) (M : Nat) : Prop :=
  ∀ s B P, Counted g hreg mem c₀ s B P → uncounted g hreg B < M → ∀ n u t c,
    denote g.isinternstr mem n u = some t → Reaches g.isinternstr mem c₀ u →
    (∀ a, u = .ref a ∨ u = .attv a → mem a = .ref a) → StandsFor hreg B u c →
    Counts g hreg len mem c₀ P s B c u

variable {M : Nat}

theorem Attribute.counts {a : Nat} (ha : Attribute g.isinternstr mem a)
    (hterm : HeapTerm g hreg mem c₀) (hlow : g.low ≤ hreg) (hhigh : hreg ≤ g.high)
    (hwords : CountsWords g hreg len mem c₀ M) (hr : Reaches g.isinternstr mem c₀ (.attv a))
    (hfree : mem a = .ref a) (h : Counted g hreg mem c₀ s B P)
    (hM : uncounted g hreg (insert (.attv a) B) < M) :
    Counts g hreg len mem c₀ P s B (.attv a) (.attv a) := by
  induction ha generalizing s B P with
  | @word a hnv =>
    have hattr := Reaches.attr hr hfree
    obtain ⟨n, t, ht⟩ := hterm.finite _ hattr
    refine h.attv hterm hr hfree ⟨1, deref_other hnv 0⟩ ?_
    refine hwords _ _ _ (h.count hterm hr hfree) hM n _ t _ ht hattr ?_ (.inl ⟨rfl, ?_⟩)
    · intro b hb
      rcases hb with hb | hb <;> rw [hb] at hnv <;> cases hnv
    · intro b hb
      rw [hb] at hnv
      cases hnv
  | @ref a b v hb hv hblock =>
    refine h.attv (u := v) hterm hr hfree (by rw [hb]; exact hv) ?_
    rw [hb]
    exact (h.count hterm hr hfree).constant hterm hlow hhigh (.zero fun _ _ => rfl) hblock
  | @attv a b hb hfreeb _ ih =>
    have hrb : Reaches g.isinternstr mem c₀ (.attv b) := hb ▸ Reaches.attr hr hfree
    refine h.attv (u := .attv b) hterm hr hfree (by rw [hb]; exact ⟨1, if_pos hfreeb⟩) ?_
    rw [hb]
    refine ih hrb hfreeb (h.count hterm hr hfree) ?_
    exact (uncounted_mono (Finset.subset_insert _ _)).trans_lt hM

theorem countsWords (hterm : HeapTerm g hreg mem c₀) (hlow : g.low ≤ hreg) (hhigh : hreg ≤ g.high)
    (hattr : ∀ a, Reaches g.isinternstr mem c₀ (.attv a) → mem a = .ref a →
      Attribute g.isinternstr mem a)
    (hlen : ∀ c, Reaches g.isinternstr mem c₀ c → ∃ v, Heap.deref mem len c = some v) :
    ∀ M, CountsWords g hreg (len + 1) mem c₀ M := by
  intro M
  induction M with
  | zero => exact fun s B P _ hM => absurd hM (Nat.not_lt_zero _)
  | succ M ihM =>
    intro s B P h hM n u t c ht hr hnormal hstands
    induction n generalizing s B P u t c with
    | zero => cases ht
    | succ n ih =>
      -- the cells of a list or a structure, whose words have smaller terms
      have hcell : ∀ s' B', Counted g hreg mem c₀ s' B' P → B ⊆ B' → ∀ x t,
          Reaches g.isinternstr mem c₀ (mem x) → x ≠ hreg →
          denote g.isinternstr mem n (mem x) = some t →
          CountsCell g hreg (len + 1) mem c₀ P s' B' x := by
        intro s' B' h' hB x t hx hne ht
        obtain ⟨v, hv⟩ := hlen _ hx
        refine h'.cell hterm hx hne hv (Nat.lt_succ_self _) fun c hc => ?_
        refine ih s' B' P h' ((uncounted_mono hB).trans_lt hM) v t c (denote_ends ⟨_, hv⟩ ht)
          (hx.ends ⟨_, hv⟩) (fun a ha => deref_free hv ha) hc
      have hzero : (∀ n s, termSize hreg (len + 1) (n + 1) u s = some (0, s)) →
          isBlock g.isinternstr u = false → (∀ a, u ≠ .attv a) →
          Counts g hreg (len + 1) mem c₀ P s B c u := by
        intro hz hb hne
        rcases hstands with ⟨rfl, -⟩ | ⟨a, ha, -⟩
        · exact h.constant hterm hlow hhigh (.zero hz) hb
        · exact absurd ha (hne a)
      cases u with
      | ref a => exact hzero (fun _ _ => rfl) rfl fun _ => Cell.noConfusion
      | int i | string x | float x => exact hzero (fun _ _ => rfl) rfl fun _ => Cell.noConfusion
      | functor p => cases ht
      | attv a =>
        rcases hstands with ⟨rfl, hnot⟩ | ⟨b, hb, hB, rfl⟩
        · have hfree := hnormal a (.inr rfl)
          obtain ⟨hlow', hlt⟩ := hterm.attv a hr
          have hfewer : uncounted g hreg (insert (.attv a) B) < uncounted g hreg B :=
            uncounted_insert ⟨hlow', by omega⟩ (hnot a rfl)
          exact (hattr a hr hfree).counts hterm hlow hhigh ihM hr hfree h (by omega)
        · cases hb
          refine ⟨1, 0, s, B, fun n hn => ?_, .refl h, fun _ => hB⟩
          obtain ⟨n, rfl⟩ := Nat.exists_eq_add_of_le' hn
          exact if_neg (Nat.lt_irrefl _)
      | list a =>
        have hc : c = .list a := by
          rcases hstands with ⟨hc, -⟩ | ⟨b, hb, -⟩
          · exact hc
          · cases hb
        subst hc
        by_cases hint : g.isinternstr (.list a) = true
        · exact h.constant hterm hlow hhigh ((hterm.record _ hr hint).constant (Nat.succ_pos _))
            (by simp [isBlock, hint])
        · rw [Bool.not_eq_true] at hint
          rw [denote, if_neg (by rw [hint]; exact Bool.false_ne_true)] at ht
          obtain ⟨head, hhead, ht⟩ := bind_eq_some_iff.mp ht
          obtain ⟨tail, htail, -⟩ := map_eq_some_iff.mp ht
          have hlt := (hterm.list a hr hint).2
          refine h.list fun s' B' h' hB x hx => ?_
          cases hx with
          | head => exact hcell s' B' h' hB a head (.head hr hint) (by omega) hhead
          | tail => exact hcell s' B' h' hB (a + 1) tail (.tail hr hint) (by omega) htail
      | cs a =>
        have hc : c = .cs a := by
          rcases hstands with ⟨hc, -⟩ | ⟨b, hb, -⟩
          · exact hc
          · cases hb
        subst hc
        by_cases hint : g.isinternstr (.cs a) = true
        · exact h.constant hterm hlow hhigh ((hterm.record _ hr hint).constant (Nat.succ_pos _))
            (by simp [isBlock, hint])
        · rw [Bool.not_eq_true] at hint
          obtain ⟨-, psc, hpsc, hlt⟩ := hterm.cs a hr hint
          rw [denote, if_neg (by rw [hint]; exact Bool.false_ne_true)] at ht
          simp only [hpsc] at ht
          obtain ⟨ts, hts, -⟩ := map_eq_some_iff.mp ht
          refine h.struct hterm hr hint hpsc fun s' B' h' hB x hx => ?_
          cases hx with
          | @arg _ j psc' hpsc' hj =>
            cases hpsc.symm.trans hpsc'
            obtain ⟨t, ht⟩ := exists_of_mapM hts j (mem_range.mpr hj)
            exact hcell s' B' h' hB _ t (.arg hr hint hpsc hj) (by omega) ht

/-- Whatever is reached has been counted. -/
theorem Counted.covered (h : Counted g hreg mem c₀ s B fun _ => False)
    (h0 : Covered g mem B c₀) (hr : Reaches g.isinternstr mem c₀ c) : Covered g mem B c := by
  have hmem : ∀ {u}, Covered g mem B u → isBlock g.isinternstr u = true → EndsAt mem u u →
      u ∈ B := by
    rintro u ⟨v, hv, hb⟩ hu hend
    cases hv.unique hend
    exact hb hu
  have hcell : ∀ {u x}, u ∈ B → BlockCell mem u x → Covered g mem B (mem x) := fun hu hx =>
    h.closed _ hu (fun _ _ hf => hf) _ hx
  induction hr with
  | refl => exact h0
  | ref _ hne ih | bound _ hne ih =>
    obtain ⟨u, ⟨n, hn⟩, hb⟩ := ih
    cases n with
    | zero => cases hn
    | succ n =>
      rw [Heap.deref, if_neg hne] at hn
      exact ⟨u, ⟨n, hn⟩, hb⟩
  | attr _ hfree ih => exact hcell (hmem ih rfl ⟨1, if_pos hfree⟩) .attr
  | head _ hint ih => exact hcell (hmem ih (by simp [isBlock, hint]) ⟨1, rfl⟩) .head
  | tail _ hint ih => exact hcell (hmem ih (by simp [isBlock, hint]) ⟨1, rfl⟩) .tail
  | arg _ hint hpsc hj ih =>
    exact hcell (hmem ih (by simp [isBlock, hint]) ⟨1, rfl⟩) (.arg hpsc hj)

/-- `term_size` leaves the term as it was, but for what `findall_untrail` puts back, and counts all
cells of the lists, the structures and the attributed variables. -/
theorem termSize_spec (hterm : HeapTerm g hreg mem c₀) (hlow : g.low ≤ hreg)
    (hhigh : hreg ≤ g.high)
    (hattr : ∀ a, Reaches g.isinternstr mem c₀ (.attv a) → mem a = .ref a →
      Attribute g.isinternstr mem a)
    (hlen : ∀ c, Reaches g.isinternstr mem c₀ c → ∃ v, Heap.deref mem len c = some v)
    (hmem : s.mem = mem) (htrail : s.trail = []) (hv : EndsAt mem c₀ v) :
    ∃ N k s', (∀ n ≥ N, termSize hreg (len + 1) n v s = some (k, s')) ∧
      (∀ y ≠ hreg, untrail s'.trail s'.mem y = mem y) ∧
      ∀ T : Finset Cell, (∀ u ∈ T, Reaches g.isinternstr mem c₀ u ∧
        isBlock g.isinternstr u = true ∧ EndsAt mem u u) → ∑ u ∈ T, blockSize mem u ≤ k := by
  have hstart : Counted g hreg mem c₀ s ∅ fun _ => False := by
    constructor
    case attvs => exact fun a ha => absurd ha (Finset.notMem_empty _)
    case same => exact fun y _ _ => congrFun hmem y
    case free => exact fun a ha => absurd ha (Finset.notMem_empty _)
    case trail =>
      intro p hp
      rw [htrail] at hp
      cases hp
    case trailed => exact fun a ha => absurd ha (Finset.notMem_empty _)
    case closed => exact fun v hv => absurd hv (Finset.notMem_empty _)
  obtain ⟨n, t, ht⟩ := hterm.finite c₀ .refl
  have hnormal : ∀ a, v = .ref a ∨ v = .attv a → mem a = .ref a := by
    intro a ha
    obtain ⟨m, hm⟩ := hv
    exact deref_free hm ha
  obtain ⟨N, k, s', B, hrun, hstep, hB⟩ := countsWords hterm hlow hhigh hattr hlen _ s ∅ _ hstart
    (Nat.lt_succ_self _) n v t v (denote_ends hv ht) (Reaches.refl.ends hv) hnormal
    (.inl ⟨rfl, fun a _ => Finset.notMem_empty _⟩)
  refine ⟨N, k, s', hrun, fun y hy => hstep.counted.undo hy, fun T hT => ?_⟩
  have hsub : T ⊆ B := by
    intro u hu
    obtain ⟨hr, hb, hend⟩ := hT u hu
    obtain ⟨w, hw, hmem⟩ := hstep.counted.covered ⟨v, hv, hB⟩ hr
    cases hw.unique hend
    exact hmem hb
  have hsum := hstep.sum
  rw [Finset.sum_empty, Nat.zero_add] at hsum
  exact (Finset.sum_le_sum_of_subset hsub).trans hsum

end XSBEngine.Copying
