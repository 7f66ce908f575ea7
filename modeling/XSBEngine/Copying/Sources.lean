import Mathlib
import XSBEngine.Copying.Terms

/-!
# Terms of the heap

The terms that are copied: finitely many words are reached, and each denotes a finite term.
-/

namespace XSBEngine.Copying

open Finset XSBEngine.Heap

/-- A word that occurs in interned terms, whose records are outside of the global stack. -/
inductive Record (g : Glstack) (mem : Nat → Cell) : Cell → Prop
  | int {i : Int} : Record g mem (.int i)
  | string {x : CString} : Record g mem (.string x)
  | float {x : Float64} : Record g mem (.float x)
  | list {a : Nat} : (∀ j < 2, a + j < g.low ∨ g.high < a + j) → Record g mem (mem a) →
      Record g mem (mem (a + 1)) → Record g mem (.list a)
  | cs {a : Nat} {psc : Psc} : mem a = .functor psc →
      (∀ j < psc.arity + 1, a + j < g.low ∨ g.high < a + j) →
      (∀ j < psc.arity, Record g mem (mem (a + 1 + j))) → Record g mem (.cs a)

/-- The words that are reached from `c₀` lead to cells of the heap or to interned terms, and denote
finite terms. The cell of an attributed variable is not reached as another free variable. -/
structure HeapTerm (g : Glstack) (hreg : Nat) (mem : Nat → Cell) (c₀ : Cell) : Prop where
  ref : ∀ a, Reaches g.isinternstr mem c₀ (.ref a) → g.low ≤ a ∧ a < hreg
  attv : ∀ a, Reaches g.isinternstr mem c₀ (.attv a) → g.low ≤ a ∧ a + 1 < hreg
  list : ∀ a, Reaches g.isinternstr mem c₀ (.list a) → g.isinternstr (.list a) = false →
    g.low ≤ a ∧ a + 1 < hreg
  cs : ∀ a, Reaches g.isinternstr mem c₀ (.cs a) → g.isinternstr (.cs a) = false →
    g.low ≤ a ∧ ∃ psc, mem a = .functor psc ∧ a + psc.arity < hreg
  separate : ∀ a, Reaches g.isinternstr mem c₀ (.ref a) → Reaches g.isinternstr mem c₀ (.attv a) →
    mem a ≠ .ref a
  finite : ∀ c, Reaches g.isinternstr mem c₀ c → ∃ n t, denote g.isinternstr mem n c = some t
  record : ∀ c, Reaches g.isinternstr mem c₀ c → g.isinternstr c = true → Record g mem c

variable {g : Glstack} {hreg : Nat} {mem : Nat → Cell} {c₀ c v : Cell}

theorem Reaches.ends {intern : Cell → Bool} (hc : Reaches intern mem c₀ c)
    (hv : EndsAt mem c v) : Reaches intern mem c₀ v := by
  obtain ⟨n, hn⟩ := hv
  induction n generalizing c with
  | zero => cases hn
  | succ n ih =>
    cases c with
    | ref a =>
      by_cases ha : mem a = .ref a
      · rw [deref, if_pos ha] at hn
        cases hn
        exact hc
      · rw [deref, if_neg ha] at hn
        exact ih (.ref hc ha) hn
    | attv a =>
      by_cases ha : mem a = .ref a
      · rw [deref, if_pos ha] at hn
        cases hn
        exact hc
      · rw [deref, if_neg ha] at hn
        exact ih (.bound hc ha) hn
    | _ =>
      cases hn
      exact hc

theorem HeapTerm.ends (h : HeapTerm g hreg mem c₀) (hc : Reaches g.isinternstr mem c₀ c) :
    ∃ v, EndsAt mem c v := by
  obtain ⟨n, t, ht⟩ := h.finite c hc
  obtain ⟨v, hv⟩ := ends_of_denote ht
  exact ⟨v, n, hv⟩

/-- A list, a structure or an attributed variable, but for interned terms. -/
def isBlock (intern : Cell → Bool) : Cell → Bool
  | .list a => !intern (.list a)
  | .cs a => !intern (.cs a)
  | .attv _ => true
  | _ => false

/-- The words that are reached are in the cells of the heap. -/
theorem HeapTerm.read (h : HeapTerm g hreg mem c₀) (hc : Reaches g.isinternstr mem c₀ c) :
    c = c₀ ∨ ∃ x ∈ Finset.Ico g.low hreg, c = mem x := by
  have hcell : ∀ {x}, g.low ≤ x ∧ x < hreg →
      mem x = c₀ ∨ ∃ y ∈ Finset.Ico g.low hreg, mem x = mem y :=
    fun hx => .inr ⟨_, mem_Ico.mpr hx, rfl⟩
  cases hc with
  | refl => exact .inl rfl
  | ref hr _ => exact hcell (h.ref _ hr)
  | bound hr _ | attr hr _ =>
    have := h.attv _ hr
    exact hcell (by omega)
  | head hr hint | tail hr hint =>
    have := h.list _ hr hint
    exact hcell (by omega)
  | @arg a j psc hr hint hpsc hj =>
    obtain ⟨hlow, psc', hpsc', hlt⟩ := h.cs _ hr hint
    cases hpsc.symm.trans hpsc'
    exact hcell (by omega)

/-- The words that are reached. -/
theorem HeapTerm.finite_reached (h : HeapTerm g hreg mem c₀) :
    {c | Reaches g.isinternstr mem c₀ c}.Finite := by
  apply (insert c₀ ((Finset.Ico g.low hreg).image mem)).finite_toSet.subset
  intro c hc
  rw [mem_coe, mem_insert, mem_image]
  rcases h.read hc with he | ⟨x, hx, he⟩
  · exact .inl he
  · exact .inr ⟨x, hx, he.symm⟩

/-- The chains of references have a bound. -/
theorem HeapTerm.bound (h : HeapTerm g hreg mem c₀) :
    ∃ L, ∀ len ≥ L, ∀ c, Reaches g.isinternstr mem c₀ c → ∃ v, deref mem len c = some v := by
  have hex : ∀ c, ∃ n, Reaches g.isinternstr mem c₀ c → ∃ v, deref mem n c = some v := by
    intro c
    by_cases hc : Reaches g.isinternstr mem c₀ c
    · obtain ⟨v, n, hn⟩ := h.ends hc
      exact ⟨n, fun _ => ⟨v, hn⟩⟩
    · exact ⟨0, fun hc' => absurd hc' hc⟩
  choose n hn using hex
  refine ⟨h.finite_reached.toFinset.sup n, fun len hlen c hc => ?_⟩
  obtain ⟨v, hv⟩ := hn c hc
  have hle : n c ≤ h.finite_reached.toFinset.sup n :=
    le_sup (f := n) (h.finite_reached.mem_toFinset.mpr hc)
  exact ⟨v, deref_mono hv (hle.trans hlen)⟩

/-- Lists, structures and attributed variables are reached at these words. -/
def blockWords (g : Glstack) (mem : Nat → Cell) (c₀ : Cell) : Set Cell :=
  {u | Reaches g.isinternstr mem c₀ u ∧ isBlock g.isinternstr u = true ∧ EndsAt mem u u}

theorem HeapTerm.finite_blocks (h : HeapTerm g hreg mem c₀) :
    (blockWords g mem c₀).Finite := h.finite_reached.subset fun _ hu => hu.1

/-- The words of a term are closed under what they lead to. -/
theorem HeapTerm.graph {σ : Setup} (h : HeapTerm g hreg σ.src c₀)
    (hintern : σ.K.isinternstr = g.isinternstr) (hold : σ.old = Finset.Ico g.low hreg)
    (hwords : ∀ c, c ∈ σ.words ↔ Reaches g.isinternstr σ.src c₀ c)
    (hblocks : σ.blocks = h.finite_blocks.toFinset)
    (hheads : ∀ a, Reaches g.isinternstr σ.src c₀ (.list a) → g.isinternstr (.list a) = false →
      σ.K.shared (σ.src a) = false)
    (hattr : ∀ a, Reaches g.isinternstr σ.src c₀ (.attv a) → σ.src a = .ref a →
      ¬EndsAt σ.src (σ.src (a + 1)) (.attv a))
    (harity : ∀ a psc, Reaches g.isinternstr σ.src c₀ (.cs a) → g.isinternstr (.cs a) = false →
      σ.src a = .functor psc → psc.arity ≤ σ.maxAr)
    (hlen : ∀ c, Reaches g.isinternstr σ.src c₀ c → ∃ v, deref σ.src (σ.len - 1) c = some v) :
    σ.Graph where
  ref a hr := by
    rw [hwords] at hr ⊢
    rw [hold]
    exact ⟨mem_Ico.mpr (h.ref a hr), fun hne => .ref hr hne⟩
  attv a hr := by
    rw [hwords] at hr ⊢
    have := h.attv a hr
    rw [hold]
    exact ⟨mem_Ico.mpr (by omega), fun hne => .bound hr hne⟩
  free a hr hfree := by
    rw [hwords] at hr ⊢
    have := h.attv a hr
    rw [hold, hblocks]
    refine ⟨mem_Ico.mpr (by omega), .attr hr hfree, ?_, hattr a hr hfree⟩
    exact h.finite_blocks.mem_toFinset.mpr ⟨hr, rfl, 1, if_pos hfree⟩
  list a hr hint := by
    rw [hwords] at hr ⊢
    rw [hintern] at hint
    have := h.list a hr hint
    rw [hold, hblocks, hwords]
    refine ⟨⟨mem_Ico.mpr (by omega), mem_Ico.mpr (by omega)⟩,
      ⟨.head hr hint, .tail hr hint⟩, ?_, hheads a hr hint⟩
    exact h.finite_blocks.mem_toFinset.mpr ⟨hr, congrArg (!·) hint, 1, rfl⟩
  cs a hr hint := by
    rw [hwords] at hr
    rw [hintern] at hint
    obtain ⟨hlow, psc, hpsc, hlt⟩ := h.cs a hr hint
    rw [hold, hblocks]
    refine ⟨mem_Ico.mpr (by omega), ?_, psc, hpsc, harity a psc hr hint hpsc,
      fun j hj => ?_⟩
    · exact h.finite_blocks.mem_toFinset.mpr ⟨hr, congrArg (!·) hint, 1, rfl⟩
    · rw [hwords]
      exact ⟨mem_Ico.mpr (by omega), .arg hr hint hpsc hj⟩
  functor psc hr := by
    rw [hwords] at hr
    obtain ⟨n, t, ht⟩ := h.finite _ hr
    cases n with
    | zero | succ n => cases ht
  ends c hc := by
    rw [hwords] at hc
    exact hlen c hc
  separate a hr hr' := by
    rw [hwords] at hr hr'
    exact h.separate a hr hr'
  blocks a ha := by
    rw [hblocks] at ha
    have := (h.finite_blocks.mem_toFinset.mp ha).2.1
    cases this

/-- Interned lists are at 30. -/
def smallGlstack : Glstack := ⟨1, 20, fun c => c = .list 30⟩

end XSBEngine.Copying
