import Mathlib
import XSBEngine.Strings.Table

/-!
# Chains of the string table

What the chains keep, and what searches, insertions and the expansion do to them.
-/

namespace XSBEngine.Strings

open Function List Option

open Heap (CString strcmp strcmp_eq_zero)
open Library StringTable

/-- The chains of the string table: each has the entries whose strings have its hash value, no
two entries have the same string, and `contains` counts the entries. -/
structure TableOK (shl : UInt8 → Nat → UInt64) (t : StringTable) (chains : Nat → List Addr) :
    Prop where
  size_pos : 0 < t.size
  chain : ∀ i, Linked t.next (t.table i) (chains i)
  contents : ∀ i, ∀ a ∈ chains i, ∃ s, t.string a = some s ∧ hash shl s 0 t.size = i
  distinct : ∀ a b s, t.string a = some s → t.string b = some s → a = b
  used : ∀ a, (t.string a).isSome → ∃ i, a ∈ chains i
  count : ∃ l : List Addr, l.Nodup ∧ (∀ a, a ∈ l ↔ (t.string a).isSome) ∧ t.contains = l.length

variable {shl : UInt8 → Nat → UInt64} {t t' : StringTable} {chains : Nat → List Addr}
  {l l₁ l₂ : List Addr} {a b : Addr} {p prev : Option Addr} {s str : CString} {i j n : Nat}

namespace TableOK

section

variable (h : TableOK shl t chains)
include h

theorem live (ha : a ∈ chains i) : (t.string a).isSome := by
  obtain ⟨s, hs, -⟩ := h.contents i a ha
  rw [hs]
  rfl

theorem index_lt (ha : a ∈ chains i) : i < t.size := by
  obtain ⟨s, -, rfl⟩ := h.contents i a ha
  exact Nat.mod_lt _ h.size_pos

/-- The chain of an entry is that of its string. -/
theorem mem_chain (hs : t.string a = some s) :
    a ∈ chains (hash shl s 0 t.size) := by
  obtain ⟨i, hi⟩ := h.used a (by rw [hs]; rfl)
  obtain ⟨s', hs', rfl⟩ := h.contents i a hi
  rw [hs] at hs'
  rwa [some.inj hs']

theorem disjoint (hij : i ≠ j) (hi : a ∈ chains i) :
    a ∉ chains j := by
  intro hj
  obtain ⟨s, hs, rfl⟩ := h.contents i a hi
  obtain ⟨s', hs', rfl⟩ := h.contents j a hj
  rw [hs] at hs'
  exact hij (by rw [some.inj hs'])

/-- No chain is longer than there are entries. -/
theorem length_le (i : Nat) : (chains i).length ≤ t.contains := by
  obtain ⟨l, -, hmem, hcount⟩ := h.count
  rw [hcount]
  apply (subperm_of_subset (h.chain i).nodup _).length_le
  intro a ha
  exact (hmem a).mpr (h.live ha)

end

end TableOK

/-! ### The search for a string -/

theorem search_found (prev : Option Addr) (hl : Linked t.next p l) (hn : l.length ≤ n)
    (hmarked : ∀ x, t.marked x = false) (hlive : ∀ x ∈ l, (t.string x).isSome)
    (hdistinct : ∀ x s, t.string x = some s → t.string a = some s → x = a)
    (ha : a ∈ l) (hs : t.string a = some str) :
    ∃ prev', t.search str n prev p = some (some a, prev') := by
  induction l generalizing p n prev with
  | nil => exact absurd ha not_mem_nil
  | cons b l ih =>
    obtain ⟨rfl, hrest⟩ := linked_cons.mp hl
    obtain ⟨n, rfl⟩ := Nat.exists_eq_succ_of_ne_zero (Nat.ne_of_gt (Nat.zero_lt_of_lt hn))
    obtain ⟨str0, hstr0⟩ := isSome_iff_exists.mp (hlive b mem_cons_self)
    simp only [StringTable.search, hstr0, bind_eq_bind, bind_some, strcmp_eq_zero]
    split
    next heq =>
      subst heq
      exact ⟨prev, by rw [hdistinct b str hstr0 hs]⟩
    next hne =>
      have hab : a ≠ b := by
        rintro rfl
        exact hne (some.inj (hs.symm.trans hstr0))
      simp only [nextField, hmarked b, Bool.false_eq_true, if_false, bind_some]
      exact ih (some b) hrest (Nat.le_of_succ_le_succ hn)
        (fun x hx => hlive x (mem_cons_of_mem b hx)) ((mem_cons.mp ha).resolve_left hab)

/-- A search that finds nothing ends at the last entry. -/
theorem search_none (prev : Option Addr) (hl : Linked t.next p l) (hn : l.length ≤ n)
    (hmarked : ∀ x, t.marked x = false) (hlive : ∀ x ∈ l, (t.string x).isSome)
    (hs : ∀ x ∈ l, t.string x ≠ some str) :
    t.search str n prev p = some (none, l.getLast?.or prev) := by
  induction l generalizing p n prev with
  | nil =>
    rw [linked_nil.mp hl]
    cases n <;> rfl
  | cons b l ih =>
    obtain ⟨rfl, hrest⟩ := linked_cons.mp hl
    obtain ⟨n, rfl⟩ := Nat.exists_eq_succ_of_ne_zero (Nat.ne_of_gt (Nat.zero_lt_of_lt hn))
    obtain ⟨str0, hstr0⟩ := isSome_iff_exists.mp (hlive b mem_cons_self)
    have hne : str ≠ str0 := by
      rintro rfl
      exact hs b mem_cons_self hstr0
    simp only [StringTable.search, hstr0, bind_eq_bind, bind_some, strcmp_eq_zero, if_neg hne,
      nextField, hmarked b, Bool.false_eq_true, if_false]
    rw [ih (some b) hrest (Nat.le_of_succ_le_succ hn)
      (fun x hx => hlive x (mem_cons_of_mem b hx))
      (fun x hx => hs x (mem_cons_of_mem b hx))]
    cases l with
    | nil => rfl
    | cons c l => rw [List.getLast?_cons_cons, List.getLast?_cons]; rfl

/-! ### A new entry -/

@[simp] theorem setLink_string : (t.setLink i p prev).string = t.string := by
  cases p <;> rfl

@[simp] theorem setLink_contains : (t.setLink i p prev).contains = t.contains := by
  cases p <;> rfl

@[simp] theorem setLink_size : (t.setLink i p prev).size = t.size := by
  cases p <;> rfl

theorem setLink_marked (hmarked : ∀ x, t.marked x = false) (x : Addr) :
    (t.setLink i p prev).marked x = false := by
  cases p with
  | none => exact hmarked x
  | some b =>
    show update t.marked b false x = false
    rw [update_apply, hmarked x, ite_self]

theorem setLink_table_of_ne (hj : j ≠ i) : (t.setLink i p prev).table j = t.table j := by
  cases p with
  | none => exact update_of_ne hj ..
  | some b => rfl

/-- The fields `next` of entries that are not in the chain do not change. -/
theorem setLink_next_of_notMem (ha : a ∉ l) :
    (t.setLink i l.getLast? p).next a = t.next a := by
  cases hlast : l.getLast? with
  | none => rfl
  | some b =>
    have hab : a ≠ b := fun heq => ha (heq ▸ mem_of_getLast? hlast)
    exact update_of_ne hab ..

/-- The chain of a new entry. -/
theorem append_chain (str : CString) (hl : Linked t.next (t.table i) l) (ha : a ∉ l) :
    Linked (t.append i l.getLast? a str).next ((t.append i l.getLast? a str).table i)
      (l ++ [a]) := by
  rcases eq_nil_or_concat l with rfl | ⟨l, b, rfl⟩
  · refine ⟨?_, ?_⟩
    · exact update_self ..
    · exact update_self ..
  · rw [concat_eq_append] at hl ha ⊢
    rw [List.getLast?_concat]
    exact hl.concat ha

theorem append_next_of_notMem (hb : b ∉ l) (hba : b ≠ a) :
    (t.append i l.getLast? a str).next b = t.next b :=
  (update_of_ne hba ..).trans (setLink_next_of_notMem hb)

theorem append_marked (hmarked : ∀ x, t.marked x = false) (x : Addr) :
    (t.append i p a str).marked x = false := by
  show update (t.setLink i p (some a)).marked a false x = false
  rw [update_apply, setLink_marked hmarked x, ite_self]

theorem append_string :
    (t.append i p a str).string = update t.string a (some str) := by
  show update (t.setLink i p (some a)).string a (some str) = _
  rw [setLink_string]

theorem append_contains : (t.append i p a str).contains = t.contains := setLink_contains

theorem append_size : (t.append i p a str).size = t.size := setLink_size

/-- A new entry, which `contains` counts. -/
theorem TableOK.append (h : TableOK shl t chains) (hstr : ∀ x, t.string x ≠ some str)
    (ha : t.string a = none) (hi : i = hash shl str 0 t.size) :
    TableOK shl
      { t.append i (chains i).getLast? a str with
        contains := (t.append i (chains i).getLast? a str).contains + 1 }
      (update chains i (chains i ++ [a])) := by
  have hnot : ∀ j, a ∉ chains j := by
    intro j hj
    have hlive := h.live hj
    rw [ha] at hlive
    cases hlive
  have hmem : ∀ j x, x ∈ update chains i (chains i ++ [a]) j ↔
      x ∈ chains j ∨ (j = i ∧ x = a) := by
    intro j x
    rw [update_apply]
    split
    next hji => simp [hji]
    next hji => simp [hji]
  constructor
  case size_pos =>
    show 0 < (t.append i (chains i).getLast? a str).size
    rw [append_size]
    exact h.size_pos
  case chain =>
    intro j
    by_cases hj : j = i
    · subst hj
      rw [update_self]
      exact append_chain str (h.chain j) (hnot j)
    · rw [update_of_ne hj]
      show Linked (t.append i (chains i).getLast? a str).next
        ((t.setLink i (chains i).getLast? (some a)).table j) (chains j)
      rw [setLink_table_of_ne hj]
      apply (h.chain j).congr
      intro x hx
      have hxa : x ≠ a := fun heq => hnot j (heq ▸ hx)
      exact (append_next_of_notMem (h.disjoint hj hx) hxa).symm
  case contents =>
    intro j x hx
    show ∃ s, (t.append i (chains i).getLast? a str).string x = some s ∧
      hash shl s 0 (t.append i (chains i).getLast? a str).size = j
    rw [append_string, append_size]
    obtain hx | ⟨rfl, rfl⟩ := (hmem j x).mp hx
    · have hxa : x ≠ a := fun heq => hnot j (heq ▸ hx)
      rw [update_of_ne hxa]
      exact h.contents j x hx
    · exact ⟨str, update_self .., hi.symm⟩
  case distinct =>
    intro x y s hx hy
    have hstring : ∀ z, (t.append i (chains i).getLast? a str).string z = some s →
        z = a ∧ s = str ∨ z ≠ a ∧ t.string z = some s := by
      intro z hz
      rw [append_string] at hz
      by_cases hza : z = a
      · subst hza
        rw [update_self] at hz
        exact Or.inl ⟨rfl, (some.inj hz).symm⟩
      · rw [update_of_ne hza] at hz
        exact Or.inr ⟨hza, hz⟩
    rcases hstring x hx with ⟨rfl, rfl⟩ | ⟨-, hx'⟩
    · rcases hstring y hy with ⟨rfl, -⟩ | ⟨-, hy'⟩
      · rfl
      · exact absurd hy' (hstr y)
    · rcases hstring y hy with ⟨-, rfl⟩ | ⟨-, hy'⟩
      · exact absurd hx' (hstr x)
      · exact h.distinct x y s hx' hy'
  case used =>
    intro x hx
    have hx' : (update t.string a (some str) x).isSome := by
      rw [← append_string]
      exact hx
    by_cases hxa : x = a
    · exact ⟨i, (hmem i x).mpr (Or.inr ⟨rfl, hxa⟩)⟩
    · rw [update_of_ne hxa] at hx'
      obtain ⟨j, hj⟩ := h.used x hx'
      exact ⟨j, (hmem j x).mpr (Or.inl hj)⟩
  case count =>
    obtain ⟨l, hnodup, hl, hcount⟩ := h.count
    refine ⟨a :: l, nodup_cons.mpr ⟨?_, hnodup⟩, ?_, ?_⟩
    · rw [hl a, ha]
      exact Bool.false_ne_true
    · intro x
      show x ∈ a :: l ↔ ((t.append i (chains i).getLast? a str).string x).isSome
      rw [append_string, update_apply, mem_cons, hl x]
      split
      next hxa => simp [hxa]
      next hxa => simp [hxa]
    · show (t.append i (chains i).getLast? a str).contains + 1 = (a :: l).length
      rw [append_contains, hcount, length_cons]

end XSBEngine.Strings
