import XSBEngine.Strings.Chains

/-!
# Insertion and expansion

`expand_string_table` hangs the entries into the chains of a larger table, and `string_find`
inserts strings into a table that may overflow.
-/

namespace XSBEngine.Strings

open Function List Option

open Heap (CString)
open Library StringTable

variable {shl : UInt8 → Nat → UInt64} {t t' : StringTable} {chains nc : Nat → List Addr}
  {l done : List Addr} {indices : List Nat} {a : Addr} {p : Option Addr} {s str : CString}
    {i j n newSize : Nat}
  {st : StringTable × (Nat → Option Addr)}

/-! ### Rehashing -/

/-- The entries `done` are in the chains of the new table. -/
structure Rehashed (shl : UInt8 → Nat → UInt64) (newSize : Nat) (t : StringTable)
    (done : List Addr) (st : StringTable × (Nat → Option Addr)) (nc : Nat → List Addr) : Prop where
  frame : st.1 = { t with next := st.1.next }
  chain : ∀ j, Linked st.1.next (st.2 j) (nc j)
  mem : ∀ j a, a ∈ nc j ↔ a ∈ done ∧ ∃ s, t.string a = some s ∧ hash shl s 0 newSize = j
  rest : ∀ a, a ∉ done → st.1.next a = t.next a

/-- An entry is put in front of its new chain. -/
theorem Rehashed.push (h : Rehashed shl newSize t done st nc) (ha : a ∉ done)
    (hs : t.string a = some s) (hj : j = hash shl s 0 newSize) :
    Rehashed shl newSize t (a :: done)
      ({ st.1 with next := update st.1.next a (st.2 j) },
        update st.2 j (some a)) (update nc j (a :: nc j)) := by
  have hnot : ∀ k, a ∉ nc k := fun k hk => ha ((h.mem k a).mp hk).1
  constructor
  case frame =>
    have hframe := h.frame
    show ({ st.1 with next := update st.1.next a (st.2 j) } : StringTable) = _
    rw [hframe]
  case chain =>
    intro k
    show Linked (update st.1.next a (st.2 j)) (update st.2 j (some a) k)
      (update nc j (a :: nc j) k)
    by_cases hk : k = j
    · subst hk
      rw [update_self, update_self]
      exact (h.chain k).push (hnot k)
    · rw [update_of_ne hk, update_of_ne hk]
      exact (h.chain k).update (hnot k) _
  case mem =>
    intro k x
    by_cases hk : k = j
    · subst hk
      rw [update_self, mem_cons, mem_cons, h.mem]
      constructor
      · rintro (rfl | ⟨hx, hs'⟩)
        · exact ⟨Or.inl rfl, s, hs, hj.symm⟩
        · exact ⟨Or.inr hx, hs'⟩
      · rintro ⟨rfl | hx, hs'⟩
        · exact Or.inl rfl
        · exact Or.inr ⟨hx, hs'⟩
    · rw [update_of_ne hk, h.mem, mem_cons]
      constructor
      · rintro ⟨hx, hs'⟩
        exact ⟨Or.inr hx, hs'⟩
      · rintro ⟨rfl | hx, s', hs', hk'⟩
        · rw [hs] at hs'
          obtain rfl := some.inj hs'
          exact absurd (hk'.symm.trans hj.symm) hk
        · exact ⟨hx, s', hs', hk'⟩
  case rest =>
    intro x hx
    show update st.1.next a (st.2 j) x = t.next x
    rw [update_of_ne (ne_of_not_mem_cons hx)]
    exact h.rest x (not_mem_of_not_mem_cons hx)

/-- All entries of a chain are put in front of their new chains. -/
theorem Rehashed.rehashChain (h : Rehashed shl newSize t done st nc) (hl : Linked t.next p l)
    (hn : l.length ≤ n) (hmarked : ∀ x, t.marked x = false)
    (hlive : ∀ x ∈ l, (t.string x).isSome) (hdone : ∀ x ∈ l, x ∉ done) :
    ∃ st' nc', StringTable.rehashChain shl newSize n p st = some st' ∧
      Rehashed shl newSize t (l.reverse ++ done) st' nc' := by
  induction l generalizing p n done st nc with
  | nil =>
    rw [linked_nil.mp hl]
    exact ⟨st, nc, by cases n <;> rfl, h⟩
  | cons a l ih =>
    have hnodup := nodup_cons.mp hl.nodup
    obtain ⟨rfl, hrest⟩ := linked_cons.mp hl
    obtain ⟨n, rfl⟩ := Nat.exists_eq_succ_of_ne_zero (Nat.ne_of_gt (Nat.zero_lt_of_lt hn))
    obtain ⟨s, hs⟩ := isSome_iff_exists.mp (hlive a mem_cons_self)
    have ha := hdone a mem_cons_self
    have hnext : st.1.nextField a = some (t.next a) := by
      rw [nextField, h.rest a ha, h.frame]
      show (if t.marked a then none else some (t.next a)) = _
      rw [hmarked a]
      rfl
    have hstring : st.1.string a = some s := by
      rw [h.frame]
      exact hs
    obtain ⟨st', nc', hrun, hst'⟩ := ih (h.push ha hs rfl) hrest (Nat.le_of_succ_le_succ hn)
      (fun x hx ↦ hlive x (mem_cons_of_mem a hx)) fun x hx ↦ not_mem_cons_of_ne_of_not_mem
        (ne_of_mem_of_not_mem hx hnodup.1) (hdone x (mem_cons_of_mem a hx))
    refine ⟨st', nc', ?_, ?_⟩
    · obtain ⟨t1, newTable⟩ := st
      have hstring1 : t1.string a = some s := hstring
      simp only [StringTable.rehashChain, hnext, hstring1, bind_eq_bind, bind_some]
      exact hrun
    · rw [reverse_cons, append_assoc]
      exact hst'

/-- The slots of the old table, one after the other. -/
theorem Rehashed.slots (hok : TableOK shl t chains) (hmarked : ∀ x, t.marked x = false)
    (h : Rehashed shl newSize t done st nc) (hnodup : indices.Nodup)
    (hdone : ∀ i ∈ indices, ∀ x ∈ chains i, x ∉ done) :
    ∃ st' nc', indices.foldlM
        (fun st index => StringTable.rehashChain shl newSize t.contains (t.table index) st) st =
          some st' ∧
      Rehashed shl newSize t ((indices.flatMap chains).reverse ++ done) st' nc' := by
  induction indices generalizing done st nc with
  | nil => exact ⟨st, nc, rfl, h⟩
  | cons i indices ih =>
    obtain ⟨hi, hindices⟩ := nodup_cons.mp hnodup
    obtain ⟨st1, nc1, hrun1, h1⟩ := h.rehashChain (hok.chain i) (hok.length_le i) hmarked
      (fun x hx => hok.live hx) (hdone i mem_cons_self)
    have hdone1 : ∀ j ∈ indices, ∀ x ∈ chains j, x ∉ (chains i).reverse ++ done := by
      intro j hj x hx hmem
      have hji : j ≠ i := ne_of_mem_of_not_mem hj hi
      rcases mem_append.mp hmem with hmem | hmem
      · exact hok.disjoint hji hx (mem_reverse.mp hmem)
      · exact hdone j (mem_cons_of_mem i hj) x hx hmem
    obtain ⟨st2, nc2, hrun2, h2⟩ := ih h1 hindices hdone1
    refine ⟨st2, nc2, ?_, ?_⟩
    · rw [foldlM_cons, hrun1]
      exact hrun2
    · rw [flatMap_cons, reverse_append, append_assoc]
      exact h2

theorem nextPrime_pos (hn : 0 < n) : 0 < nextPrime n := by
  have hprimes : ∀ i < numOfPrimes - 1, 0 < primes.getD i 0 := by decide
  simp only [nextPrime]
  split
  next hi => exact hprimes _ hi
  next =>
    show 0 < 2 * n - 1
    omega

/-- The expanded table has the same entries. -/
theorem TableOK.expand (hok : TableOK shl t chains) (hmarked : ∀ x, t.marked x = false) :
    ∃ t' nc, t.expandStringTable shl = some t' ∧ TableOK shl t' nc ∧ t'.string = t.string ∧
      t'.marked = t.marked := by
  have hstart : Rehashed shl (nextPrime t.size) t [] (t, fun _ => none) fun _ => [] :=
    ⟨rfl, fun _ => rfl, fun _ _ => by simp, fun _ _ => rfl⟩
  obtain ⟨st, nc, hrun, h⟩ := hstart.slots hok hmarked
    (nodup_range (n := t.size)) fun _ _ _ _ => not_mem_nil
  rw [append_nil] at h
  have hdone : ∀ a s, t.string a = some s →
      a ∈ ((List.range t.size).flatMap chains).reverse := by
    intro a s hs
    have ha := hok.mem_chain hs
    apply mem_reverse.mpr
    exact mem_flatMap.mpr ⟨_, mem_range.mpr (hok.index_lt ha), ha⟩
  have hframe := h.frame
  have hstring : st.1.string = t.string := by rw [hframe]
  have hcontains : st.1.contains = t.contains := by rw [hframe]
  refine ⟨{ st.1 with size := nextPrime t.size, table := st.2 }, nc, ?_, ?_, hstring, ?_⟩
  · simp only [expandStringTable, hrun, bind_eq_bind, bind_some]
  · constructor
    case size_pos => exact nextPrime_pos hok.size_pos
    case chain => exact h.chain
    case contents =>
      intro j a ha
      obtain ⟨-, s, hs, hj⟩ := (h.mem j a).mp ha
      exact ⟨s, hstring.symm ▸ hs, hj⟩
    case distinct =>
      intro a b s ha hb
      exact hok.distinct a b s (hstring ▸ ha) (hstring ▸ hb)
    case used =>
      intro a ha
      obtain ⟨s, hs⟩ := isSome_iff_exists.mp ha
      have hs' : t.string a = some s := hstring ▸ hs
      exact ⟨_, (h.mem _ a).mpr ⟨hdone a s hs', s, hs', rfl⟩⟩
    case count =>
      obtain ⟨l, hnodup, hl, hcount⟩ := hok.count
      refine ⟨l, hnodup, fun a => ?_, hcontains.trans hcount⟩
      show a ∈ l ↔ (st.1.string a).isSome
      rw [hstring]
      exact hl a
  · show st.1.marked = t.marked
    rw [hframe]

/-- The table after `string_table_increment_and_check_for_overflow`. -/
theorem TableOK.increment (hok : TableOK shl { t with contains := t.contains + 1 } chains)
    (hmarked : ∀ x, t.marked x = false) :
    ∃ t' nc, t.incrementAndCheckForOverflow shl = some t' ∧ TableOK shl t' nc ∧
      t'.string = t.string ∧ t'.marked = t.marked := by
  rw [incrementAndCheckForOverflow]
  split
  next => exact hok.expand hmarked
  next => exact ⟨_, chains, rfl, hok, rfl, rfl⟩

/-! ### `string_find` -/

/-- What `string_find` returns, and what it does to the strings: the entry of the string, and a
new one if there is none and one is asked for. -/
structure FindSpec (t : StringTable) (str : CString) (insert : Bool) (alloc : Addr)
    (t' : StringTable) (result : Option Addr) : Prop where
  found : ∀ a, t.string a = some str → t' = t ∧ result = some a
  inserted : (∀ a, t.string a ≠ some str) → insert = true →
    result = some alloc ∧ t'.string = update t.string alloc (some str)
  missing : (∀ a, t.string a ≠ some str) → insert = false → t' = t ∧ result = none

/-- A string of the table is found at its address. -/
theorem TableOK.stringFind_found (hok : TableOK shl t chains) (hmarked : ∀ x, t.marked x = false)
    (ha : t.string a = some str) (insert : Bool) (alloc : Addr) :
    t.stringFind shl str insert alloc = some (t, some a) := by
  obtain ⟨prev, hsearch⟩ := search_found none (hok.chain _) (hok.length_le _) hmarked
    (fun x hx => hok.live hx) (fun x s hx hs => hok.distinct x a s hx hs) (hok.mem_chain ha) ha
  simp only [StringTable.stringFind, hsearch, bind_eq_bind, bind_some]

theorem TableOK.stringFind (hok : TableOK shl t chains) (hmarked : ∀ x, t.marked x = false)
    (str : CString) (insert : Bool) {alloc : Addr} (halloc : t.string alloc = none) :
    ∃ t' result nc, t.stringFind shl str insert alloc = some (t', result) ∧ TableOK shl t' nc ∧
      (∀ x, t'.marked x = false) ∧ FindSpec t str insert alloc t' result := by
  by_cases hex : ∃ a, t.string a = some str
  case pos =>
    obtain ⟨a, ha⟩ := hex
    refine ⟨t, some a, chains, hok.stringFind_found hmarked ha insert alloc, hok, hmarked,
      ?_, ?_, ?_⟩
    · exact fun b hb => ⟨rfl, congrArg some (hok.distinct a b str ha hb)⟩
    · exact fun hnone => absurd ha (hnone a)
    · exact fun hnone => absurd ha (hnone a)
  case neg =>
    have hnone : ∀ a, t.string a ≠ some str := fun a ha => hex ⟨a, ha⟩
    have hsearch := search_none none (hok.chain (hash shl str 0 t.size)) (hok.length_le _) hmarked
      (fun x hx => hok.live hx) fun x _ => hnone x
    rw [or_none] at hsearch
    cases insert with
    | false =>
      refine ⟨t, none, chains, ?_, hok, hmarked, ?_, ?_, ?_⟩
      · simp only [StringTable.stringFind, hsearch, bind_eq_bind, bind_some,
          Bool.false_eq_true, if_false]
      · exact fun a ha => absurd ha (hnone a)
      · exact fun _ hfalse => absurd hfalse Bool.false_ne_true
      · exact fun _ _ => ⟨rfl, rfl⟩
    | true =>
      obtain ⟨t', nc, hrun, hok', hstring, hmarks⟩ := (hok.append hnone halloc rfl).increment
        (append_marked hmarked)
      refine ⟨t', some alloc, nc, ?_, hok', ?_, ?_, ?_, ?_⟩
      · simp only [StringTable.stringFind, hsearch, bind_eq_bind, bind_some, if_true,
          hrun]
      · intro x
        rw [hmarks]
        exact append_marked hmarked x
      · exact fun a ha => absurd ha (hnone a)
      · exact fun _ _ => ⟨rfl, hstring.trans append_string⟩
      · exact fun _ htrue => absurd htrue.symm Bool.false_ne_true

end XSBEngine.Strings
