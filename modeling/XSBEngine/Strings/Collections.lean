import XSBEngine.Strings.Expansion

/-!
# String collections

`mark_string` marks entries, `free_unused_strings` frees the others and clears the marks. Over all
runs of insertions and collections no string has two entries, and `contains` counts them.
-/

namespace XSBEngine.Strings

open Function List Option

open Heap (CString strcmp_eq_zero)
open Library StringTable

variable {shl : UInt8 → Nat → UInt64} {t t' t1 t2 : StringTable} {chains nc : Nat → List Addr}
  {l l1 l2 freed freed1 freed2 marks : List Addr} {indices : List Nat} {a : Addr}
  {p : Option Addr} {s str : CString} {i n : Nat}

/-! ### Marks -/

theorem searchSafe_found (hl : Linked t.next p l) (hn : l.length ≤ n)
    (hlive : ∀ x ∈ l, (t.string x).isSome)
    (hdistinct : ∀ x s, t.string x = some s → t.string a = some s → x = a)
    (ha : a ∈ l) (hs : t.string a = some str) : t.searchSafe str n p = some (some a) := by
  induction l generalizing p n with
  | nil => exact absurd ha not_mem_nil
  | cons b l ih =>
    obtain ⟨rfl, hrest⟩ := linked_cons.mp hl
    obtain ⟨n, rfl⟩ := Nat.exists_eq_succ_of_ne_zero (Nat.ne_of_gt (Nat.zero_lt_of_lt hn))
    obtain ⟨str0, hstr0⟩ := isSome_iff_exists.mp (hlive b mem_cons_self)
    simp only [searchSafe, hstr0, bind_eq_bind, bind_some, strcmp_eq_zero]
    split
    next heq =>
      subst heq
      rw [hdistinct b str hstr0 hs]
    next hne =>
      have hab : a ≠ b := by
        rintro rfl
        exact hne (some.inj (hs.symm.trans hstr0))
      exact ih hrest (Nat.le_of_succ_le_succ hn)
        (fun x hx => hlive x (mem_cons_of_mem b hx)) ((mem_cons.mp ha).resolve_left hab)

/-- The chains do not depend on the marks. -/
theorem TableOK.remark (hok : TableOK shl t chains) (marked : Addr → Bool) :
    TableOK shl { t with marked := marked } chains :=
  ⟨hok.size_pos, hok.chain, hok.contents, hok.distinct, hok.used, hok.count⟩

/-- `mark_string` finds the entry among the marked and unmarked ones. -/
theorem TableOK.markString (hok : TableOK shl t chains) (ha : (t.string a).isSome) :
    t.markString shl a = some { t with marked := update t.marked a true } := by
  obtain ⟨s, hs⟩ := isSome_iff_exists.mp ha
  have hfound : t.stringFindSafe shl s = some (some a) :=
    searchSafe_found (hok.chain _) (hok.length_le _) (fun x hx => hok.live hx)
      (fun x s hx hs => hok.distinct x a s hx hs) (hok.mem_chain hs) hs
  simp only [StringTable.markString, hs, hfound, bind_eq_bind, bind_some, if_true]

theorem TableOK.mark (hok : TableOK shl t chains) (hmarks : ∀ a ∈ marks, (t.string a).isSome) :
    ∃ marked : Addr → Bool,
      marks.foldlM (StringTable.markString shl) t = some { t with marked := marked } ∧
        ∀ x, marked x = true ↔ t.marked x = true ∨ x ∈ marks := by
  induction marks generalizing t with
  | nil => exact ⟨t.marked, rfl, fun x => by simp⟩
  | cons a marks ih =>
    obtain ⟨marked, hrun, hmarked⟩ := ih (hok.remark (update t.marked a true))
      fun x hx => hmarks x (mem_cons_of_mem a hx)
    refine ⟨marked, ?_, ?_⟩
    · rw [foldlM_cons, hok.markString (hmarks a mem_cons_self)]
      exact hrun
    · intro x
      rw [hmarked x, mem_cons]
      show update t.marked a true x = true ∨ x ∈ marks ↔ _
      rw [update_apply]
      split
      next hxa => simp [hxa]
      next hxa => simp [hxa]

/-! ### An entry that is freed -/

/-- A chain without one of its entries. -/
theorem setLink_chain (hl : Linked t.next (t.table i) (l1 ++ a :: l2)) :
    Linked (t.setLink i l1.getLast? (t.next a)).next
      ((t.setLink i l1.getLast? (t.next a)).table i) (l1 ++ l2) := by
  rcases eq_nil_or_concat l1 with rfl | ⟨l1, b, rfl⟩
  · show Linked t.next (update t.table i (t.next a) i) l2
    rw [update_self]
    exact (linked_cons.mp hl).2
  · rw [concat_eq_append] at hl ⊢
    rw [List.getLast?_concat]
    rw [append_assoc] at hl ⊢
    exact Linked.unlink hl

/-- The marks do not change if the entry before has none. -/
theorem setLink_marked_eq (hmarked : ∀ x ∈ l, t.marked x = false) :
    (t.setLink i l.getLast? p).marked = t.marked := by
  cases hlast : l.getLast? with
  | none => rfl
  | some b =>
    have hb := hmarked b (mem_of_getLast? hlast)
    show update t.marked b false = t.marked
    rw [← hb, update_eq_self]

theorem freeEntry_string : (t.freeEntry i p a).string = update t.string a none := by
  show update (t.setLink i p (t.next a)).string a none = _
  rw [setLink_string]

theorem TableOK.free (hok : TableOK shl t chains) (hi : chains i = l1 ++ a :: l2) :
    TableOK shl (t.freeEntry i l1.getLast? a) (update chains i (l1 ++ l2)) := by
  have hchain := hok.chain i
  rw [hi] at hchain
  have ha : a ∉ l1 ++ l2 := (nodup_cons.mp (nodup_middle.mp hchain.nodup)).1
  have hmem : ∀ x, x ∈ chains i ↔ x = a ∨ x ∈ l1 ++ l2 := by
    intro x
    simp only [hi, mem_append, mem_cons]
    exact or_left_comm
  have hlive : (t.string a).isSome := hok.live ((hmem a).mpr (Or.inl rfl))
  have hmem' : ∀ j x, x ∈ update chains i (l1 ++ l2) j ↔ x ∈ chains j ∧ x ≠ a := by
    intro j x
    by_cases hj : j = i
    · subst hj
      rw [update_self, hmem]
      constructor
      · exact fun hx => ⟨Or.inr hx, ne_of_mem_of_not_mem hx ha⟩
      · exact fun hx => hx.1.resolve_left hx.2
    · rw [update_of_ne hj]
      constructor
      · refine fun hx => ⟨hx, ?_⟩
        rintro rfl
        exact hok.disjoint hj hx ((hmem x).mpr (Or.inl rfl))
      · exact fun hx => hx.1
  have hstring : ∀ x, x ≠ a → (t.freeEntry i l1.getLast? a).string x = t.string x := by
    intro x hx
    rw [freeEntry_string, update_of_ne hx]
  have hnone : (t.freeEntry i l1.getLast? a).string a = none := by
    rw [freeEntry_string, update_self]
  have hsize : (t.freeEntry i l1.getLast? a).size = t.size := setLink_size
  constructor
  case size_pos => rw [hsize]; exact hok.size_pos
  case chain =>
    intro j
    by_cases hj : j = i
    · subst hj
      rw [update_self]
      exact setLink_chain hchain
    · rw [update_of_ne hj]
      show Linked (t.setLink i l1.getLast? (t.next a)).next
        ((t.setLink i l1.getLast? (t.next a)).table j) (chains j)
      rw [setLink_table_of_ne hj]
      apply (hok.chain j).congr
      intro x hx
      refine (setLink_next_of_notMem fun hx1 => hok.disjoint hj hx ?_).symm
      exact (hmem x).mpr (Or.inr (mem_append_left l2 hx1))
  case contents =>
    intro j x hx
    obtain ⟨hx, hxa⟩ := (hmem' j x).mp hx
    rw [hstring x hxa, hsize]
    exact hok.contents j x hx
  case distinct =>
    intro x y s hx hy
    have hlive' : ∀ z, (t.freeEntry i l1.getLast? a).string z = some s →
        t.string z = some s := by
      intro z hz
      rw [← hstring z]
      · exact hz
      · rintro rfl
        cases hnone.symm.trans hz
    exact hok.distinct x y s (hlive' x hx) (hlive' y hy)
  case used =>
    intro x hx
    have hxa : x ≠ a := by
      rintro rfl
      rw [hnone] at hx
      cases hx
    rw [hstring x hxa] at hx
    obtain ⟨j, hj⟩ := hok.used x hx
    exact ⟨j, (hmem' j x).mpr ⟨hj, hxa⟩⟩
  case count =>
    obtain ⟨l, hnodup, hl, hcount⟩ := hok.count
    have hal : a ∈ l := (hl a).mpr hlive
    refine ⟨l.erase a, hnodup.erase a, ?_, ?_⟩
    · intro x
      rw [hnodup.mem_erase_iff, hl x]
      by_cases hxa : x = a
      · rw [hxa, hnone]
        simp
      · rw [hstring x hxa]
        exact and_iff_right hxa
    · show (t.setLink i l1.getLast? (t.next a)).contains - 1 = (l.erase a).length
      rw [setLink_contains, hcount, length_erase_of_mem hal]

/-! ### Sweeping -/

/-- The entries `l` are swept: those without a mark are freed, the marks of the others cleared. -/
structure Swept (t t' : StringTable) (l freed : List Addr) : Prop where
  nodup : freed.Nodup
  mem_freed : ∀ x, x ∈ freed ↔ x ∈ l ∧ t.marked x = false
  gone : ∀ x ∈ freed, t'.string x = none
  kept : ∀ x, x ∉ freed → t'.string x = t.string x
  clear : ∀ x ∈ l, t'.marked x = false
  rest : ∀ x, x ∉ l → t'.marked x = t.marked x

namespace Swept

theorem nil (t : StringTable) : Swept t t [] [] :=
  ⟨nodup_nil, by simp, by simp, fun _ _ => rfl, by simp, fun _ _ => rfl⟩

theorem append (h1 : Swept t t1 l1 freed1) (h2 : Swept t1 t2 l2 freed2)
    (hdisjoint : ∀ x ∈ l1, x ∉ l2) : Swept t t2 (l1 ++ l2) (freed1 ++ freed2) := by
  have hl1 : ∀ x ∈ freed1, x ∈ l1 := fun x hx => ((h1.mem_freed x).mp hx).1
  have hl2 : ∀ x ∈ freed2, x ∈ l2 := fun x hx => ((h2.mem_freed x).mp hx).1
  constructor
  case nodup =>
    refine nodup_append.mpr ⟨h1.nodup, h2.nodup, ?_⟩
    rintro x hx y hy rfl
    exact hdisjoint x (hl1 x hx) (hl2 x hy)
  case mem_freed =>
    intro x
    rw [mem_append, mem_append, h1.mem_freed x, h2.mem_freed x, or_and_right]
    apply or_congr_right
    apply and_congr_right
    intro hx
    rw [h1.rest x fun hx1 => hdisjoint x hx1 hx]
  case gone =>
    intro x hx
    rcases mem_append.mp hx with hx | hx
    · rw [h2.kept x fun hx2 => hdisjoint x (hl1 x hx) (hl2 x hx2)]
      exact h1.gone x hx
    · exact h2.gone x hx
  case kept =>
    intro x hx
    rw [h2.kept x fun hx2 => hx (mem_append_right _ hx2)]
    exact h1.kept x fun hx1 => hx (mem_append_left _ hx1)
  case clear =>
    intro x hx
    rcases mem_append.mp hx with hx | hx
    · rw [h2.rest x (hdisjoint x hx)]
      exact h1.clear x hx
    · exact h2.clear x hx
  case rest =>
    intro x hx
    rw [h2.rest x fun hx2 => hx (mem_append_right _ hx2)]
    exact h1.rest x fun hx1 => hx (mem_append_left _ hx1)

/-- A mark is cleared. -/
theorem unmark (ha : t.marked a = true) :
    Swept t { t with marked := update t.marked a false } [a] [] := by
  constructor
  case nodup => exact nodup_nil
  case mem_freed => simp [ha]
  case gone => simp
  case kept => exact fun _ _ => rfl
  case clear =>
    intro x hx
    rw [mem_singleton.mp hx]
    exact update_self ..
  case rest => exact fun x hx => update_of_ne (ne_of_not_mem_cons hx) ..

/-- An entry without a mark is freed. -/
theorem single (ha : t.marked a = false) (hmarked : ∀ x ∈ l, t.marked x = false) :
    Swept t (t.freeEntry i l.getLast? a) [a] [a] := by
  have hmarks : (t.freeEntry i l.getLast? a).marked = t.marked := setLink_marked_eq hmarked
  constructor
  case nodup => exact nodup_singleton a
  case mem_freed =>
    intro x
    refine (and_iff_left_of_imp fun hx => ?_).symm
    rw [mem_singleton.mp hx]
    exact ha
  case gone =>
    intro x hx
    rw [freeEntry_string, mem_singleton.mp hx, update_self]
  case kept =>
    intro x hx
    rw [freeEntry_string, update_of_ne (ne_of_not_mem_cons hx)]
  case clear =>
    intro x hx
    rw [hmarks, mem_singleton.mp hx]
    exact ha
  case rest => exact fun x _ => by rw [hmarks]

end Swept

/-- The rest of a chain is swept, behind the entries that stay. -/
theorem TableOK.sweepChain (hok : TableOK shl t chains) (hi : chains i = l1 ++ l2)
    (hl : Linked t.next p l2) (hn : l2.length ≤ n) (hmarked : ∀ x ∈ l1, t.marked x = false)
    (log : List Addr) :
    ∃ t' freed nc, StringTable.sweepChain i n l1.getLast? p (t, log) = some (t', log ++ freed) ∧
      TableOK shl t' nc ∧ (∀ j, j ≠ i → nc j = chains j) ∧ Swept t t' l2 freed := by
  induction l2 generalizing t chains l1 p n log with
  | nil =>
    rw [linked_nil.mp hl]
    refine ⟨t, [], chains, ?_, hok, fun _ _ => rfl, Swept.nil t⟩
    rw [append_nil]
    cases n <;> rfl
  | cons a l2 ih =>
    have hnot := (nodup_cons.mp hl.nodup).1
    obtain ⟨rfl, hrest⟩ := linked_cons.mp hl
    obtain ⟨n, rfl⟩ := Nat.exists_eq_succ_of_ne_zero (Nat.ne_of_gt (Nat.zero_lt_of_lt hn))
    have hlive : (t.string a).isSome := by
      apply hok.live (i := i)
      rw [hi]
      exact mem_append_right l1 mem_cons_self
    obtain ⟨s, hs⟩ := isSome_iff_exists.mp hlive
    have hdisjoint : ∀ x ∈ [a], x ∉ l2 := fun x hx => mem_singleton.mp hx ▸ hnot
    cases ha : t.marked a with
    | true =>
      have hi1 : chains i = (l1 ++ [a]) ++ l2 := by rw [hi, append_assoc]; rfl
      have hmarked1 : ∀ x ∈ l1 ++ [a], update t.marked a false x = false := by
        intro x hx
        rw [update_apply]
        split
        next => rfl
        next hxa =>
          refine hmarked x ((mem_append.mp hx).resolve_right fun hx => ?_)
          exact hxa (mem_singleton.mp hx)
      obtain ⟨t', freed, nc, hrun, hok', hnc, hswept⟩ :=
        ih (hok.remark (update t.marked a false)) hi1 hrest (Nat.le_of_succ_le_succ hn)
          hmarked1 log
      refine ⟨t', freed, nc, ?_, hok', hnc, (Swept.unmark ha).append hswept hdisjoint⟩
      rw [List.getLast?_concat] at hrun
      simp only [StringTable.sweepChain, hs, ha, bind_eq_bind, bind_some, if_true]
      exact hrun
    | false =>
      have hfree := hok.free hi
      have hupdate : update chains i (l1 ++ l2) i = l1 ++ l2 := update_self ..
      have hmarks : (t.freeEntry i l1.getLast? a).marked = t.marked := setLink_marked_eq hmarked
      have hnext : Linked (t.freeEntry i l1.getLast? a).next (t.next a) l2 := by
        apply hrest.congr
        intro x hx
        refine (setLink_next_of_notMem fun hx1 => ?_).symm
        have hnodup := (hok.chain i).nodup
        rw [hi] at hnodup
        exact (nodup_append.mp hnodup).2.2 x hx1 x (mem_cons_of_mem a hx) rfl
      obtain ⟨t', freed, nc, hrun, hok', hnc, hswept⟩ :=
        ih hfree hupdate hnext (Nat.le_of_succ_le_succ hn)
          (fun x hx => by rw [hmarks]; exact hmarked x hx) (log ++ [a])
      refine ⟨t', a :: freed, nc, ?_, hok', ?_, (Swept.single ha hmarked).append hswept hdisjoint⟩
      · rw [append_assoc] at hrun
        simp only [StringTable.sweepChain, hs, ha, bind_eq_bind, bind_some,
          Bool.false_eq_true, if_false]
        exact hrun
      · intro j hj
        rw [hnc j hj, update_of_ne hj]

/-- The chains are swept, one after the other. -/
theorem TableOK.sweep (hok : TableOK shl t chains) (hnodup : indices.Nodup) (log : List Addr) :
    ∃ t' freed nc, indices.foldlM
        (fun st index => StringTable.sweepChain index st.1.contains none (st.1.table index) st)
          (t, log) = some (t', log ++ freed) ∧
      TableOK shl t' nc ∧ Swept t t' (indices.flatMap chains) freed := by
  induction indices generalizing t chains log with
  | nil => exact ⟨t, [], chains, by rw [append_nil]; rfl, hok, Swept.nil t⟩
  | cons i indices ih =>
    obtain ⟨hi, hindices⟩ := nodup_cons.mp hnodup
    have hnil : chains i = [] ++ chains i := rfl
    obtain ⟨t1, freed1, nc1, hrun1, hok1, hnc1, hswept1⟩ :=
      hok.sweepChain hnil (hok.chain i) (hok.length_le i) (by simp) log
    obtain ⟨t2, freed2, nc2, hrun2, hok2, hswept2⟩ := ih hok1 hindices (log ++ freed1)
    have hchains : indices.flatMap nc1 = indices.flatMap chains :=
      flatMap_congr fun j hj => hnc1 j (ne_of_mem_of_not_mem hj hi)
    rw [hchains] at hswept2
    refine ⟨t2, freed1 ++ freed2, nc2, ?_, hok2, ?_⟩
    · rw [foldlM_cons]
      show (StringTable.sweepChain i t.contains ([] : List Addr).getLast? (t.table i)
        (t, log)).bind _ = _
      rw [hrun1, ← append_assoc]
      exact hrun2
    · rw [flatMap_cons]
      apply hswept1.append hswept2
      intro x hx hmem
      obtain ⟨j, hj, hxj⟩ := mem_flatMap.mp hmem
      exact hok.disjoint (ne_of_mem_of_not_mem hj hi) hxj hx

/-! ### Collections -/

/-- The entries of the table in memory. -/
theorem TableOK.mem_entries (hok : TableOK shl t chains) :
    a ∈ (List.range t.size).flatMap chains ↔ (t.string a).isSome := by
  constructor
  · intro ha
    obtain ⟨i, -, hi⟩ := mem_flatMap.mp ha
    exact hok.live hi
  · intro ha
    obtain ⟨i, hi⟩ := hok.used a ha
    exact mem_flatMap.mpr ⟨i, mem_range.mpr (hok.index_lt hi), hi⟩

/-- What a collection does: the marked entries stay where they are, without their marks, the
others are freed, each once, and `string_find` does not find their strings any more. -/
structure CollectSpec (shl : UInt8 → Nat → UInt64) (t : StringTable) (marks : List Addr)
    (t' : StringTable) (freed : List Addr) : Prop where
  nodup : freed.Nodup
  mem_freed : ∀ a, a ∈ freed ↔ (t.string a).isSome ∧ a ∉ marks
  kept : ∀ a ∈ marks, t'.string a = t.string a
  gone : ∀ a ∈ freed, t'.string a = none
  clear : ∀ a, t'.marked a = false
  found : ∀ a ∈ marks, ∀ s, t.string a = some s →
    ∀ alloc, t'.stringFind shl s false alloc = some (t', some a)
  lost : ∀ a ∈ freed, ∀ s, t.string a = some s →
    ∀ alloc, t'.stringFind shl s false alloc = some (t', none)

/-- A search without insertion asks for no memory. -/
theorem stringFind_alloc (a b : Addr) :
    t.stringFind shl str false a = t.stringFind shl str false b :=
  rfl

theorem TableOK.collect (hok : TableOK shl t chains) (hmarked : ∀ x, t.marked x = false)
    (hmarks : ∀ a ∈ marks, (t.string a).isSome) :
    ∃ t' freed nc, t.collect shl marks = some (t', freed) ∧ TableOK shl t' nc ∧
      CollectSpec shl t marks t' freed := by
  obtain ⟨marked, hmark, hmem⟩ := hok.mark hmarks
  obtain ⟨t', freed, nc, hsweep, hok', hswept⟩ := (hok.remark marked).sweep
    (nodup_range (n := t.size)) []
  have hfreed : ∀ a, a ∈ freed ↔ (t.string a).isSome ∧ a ∉ marks := by
    intro a
    rw [hswept.mem_freed a, hok.mem_entries]
    apply and_congr_right
    intro _
    show marked a = false ↔ a ∉ marks
    rw [← Bool.not_eq_true, hmem a, hmarked a]
    simp
  have hkept : ∀ a ∈ marks, t'.string a = t.string a :=
    fun a ha => hswept.kept a fun hx => ((hfreed a).mp hx).2 ha
  have hclear : ∀ a, t'.marked a = false := by
    intro a
    by_cases ha : a ∈ (List.range t.size).flatMap chains
    · exact hswept.clear a ha
    · rw [hswept.rest a ha]
      show marked a = false
      rw [← Bool.not_eq_true, hmem a, hmarked a]
      rintro (hfalse | hx)
      · exact Bool.false_ne_true hfalse
      · exact ha (hok.mem_entries.mpr (hmarks a hx))
  refine ⟨t', freed, nc, ?_, hok', ?_⟩
  · rw [StringTable.collect, hmark]
    exact hsweep
  · constructor
    case nodup => exact hswept.nodup
    case mem_freed => exact hfreed
    case kept => exact hkept
    case gone => exact hswept.gone
    case clear => exact hclear
    case found =>
      intro a ha s hs alloc
      exact hok'.stringFind_found hclear ((hkept a ha).trans hs) false alloc
    case lost =>
      intro a ha s hs alloc
      obtain ⟨t2, result, nc2, hrun, -, -, hspec⟩ :=
        hok'.stringFind hclear s false (hswept.gone a ha)
      have hnone : ∀ b, t'.string b ≠ some s := by
        intro b hb
        have hbf : b ∉ freed := by
          intro hx
          cases (hswept.gone b hx).symm.trans hb
        have hb' : t.string b = some s := (hswept.kept b hbf).symm.trans hb
        exact hbf (hok.distinct a b s hs hb' ▸ ha)
      obtain ⟨rfl, rfl⟩ := hspec.missing hnone rfl
      exact (stringFind_alloc alloc a).trans hrun

/-! ### Runs -/

theorem initialTable_ok : TableOK shl initialTable fun _ => [] where
  size_pos := by decide
  chain _ := rfl
  contents _ _ ha := absurd ha not_mem_nil
  distinct _ _ _ ha _ := nomatch ha
  used _ ha := nomatch ha
  count := ⟨[], nodup_nil, fun _ => ⟨fun ha => absurd ha not_mem_nil, nofun⟩, rfl⟩

/-- The entries are those in memory. -/
theorem TableOK.mem_of_entries (hok : TableOK shl t chains) (hl : t.Entries l) :
    a ∈ l ↔ (t.string a).isSome := by
  obtain ⟨chains', hchains, rfl⟩ := hl
  have heq : (List.range t.size).flatMap chains' = (List.range t.size).flatMap chains :=
    flatMap_congr fun i hi => (hchains i (mem_range.mp hi)).unique (hok.chain i)
  rw [heq]
  exact hok.mem_entries

/-- The chains and the marks between the events of a run. -/
theorem runs_invariant (shl : UInt8 → Nat → UInt64) :
    (runs shl).Invariant fun t => (∃ chains, TableOK shl t chains) ∧ ∀ x, t.marked x = false where
  init t ht := by
    obtain rfl : t = initialTable := ht
    exact ⟨⟨_, initialTable_ok⟩, fun _ => rfl⟩
  step t e t' := by
    rintro ⟨⟨chains, hok⟩, hmarked⟩ hstep
    cases e with
    | find str insert alloc result =>
      obtain ⟨halloc, hrun⟩ := hstep
      obtain ⟨t1, result1, nc, hrun1, hok1, hmarked1, -⟩ := hok.stringFind hmarked str insert halloc
      cases hrun.symm.trans hrun1
      exact ⟨⟨nc, hok1⟩, hmarked1⟩
    | collect marks freed =>
      obtain ⟨⟨entries, hentries, hmarks⟩, hrun⟩ := hstep
      obtain ⟨t1, freed1, nc, hrun1, hok1, hspec⟩ := hok.collect hmarked
        fun a ha => (hok.mem_of_entries hentries).mp (hmarks a ha)
      cases hrun.symm.trans hrun1
      exact ⟨⟨nc, hok1⟩, hspec.clear⟩

/-- Between the events of a run each string has one entry at most, `contains` counts the entries
and no mark is left. Searches, insertions and collections do what they should. -/
theorem stringTable_runs (ht : (runs shl).Reachable t) :
    ∃ entries, t.Entries entries ∧ (∀ a, a ∈ entries ↔ (t.string a).isSome) ∧
      (entries.map t.string).Nodup ∧
      (∀ a ∈ entries, ∀ b ∈ entries, t.string a = t.string b ↔ a = b) ∧
      t.contains = entries.length ∧ (∀ a, t.marked a = false) ∧
      (∀ str insert alloc, t.string alloc = none → ∃ t' result,
        t.stringFind shl str insert alloc = some (t', result) ∧
          FindSpec t str insert alloc t' result) ∧
      ∀ marks, (∀ a ∈ marks, a ∈ entries) → ∃ t' freed,
        t.collect shl marks = some (t', freed) ∧ CollectSpec shl t marks t' freed := by
  obtain ⟨⟨chains, hok⟩, hmarked⟩ := (runs_invariant shl).holds ht
  have hmem : ∀ a, a ∈ (List.range t.size).flatMap chains ↔ (t.string a).isSome :=
    fun a => hok.mem_entries
  have hinj : ∀ a ∈ (List.range t.size).flatMap chains,
      ∀ b ∈ (List.range t.size).flatMap chains, t.string a = t.string b → a = b := by
    intro a ha b _ heq
    obtain ⟨s, hs⟩ := isSome_iff_exists.mp ((hmem a).mp ha)
    exact hok.distinct a b s hs (heq.symm.trans hs)
  have hnodup : ((List.range t.size).flatMap chains).Nodup := by
    refine nodup_flatMap.mpr ⟨fun i _ => (hok.chain i).nodup, ?_⟩
    exact nodup_range.imp fun hij a hi hj => hok.disjoint hij hi hj
  refine ⟨(List.range t.size).flatMap chains, ⟨chains, fun i _ => hok.chain i, rfl⟩, hmem,
    List.Nodup.map_on hinj hnodup, ?_, ?_, hmarked, ?_, ?_⟩
  · exact fun a ha b hb => ⟨hinj a ha b hb, congrArg t.string⟩
  · obtain ⟨l, hl, hlmem, hcount⟩ := hok.count
    rw [hcount]
    apply List.Perm.length_eq
    exact (perm_ext_iff_of_nodup hl hnodup).mpr fun a => (hlmem a).trans (hmem a).symm
  · intro str insert alloc halloc
    obtain ⟨t', result, -, hrun, -, -, hspec⟩ := hok.stringFind hmarked str insert halloc
    exact ⟨t', result, hrun, hspec⟩
  · intro marks hmarks
    obtain ⟨t', freed, -, hrun, -, hspec⟩ := hok.collect hmarked fun a ha =>
      (hmem a).mp (hmarks a ha)
    exact ⟨t', freed, hrun, hspec⟩

/-- The empty table takes the empty string in. -/
theorem stringTable_start : ∃ t' result,
    initialTable.stringFind (fun char shift ↦ char.toUInt64 <<< shift.toUInt64) ⟨[], by decide⟩ true
      8 = some (t', result) ∧ result = some 8 := by
  have hreach : (runs fun char shift => char.toUInt64 <<< shift.toUInt64).Reachable initialTable :=
    .init rfl
  obtain ⟨-, -, -, -, -, -, -, hfind, -⟩ := stringTable_runs hreach
  obtain ⟨t', result, hrun, hspec⟩ := hfind ⟨[], by decide⟩ true 8 rfl
  exact ⟨t', result, hrun, (hspec.inserted (fun _ => nofun) rfl).1⟩

end XSBEngine.Strings
