import XSBEngine.Library.Linked
import XSBEngine.Library.System

/-!
# The table of interned tries

`init_private_trie_table`, `new_private_trie` and `private_trie_drop`, `XSB/emu/tr_utils.c:1598–1675`
and `2028–2052`, with `TRIENULL` as `none`.
-/

namespace XSBEngine.Tables

open Function Library List Option

/-- `itrie_array` with `itrie_array_first_free` and `itrie_array_first_trie`. -/
structure TrieTable where
  nextEntry : Nat → Option Nat
  prevEntry : Nat → Option Nat
  valid : Nat → Bool
  type : Nat → Nat
  incremental : Nat → Bool
  firstFree : Option Nat
  firstTrie : Option Nat

namespace TrieTable

/-- `init_private_trie_table` for `max_interned_tries_glc` tries. -/
def initPrivateTrieTable (max : Nat) : TrieTable where
  nextEntry i := if i < max then some (i + 1) else none
  prevEntry _ := some 0
  valid _ := false
  type _ := 0
  incremental _ := false
  firstFree := some 1
  firstTrie := none

/-- `SET_TRIE_ID`. -/
def setTrieId (index type : Nat) : Nat := type <<< 20 ||| index

/-- `new_private_trie`. There is no identifier if it ends in a resource error. -/
def newPrivateTrie (t : TrieTable) (props : Nat) : Option Nat × TrieTable :=
  match t.firstFree with
  | none => (none, t)
  | some index => (some (setTrieId index (props &&& 0xf)),
    { nextEntry := update t.nextEntry index t.firstTrie,
      prevEntry := setPrev (update t.prevEntry index none) t.firstTrie (some index),
      valid := update t.valid index true,
      type := update t.type index (props &&& 0xf),
      incremental :=
        if 0 < props &&& 0xf0 then update t.incremental index true else t.incremental,
      firstFree := t.nextEntry index,
      firstTrie := some index })

/-- The assignment of the next entry to the previous entry, if there is one. -/
def unchain (t : TrieTable) (i : Nat) : Nat → Option Nat :=
  match t.prevEntry i with
  | some j => update t.nextEntry j (t.nextEntry i)
  | none => t.nextEntry

/-- `private_trie_drop`. The next entry is `TRIENULL` if there is no free entry. -/
def privateTrieDrop (t : TrieTable) (i : Nat) : TrieTable :=
  { t with
    nextEntry := update (t.unchain i) i t.firstFree,
    prevEntry := setPrev t.prevEntry (t.unchain i i) (t.prevEntry i),
    firstTrie := if t.firstTrie = some i then t.unchain i i else t.firstTrie,
    firstFree := some i,
    valid := update t.valid i false }

/-- The operations on the table. -/
inductive TrieOp where
  | new (props : Nat)
  | drop (i : Nat)

/-- The state after an operation. -/
def next (t : TrieTable) : TrieOp → TrieTable
  | .new props => (t.newPrivateTrie props).2
  | .drop i => t.privateTrieDrop i

/-- The operations on a table of so many tries. -/
def tries (max : Nat) : System TrieTable TrieOp where
  init t := t = initPrivateTrieTable max
  step t op t' := t' = t.next op

/-- An operation does not drop an entry that is not `valid`. -/
def DropsValid (t : TrieTable) : TrieOp → Prop
  | .new _ => True
  | .drop i => t.valid i = true

/-- The free entries and the tries are the entries of two lists, and that of the tries has links
back. -/
structure Lists (t : TrieTable) (free used : List Nat) : Prop where
  freeLinked : Linked t.nextEntry t.firstFree free
  usedLinked : Linked t.nextEntry t.firstTrie used
  back : BackLinked t.prevEntry used
  first : ∀ i ∈ used.head?, t.prevEntry i = none

/-- The two lists have each entry from one up to the last one in one of them, once. -/
def Partitioned (max : Nat) (t : TrieTable) : Prop :=
  ∃ free used, t.Lists free used ∧ (free ++ used).Perm (range' 1 max)

/-- The partition, with the `valid` entries in the list of tries. -/
def Consistent (max : Nat) (t : TrieTable) : Prop :=
  ∃ free used, t.Lists free used ∧ (free ++ used).Perm (range' 1 max) ∧
    ∀ i, t.valid i = true ↔ i ∈ used

theorem initial_linked (max len : Nat) :
    Linked (initPrivateTrieTable (max + len)).nextEntry
      (if len = 0 then none else some (max + 1)) (range' (max + 1) len) := by
  induction len generalizing max with
  | zero => rfl
  | succ len ih =>
    refine linked_cons.mpr ⟨rfl, ?_⟩
    have hrest := ih (max + 1)
    rw [Nat.add_right_comm, Nat.add_assoc] at hrest
    convert hrest using 1
    show (if max + 1 < max + (len + 1) then some (max + 1 + 1) else none) = _
    split <;> split <;> first | rfl | omega

theorem consistent_init {max : Nat} (hmax : 1 ≤ max) :
    Consistent max (initPrivateTrieTable max) := by
  have hfree := initial_linked 0 max
  rw [Nat.zero_add, if_neg (by omega)] at hfree
  exact ⟨range' 1 max, [], ⟨hfree, rfl, .nil, nofun⟩, by simp,
    fun i => ⟨nofun, nofun⟩⟩

variable {max : Nat} {t : TrieTable} {free used l1 l2 : List Nat} {i : Nat}

/-- A new trie takes the first entry of the free list. -/
theorem Lists.new (h : t.Lists (i :: free) used) (hnodup : (i :: free ++ used).Nodup)
    (props : Nat) : (t.newPrivateTrie props).2.Lists free (i :: used) := by
  obtain ⟨hfirst, hfree⟩ := linked_cons.mp h.freeLinked
  rw [cons_append, nodup_cons, mem_append, not_or] at hnodup
  have hi := hnodup.1
  have hhead := linked_head h.usedLinked
  have hne : t.firstTrie ≠ some i := fun heq =>
    hi.2 (mem_of_mem_head? (hhead.symm.trans heq))
  simp only [newPrivateTrie, hfirst]
  refine ⟨hfree.update hi.1 _, h.usedLinked.push hi.2, ?_, ?_⟩
  · show BackLinked (setPrev _ t.firstTrie (some i)) (i :: used)
    rw [hhead]
    apply BackLinked.push _ h.usedLinked.nodup
    apply h.back.congr
    intro x hx
    have hxi : x ≠ i := fun heq => hi.2 (heq ▸ mem_of_mem_tail hx)
    exact (update_of_ne hxi _ _).symm
  · intro x hx
    obtain rfl : i = x := some.inj hx
    show setPrev (update t.prevEntry i none) t.firstTrie (some i) i = none
    rw [setPrev_of_ne hne, update_self]

/-- The entry of a trie becomes the first one of the free list. -/
theorem Lists.drop (h : t.Lists free (l1 ++ i :: l2))
    (hnodup : (free ++ (l1 ++ i :: l2)).Nodup) :
    (t.privateTrieDrop i).Lists (i :: free) (l1 ++ l2) := by
  obtain ⟨-, hused, hdisj⟩ := nodup_append.mp hnodup
  have hfree : ∀ j ∈ l1 ++ i :: l2, j ∉ free := fun j hj hmem => hdisj j hmem j hj rfl
  have hi : i ∉ l1 ++ l2 := (nodup_middle.mp hused).notMem
  have hnext : t.nextEntry i = l2.head? := h.usedLinked.next_head
  cases l1 using List.reverseRecOn with
  | nil =>
    have hprev : t.prevEntry i = none := h.first i rfl
    have hchain : t.unchain i = t.nextEntry := by rw [unchain, hprev]
    have hfirst : t.firstTrie = some i := linked_head h.usedLinked
    refine ⟨?_, ?_, ?_, ?_⟩ <;> simp only [privateTrieDrop, hchain, hprev, hfirst, if_true]
    · exact h.freeLinked.push (hfree i mem_cons_self)
    · exact h.usedLinked.next_eq.update hi _
    · cases l2 with
      | nil => exact .nil
      | cons c l2 =>
        apply (BackLinked.pop h.back).congr
        intro x hx
        refine (setPrev_of_ne fun heq => ?_).symm
        obtain rfl : c = x := some.inj (hnext.symm.trans heq)
        exact (nodup_cons.mp (nodup_cons.mp hused).2).1 hx
    · intro x hx
      rw [hnext, show l2.head? = some x from hx]
      exact update_self ..
  | append_singleton l a =>
    rw [append_assoc, singleton_append] at *
    have hprev : t.prevEntry i = some a := h.back.prev_eq
    have hchain : t.unchain i = update t.nextEntry a (t.nextEntry i) := by rw [unchain, hprev]
    have hai : i ≠ a := fun heq => hi (by simp [heq])
    have ha : a ∈ l ++ a :: i :: l2 := by simp
    have hfirst : t.firstTrie ≠ some i := by
      rw [linked_head h.usedLinked]
      cases l with
      | nil => exact fun heq => hai (some.inj heq).symm
      | cons b l => exact fun heq => hi (by simp [some.inj heq])
    refine ⟨?_, ?_, ?_, ?_⟩ <;> simp only [privateTrieDrop, hchain, update_of_ne hai, hprev,
      if_neg hfirst]
    · exact (h.freeLinked.update (hfree a ha) _).push (hfree i (by simp))
    · exact h.usedLinked.unlink.update hi _
    · rw [hnext, ← hprev]
      exact h.back.unlink hused
    · intro x hx
      have hxl : x ∈ l ++ [a] := by cases l <;> simp_all
      rw [setPrev_of_ne, h.first x (by cases l <;> simp_all)]
      rw [hnext]
      intro heq
      have hx2 : x ∈ l2 := mem_of_mem_head? heq
      have hnd : ((l ++ [a]) ++ i :: l2).Nodup := by simpa using hused
      exact (nodup_append.mp hnd).2.2 x hxl x (mem_cons_of_mem i hx2) rfl

theorem consistent_next {op : TrieOp} (h : Consistent max t) (hop : t.DropsValid op) :
    Consistent max (t.next op) := by
  obtain ⟨free, used, hlists, hperm, hvalid⟩ := h
  have hnodup : (free ++ used).Nodup := hperm.nodup_iff.mpr nodup_range'
  cases op with
  | new props =>
    cases free with
    | nil =>
      have hnone : t.firstFree = none := hlists.freeLinked
      simp only [next, newPrivateTrie, hnone]
      exact ⟨[], used, hlists, hperm, hvalid⟩
    | cons i free =>
      have hfirst : t.firstFree = some i := linked_head hlists.freeLinked
      refine ⟨free, i :: used, hlists.new hnodup props, perm_middle.trans hperm, fun j => ?_⟩
      simp only [next, newPrivateTrie, hfirst, update_apply, mem_cons, ← hvalid]
      split <;> simp [*]
  | drop i =>
    obtain ⟨l1, l2, rfl⟩ := append_of_mem ((hvalid i).mp hop)
    have hrest : (l1 ++ i :: l2).Perm (i :: (l1 ++ l2)) := perm_middle
    have hi := (nodup_middle.mp (nodup_append.mp hnodup).2.1).notMem
    refine ⟨i :: free, l1 ++ l2, hlists.drop hnodup, ?_, fun j => ?_⟩
    · exact (perm_middle.symm.trans (hrest.symm.append_left free)).trans hperm
    · show update t.valid i false j = true ↔ _
      rw [update_apply]
      split
      · next hj => exact ⟨nofun, fun hmem => absurd (hj ▸ hmem) hi⟩
      · next hj => rw [hvalid, hrest.mem_iff, mem_cons, or_iff_right hj]

/-- The entries are partitioned in every run that drops valid entries only, if there is one. -/
theorem partitioned_iff (max : Nat) :
    1 ≤ max ↔ ∀ t, ((tries max).restrict DropsValid).Reachable t → t.Partitioned max := by
  constructor
  · intro hmax t ht
    have hinv : ((tries max).restrict DropsValid).Invariant (Consistent max) :=
      ⟨fun s hs => hs ▸ consistent_init hmax,
        fun s op s' hs hstep => hstep.2 ▸ consistent_next hs hstep.1⟩
    obtain ⟨free, used, hlists, hperm, -⟩ := hinv.holds ht
    exact ⟨free, used, hlists, hperm⟩
  · intro h
    obtain ⟨free, used, hlists, hperm⟩ := h _ (.init rfl)
    have hmem : 1 ∈ free := mem_of_mem_head? (linked_head hlists.freeLinked).symm
    have hrange := hperm.subset (mem_append_left used hmem)
    exact (mem_range'_1.mp hrange).1.trans (Nat.lt_one_add_iff.mp (mem_range'_1.mp hrange).2)

/-- A trie that is dropped twice is linked to itself in the free list. -/
theorem drop_twice :
    ¬ ∀ max, 1 ≤ max → ∀ t, (tries max).Reachable t → t.Partitioned max := by
  intro h
  have hreach : (tries 1).Reachable
      ((((initPrivateTrieTable 1).next (.new 0)).next (.drop 1)).next (.drop 1)) :=
    .step (e := .drop 1) (.step (e := .drop 1) (.step (e := .new 0) (.init rfl) rfl) rfl) rfl
  obtain ⟨free, used, hlists, -⟩ := h 1 le_rfl _ hreach
  cases free with
  | nil => cases hlists.freeLinked
  | cons a free =>
    obtain ⟨hfirst, hfree⟩ := linked_cons.mp hlists.freeLinked
    cases hfirst
    have heq := hfree.unique hlists.freeLinked
    exact absurd (congrArg List.length heq) (Nat.ne_of_lt (Nat.lt_succ_self _))

/-! ### Identifiers -/

/-- `SPLIT_TRIE_ID`: the index and the type. -/
def splitTrieId (id : Nat) : Nat × Nat := (id &&& 0xfffff, (id &&& 0xfff00000) >>> 20)

theorem splitTrieId_setTrieId {index type : Nat} (hindex : index < 2 ^ 20) (htype : type < 2 ^ 12) :
    splitTrieId (setTrieId index type) = (index, type) := by
  have heq : setTrieId index type = type * 2 ^ 20 + index := by
    rw [setTrieId, ← Nat.shiftLeft_add_eq_or_of_lt hindex, Nat.shiftLeft_eq]
  have hid : setTrieId index type &&& 0xfffff = index := by
    rw [heq, show 0xfffff = 2 ^ 20 - 1 from rfl, Nat.and_two_pow_sub_one_eq_mod]
    omega
  have hty : (setTrieId index type &&& 0xfff00000) >>> 20 = type := by
    rw [Nat.shiftRight_and_distrib, show 0xfff00000 >>> 20 = 2 ^ 12 - 1 from rfl,
      Nat.and_two_pow_sub_one_eq_mod, heq, Nat.shiftRight_eq_div_pow]
    omega
  rw [splitTrieId, hid, hty]

end TrieTable

end XSBEngine.Tables
