import Mathlib
import XSBEngine.Library.Linked

/-!
# Structure managers

`XSB/emu/struct_manager.h:225–437, 472–500` and `struct_manager.c:83–98, 141–209`. Addresses count
bytes, and the memory gives the word that begins at an address.
-/

namespace XSBEngine.Tables.StructManager

open Function Library List Option

/-- `struct_desc`. `SM_DeallocateStruct` requires a structure that is at least two words long. -/
structure StructDesc where
  size : Nat
  num : Nat
  two_words : 16 ≤ size
  num_pos : 0 < num

/-- `Structure_Manager`, and the words of the memory. -/
structure Manager where
  curBlock : Nat
  nextStruct : Nat
  lastStruct : Nat
  freeList : Nat
  mem : Nat → Nat

/-- `NULL` is `0`. -/
def pointer (a : Nat) : Option Nat := if a = 0 then none else some a

def StructDesc.newBlockSize (d : StructDesc) : Nat := 8 + d.size * d.num

/-- `SMBlk_LastStruct`. The first structure is behind the word that links the blocks. -/
def StructDesc.lastStruct (d : StructDesc) (block : Nat) : Nat := block + 8 + d.size * (d.num - 1)

namespace Manager

variable (d : StructDesc) (m : Manager)

def curBlockIsDepleted : Bool := m.curBlock = 0 || m.lastStruct < m.nextStruct

/-- `smAllocateBlock`, with the zeroed block that `mem_calloc` returns. -/
def allocateBlock (newBlock : Nat) : Manager where
  curBlock := newBlock
  nextStruct := newBlock + 8
  lastStruct := d.lastStruct newBlock
  freeList := m.freeList
  mem := update
    (fun a => if newBlock ≤ a ∧ a < newBlock + d.newBlockSize then 0 else m.mem a)
    newBlock m.curBlock

/-- `SM_AllocateStruct`, with the block that is new if one is allocated. -/
def allocateStruct (newBlock : Nat) : Nat × Manager :=
  if m.freeList ≠ 0 then (m.freeList, { m with freeList := m.mem m.freeList })
  else
    let m := if m.curBlockIsDepleted then m.allocateBlock d newBlock else m
    (m.nextStruct, { m with nextStruct := m.nextStruct + d.size })

/-- `FREE_TRIE_NODE_MARK` is `-1`. -/
def markFree (s : Nat) : Manager := { m with mem := update m.mem (s + 8) (2 ^ 64 - 1) }

/-- The loop of `SM_DeallocateStructList`, with the mark of the tail behind it. -/
def markLoop : Nat → Nat → Nat → Manager → Option Manager
  | 0, _, _, _ => none
  | fuel + 1, s, tail, m =>
    if s = tail then some (m.markFree s)
    else markLoop fuel ((m.markFree s).mem s) tail (m.markFree s)

/-- `SM_DeallocateStructList`. `SM_DeallocateStruct` has one structure as head and tail. -/
def deallocateStructList (fuel head tail : Nat) : Option Manager :=
  (markLoop fuel head tail m).map fun m =>
    { m with mem := update m.mem tail m.freeList, freeList := head }

/-- What `for (p = …; IsNonNULL(p); p = *(void **)p)` goes through. -/
def walk (mem : Nat → Nat) : Nat → Nat → Option (List Nat)
  | 0, _ => none
  | fuel + 1, p => if p = 0 then some [] else (walk mem fuel (mem p)).map (p :: ·)

def numStructsLeftInBlock : Nat :=
  if m.curBlockIsDepleted then 0 else (m.lastStruct - m.nextStruct) / d.size + 1

def countFreeStructs (fuel : Nat) : Option Nat :=
  if m.curBlock = 0 then some 0
  else (walk m.mem fuel m.freeList).map fun free => m.numStructsLeftInBlock d + free.length

/-- `SM_CurrentCapacity`, the number of structures. -/
def currentCapacity (fuel : Nat) : Option Nat :=
  (walk m.mem fuel m.curBlock).map fun blocks => blocks.length * d.num

/-- `smIsValidStructRef`. The first block that the pointer lies in decides. -/
def isValidStructRef (fuel ptr : Nat) : Option Bool :=
  (walk m.mem fuel m.curBlock).map fun blocks =>
    match blocks.find? fun b => b + 8 ≤ ptr && ptr ≤ d.lastStruct b with
    | some b => (ptr - (b + 8)) % d.size == 0
    | none => false

/-- `smIsAllocatedStruct` -/
def isAllocatedStruct (fuel ptr : Nat) : Option Bool :=
  if m.nextStruct ≤ ptr ∧ ptr ≤ m.lastStruct then some false
  else (walk m.mem fuel m.freeList).map fun free => !free.contains ptr

/-- `smIsAllocatedStructRef` -/
def isAllocatedStructRef (fuel ptr : Nat) : Option Bool :=
  (m.isValidStructRef d fuel ptr).bind fun valid =>
    if valid then m.isAllocatedStruct fuel ptr else some false

/-- The first word of a structure or block as a link. -/
def link (a : Nat) : Option Nat := pointer (m.mem a)

end Manager

/-! ### Runs -/

variable (d : StructDesc)

/-- Two blocks do not overlap. -/
def Apart (b c : Nat) : Prop := b + d.newBlockSize ≤ c ∨ c + d.newBlockSize ≤ b

/-- What `mem_calloc` returns is not `NULL` and apart from the blocks that are there. -/
def Fresh (m : Manager) (newBlock : Nat) : Prop :=
  newBlock ≠ 0 ∧ ∀ blocks, Linked m.link (pointer m.curBlock) blocks →
    ∀ b ∈ blocks, Apart d newBlock b

/-- What is in the blocks and not in live structures. -/
def Owned (blocks live : List Nat) (a : Nat) : Prop :=
  (∃ b ∈ blocks, b ≤ a ∧ a < b + d.newBlockSize) ∧ ∀ s ∈ live, ¬ (s ≤ a ∧ a < s + d.size)

/-- The operations, with the live structures, and the writes of the program to these and outside of
the blocks. A list that is deallocated is linked by the first words of its structures. -/
inductive Step : Manager × List Nat → Manager × List Nat → Prop
  | allocate (m live newBlock) (hfresh : Fresh d m newBlock) :
      Step (m, live) ((m.allocateStruct d newBlock).2, (m.allocateStruct d newBlock).1 :: live)
  | deallocate (m m' live live' l head tail fuel)
      (hlinked : Segment m.link (pointer head) l (pointer tail))
      (hlive : live.Perm (l ++ tail :: live'))
      (hrun : m.deallocateStructList fuel head tail = some m') : Step (m, live) (m', live')
  | write (m live mem) (hmem : ∀ blocks, Linked m.link (pointer m.curBlock) blocks →
        ∀ a, Owned d blocks live a → mem a = m.mem a) :
      Step (m, live) ({ m with mem := mem }, live)

/-- `SM_InitDecl`, before anything is live. -/
def init (mem : Nat → Nat) : Manager × List Nat := (⟨0, 0, 0, 0, mem⟩, [])

/-- The structures of a block from the one with number `k` on. -/
def StructDesc.slots (k b : Nat) : List Nat :=
  (List.range' k (d.num - k)).map fun i => b + 8 + d.size * i

/-- The structures of all blocks are live, free or the rest of the current block. -/
structure Holds (m : Manager) (live blocks free unused : List Nat) : Prop where
  chain : Linked m.link (pointer m.curBlock) blocks
  freed : Linked m.link (pointer m.freeList) free
  apart : blocks.Pairwise (Apart d)
  perm : (live ++ (free ++ unused)).Perm (blocks.flatMap (d.slots 0))
  current : ∀ b ∈ blocks.head?, ∃ k ≤ d.num, unused = d.slots k b ∧
    m.nextStruct = b + 8 + d.size * k ∧ m.lastStruct = d.lastStruct b

/-! ### Structures and blocks -/

variable {m m' : Manager} {live live' blocks free unused l : List Nat}
  {a b s fuel head tail newBlock : Nat}

theorem pointer_eq_some : pointer a = some b ↔ a = b ∧ b ≠ 0 := by
  rw [pointer]
  split
  next h => exact ⟨fun h' ↦ absurd h' (some_ne_none b).symm, fun h' ↦ absurd (h'.1 ▸ h) h'.2⟩
  next h => exact ⟨fun h' => some.inj h' ▸ ⟨rfl, h⟩, fun h' => congrArg some h'.1⟩

theorem StructDesc.mem_slots {k : Nat} (hk : k ≤ d.num) :
    s ∈ d.slots k b ↔ ∃ i, k ≤ i ∧ i < d.num ∧ b + 8 + d.size * i = s := by
  simp [StructDesc.slots, Nat.add_sub_cancel' hk, and_assoc]

variable {d}

theorem mul_add_le {i j : Nat} (h : i < j) : d.size * i + d.size ≤ d.size * j := by
  rw [← Nat.mul_succ]
  exact Nat.mul_le_mul_left _ h

theorem slot_within (h : s ∈ d.slots 0 b) : b + 8 ≤ s ∧ s + d.size ≤ b + d.newBlockSize := by
  obtain ⟨i, -, hi, rfl⟩ := (d.mem_slots (Nat.zero_le _)).mp h
  have hle := mul_add_le (d := d) hi
  rw [StructDesc.newBlockSize]
  omega

theorem lastStruct_add_size (b : Nat) : d.lastStruct b + d.size = b + d.newBlockSize := by
  rw [StructDesc.lastStruct, StructDesc.newBlockSize, Nat.add_assoc, ← Nat.mul_succ,
    Nat.succ_eq_add_one, Nat.sub_add_cancel d.num_pos, Nat.add_assoc]

/-- Structures do not overlap, and neither do they overlap the words that link the blocks. -/
theorem slots_apart (hblocks : blocks.Pairwise (Apart d)) (hs : s ∈ blocks.flatMap (d.slots 0)) :
    (∀ s' ∈ blocks.flatMap (d.slots 0), s ≠ s' → s + d.size ≤ s' ∨ s' + d.size ≤ s) ∧
      ∀ b ∈ blocks, b + 8 ≤ s ∨ s + d.size ≤ b := by
  have hsymm : Std.Symm (Apart d) := ⟨fun b c h => h.symm⟩
  obtain ⟨b, hb, hsb⟩ := mem_flatMap.mp hs
  have hwithin := slot_within hsb
  constructor
  · intro s' hs' hne
    obtain ⟨c, hc, hsc⟩ := mem_flatMap.mp hs'
    rcases eq_or_ne b c with rfl | hbc
    · obtain ⟨i, -, -, rfl⟩ := (d.mem_slots (Nat.zero_le _)).mp hsb
      obtain ⟨j, -, -, rfl⟩ := (d.mem_slots (Nat.zero_le _)).mp hsc
      rcases Nat.lt_trichotomy i j with hij | rfl | hij
      · have hle := mul_add_le (d := d) hij
        omega
      · exact absurd rfl hne
      · have hle := mul_add_le (d := d) hij
        omega
    · have hwithin' := slot_within hsc
      have hbc := hblocks.forall hb hc hbc
      rw [Apart] at hbc
      omega
  · intro c hc
    rcases eq_or_ne b c with rfl | hbc
    · exact .inl hwithin.1
    · have hbc := hblocks.forall hb hc hbc
      rw [Apart] at hbc
      omega

theorem slots_nodup (hblocks : blocks.Pairwise (Apart d)) : (blocks.flatMap (d.slots 0)).Nodup := by
  have hsize := d.two_words
  rw [nodup_flatMap]
  constructor
  · intro b _
    refine List.Nodup.map (fun i j hij => ?_) (nodup_range' ..)
    exact Nat.eq_of_mul_eq_mul_left (by omega : 0 < d.size) (Nat.add_left_cancel hij)
  · apply hblocks.imp
    intro b c hbc s hb hc
    have hb := slot_within hb
    have hc := slot_within hc
    rw [Apart] at hbc
    omega

theorem allocateBlock_mem : (m.allocateBlock d newBlock).mem a =
    if a = newBlock then m.curBlock
    else if newBlock ≤ a ∧ a < newBlock + d.newBlockSize then 0 else m.mem a := by
  simp only [Manager.allocateBlock, update_apply]

/-- What a loop along a list goes through. -/
theorem walk_eq {mem : Nat → Nat} (h : Linked (fun a => pointer (mem a)) (pointer a) l)
    (hfuel : l.length < fuel) : Manager.walk mem fuel a = some l := by
  induction l generalizing a fuel with
  | nil =>
    obtain ⟨fuel, rfl⟩ := Nat.exists_eq_succ_of_ne_zero hfuel.ne'
    rw [Manager.walk, if_pos]
    by_contra hne
    rw [linked_nil, pointer, if_neg hne] at h
    cases h
  | cons b l ih =>
    obtain ⟨hb, hrest⟩ := linked_cons.mp h
    obtain ⟨rfl, hne⟩ := pointer_eq_some.mp hb
    obtain ⟨fuel, rfl⟩ := Nat.exists_eq_succ_of_ne_zero (Nat.ne_zero_of_lt hfuel)
    rw [Manager.walk, if_neg hne, ih hrest (Nat.lt_of_succ_lt_succ hfuel)]
    rfl

/-- The mark goes into the second words of the structures of the list. -/
theorem markLoop_eq (hlinked : Segment m.link (pointer head) l (pointer tail))
    (hapart : ∀ s ∈ l ++ [tail], ∀ s' ∈ l ++ [tail], s ≠ s' + 8) (htail : tail ∉ l)
    (hne : tail ≠ 0) :
    Manager.markLoop fuel head tail m =
      if l.length < fuel then some ((l ++ [tail]).foldl Manager.markFree m) else none := by
  induction l generalizing head fuel m with
  | nil =>
    obtain ⟨rfl, -⟩ : head = tail ∧ tail ≠ 0 := by
      apply pointer_eq_some.mp
      rw [show pointer head = pointer tail from hlinked, pointer, if_neg hne]
    cases fuel with
    | zero => rfl
    | succ fuel => rw [Manager.markLoop, if_pos rfl, if_pos (by simp)]; rfl
  | cons b l ih =>
    obtain ⟨hb, hrest⟩ := hlinked
    obtain ⟨rfl, -⟩ := pointer_eq_some.mp hb
    cases fuel with
    | zero => rfl
    | succ fuel =>
      have hsame : ∀ x ∈ head :: l, (m.markFree head).mem x = m.mem x := by
        intro x hx
        exact update_of_ne (hapart x (mem_append_left _ hx) head (by simp)) _ _
      rw [Manager.markLoop, if_neg (ne_of_not_mem_cons htail).symm,
        hsame head mem_cons_self, ih]
      · simp only [length_cons, Nat.add_lt_add_iff_right, cons_append, foldl_cons]
      · apply Segment.congr hrest
        intro x hx
        rw [Manager.link, Manager.link, hsame x (mem_cons_of_mem _ hx)]
      · intro s hs s' hs'
        exact hapart s (mem_cons_of_mem _ hs) s' (mem_cons_of_mem _ hs')
      · exact fun h => htail (mem_cons_of_mem _ h)

theorem foldl_markFree (l : List Nat) (m : Manager) :
    ∃ mem, l.foldl Manager.markFree m = { m with mem := mem } ∧
      ∀ a, (∀ s ∈ l, a ≠ s + 8) → mem a = m.mem a := by
  induction l generalizing m with
  | nil => exact ⟨m.mem, rfl, fun _ _ => rfl⟩
  | cons s l ih =>
    obtain ⟨mem, heq, hsame⟩ := ih (m.markFree s)
    refine ⟨mem, heq, fun a ha => ?_⟩
    rw [forall_mem_cons] at ha
    rw [hsame a ha.2]
    exact update_of_ne ha.1 _ _

/-! ### What holds in every run -/

namespace Holds

section

variable (h : Holds d m live blocks free unused)
include h

theorem nodup : (live ++ (free ++ unused)).Nodup :=
  h.perm.nodup_iff.mpr (slots_nodup h.apart)

theorem slot (hs : s ∈ live ∨ s ∈ free ++ unused) :
    s ∈ blocks.flatMap (d.slots 0) :=
  h.perm.mem_iff.mp (mem_append.mpr hs)

/-- The links of blocks and free structures are what matters of the memory. -/
theorem frame {mem : Nat → Nat}
    (hmem : ∀ a, a ∈ blocks ∨ a ∈ free → mem a = m.mem a) :
    Holds d { m with mem := mem } live blocks free unused where
  chain := h.chain.congr fun x hx => congrArg pointer (hmem x (.inl hx)).symm
  freed := h.freed.congr fun x hx => congrArg pointer (hmem x (.inr hx)).symm
  apart := h.apart
  perm := h.perm
  current := h.current

theorem write {mem : Nat → Nat}
    (hmem : ∀ a, Owned d blocks live a → mem a = m.mem a) :
    Holds d { m with mem := mem } live blocks free unused := by
  have hsize := d.two_words
  apply h.frame
  intro a ha
  apply hmem
  rcases ha with ha | ha
  · refine ⟨⟨a, ha, Nat.le_refl a, by rw [StructDesc.newBlockSize]; omega⟩, fun s hs => ?_⟩
    have hsep := (slots_apart h.apart (h.slot (.inl hs))).2 a ha
    omega
  · have hslot := h.slot (.inr (mem_append_left _ ha))
    constructor
    · obtain ⟨b, hb, hab⟩ := mem_flatMap.mp hslot
      have hwithin := slot_within hab
      exact ⟨b, hb, by omega, by omega⟩
    · intro s hs
      have hne : s ≠ a := (nodup_append.mp h.nodup).2.2 s hs a (mem_append_left _ ha)
      have hsep := (slots_apart h.apart (h.slot (.inl hs))).1 a hslot hne
      omega

end

/-- The first structure that is free. -/
theorem allocateFree (h : Holds d m live blocks (s :: free) unused) :
    m.freeList = s ∧ Holds d { m with freeList := m.mem s } (s :: live) blocks free unused := by
  obtain ⟨hs, hrest⟩ := linked_cons.mp h.freed
  refine ⟨(pointer_eq_some.mp hs).1, ⟨h.chain, hrest, h.apart, ?_, h.current⟩⟩
  exact perm_middle.symm.trans h.perm

/-- The next structure of the current block. -/
theorem allocateFromBlock (h : Holds d m live blocks free (s :: unused)) :
    m.nextStruct = s ∧ m.curBlockIsDepleted = false ∧
      m.numStructsLeftInBlock d = (s :: unused).length ∧
      Holds d { m with nextStruct := m.nextStruct + d.size } (s :: live) blocks free unused := by
  have hsize := d.two_words
  cases blocks with
  | nil => exact absurd (h.slot (.inr (mem_append_right _ mem_cons_self))) (by simp)
  | cons b rest =>
    obtain ⟨k, -, hunused, hnext, hlast⟩ := h.current b rfl
    have hlength := congrArg List.length hunused
    simp only [length_cons, StructDesc.slots, length_map, length_range'] at hlength
    rw [StructDesc.slots, ← hlength, List.range'_succ, map_cons, List.cons.injEq] at hunused
    obtain ⟨hb, -⟩ := linked_cons.mp h.chain
    obtain ⟨rfl, hne⟩ := pointer_eq_some.mp hb
    have hlast' : m.lastStruct = m.nextStruct + d.size * (d.num - 1 - k) := by
      rw [hlast, hnext, StructDesc.lastStruct, Nat.add_assoc _ (d.size * k), ← Nat.mul_add]
      congr 2
      omega
    have hdepleted : m.curBlockIsDepleted = false := by
      rw [Manager.curBlockIsDepleted, hlast']
      simp [hne]
    refine ⟨by rw [hnext, hunused.1], hdepleted, ?_, ⟨h.chain, h.freed, h.apart, ?_, ?_⟩⟩
    · rw [Manager.numStructsLeftInBlock, hdepleted, if_neg (by simp), hlast',
        Nat.add_sub_cancel_left,
        Nat.mul_div_cancel_left _ (by omega), length_cons]
      omega
    · have hmid : (live ++ (free ++ s :: unused)).Perm (s :: live ++ (free ++ unused)) := by
        rw [← append_assoc, ← append_assoc]
        exact perm_middle
      exact hmid.symm.trans h.perm
    · intro b hb
      obtain rfl := some.inj hb
      refine ⟨k + 1, by omega, ?_, ?_, hlast⟩
      · rw [hunused.2, StructDesc.slots]
        congr 2
        omega
      · show m.nextStruct + d.size = _
        rw [hnext, Nat.mul_succ, Nat.add_assoc]

theorem depleted (h : Holds d m live blocks free []) : m.curBlockIsDepleted = true := by
  have hpos := d.num_pos
  have hsize := d.two_words
  cases blocks with
  | nil =>
    have hchain := h.chain
    rw [linked_nil, pointer] at hchain
    split at hchain
    next heq => simp [Manager.curBlockIsDepleted, heq]
    next => cases hchain
  | cons b rest =>
    obtain ⟨k, hk, hunused, hnext, hlast⟩ := h.current b rfl
    have hlength := congrArg List.length hunused
    simp only [length_nil, StructDesc.slots, length_map, length_range'] at hlength
    obtain rfl : k = d.num := by omega
    have hle := mul_add_le (d := d) (Nat.sub_lt hpos Nat.one_pos)
    rw [Manager.curBlockIsDepleted, hnext, hlast, StructDesc.lastStruct]
    simp only [Bool.or_eq_true, decide_eq_true_eq]
    omega

theorem allocateBlock (h : Holds d m live blocks free []) (hfresh : Fresh d m newBlock) :
    Holds d (m.allocateBlock d newBlock) live (newBlock :: blocks) free (d.slots 0 newBlock) := by
  have hsize := d.two_words
  have hapart := hfresh.2 blocks h.chain
  have hout : ∀ b ∈ blocks, ∀ a, b ≤ a → a < b + d.newBlockSize →
      (m.allocateBlock d newBlock).mem a = m.mem a := by
    intro b hb a hle hlt
    have hsep := hapart b hb
    rw [Apart] at hsep
    have hpos : 0 < d.newBlockSize := by
      rw [StructDesc.newBlockSize]
      omega
    rw [allocateBlock_mem, if_neg (by omega), if_neg (by omega)]
  have hmem : ∀ a, a ∈ blocks ∨ a ∈ free → (m.allocateBlock d newBlock).mem a = m.mem a := by
    rintro a (ha | ha)
    · exact hout a ha a (Nat.le_refl a) (by rw [StructDesc.newBlockSize]; omega)
    · obtain ⟨b, hb, hab⟩ := mem_flatMap.mp (h.slot (.inr (mem_append_left _ ha)))
      have hwithin := slot_within hab
      exact hout b hb a (by omega) (by omega)
  have hframe := h.frame hmem
  refine ⟨⟨pointer_eq_some.mpr ⟨rfl, hfresh.1⟩, ?_⟩, hframe.freed, ?_, ?_, ?_⟩
  · rw [Manager.link, allocateBlock_mem, if_pos rfl]
    exact hframe.chain
  · exact pairwise_cons.mpr ⟨hapart, h.apart⟩
  · rw [flatMap_cons, ← append_assoc]
    apply perm_append_comm.trans
    exact List.Perm.append_left _ (by simpa using h.perm)
  · intro b hb
    obtain rfl := some.inj hb
    exact ⟨0, Nat.zero_le _, rfl, rfl, rfl⟩

/-- A list of live structures is put in front of the free ones. -/
theorem deallocate (h : Holds d m live blocks free unused)
    (hlinked : Segment m.link (pointer head) l (pointer tail))
    (hlive : live.Perm (l ++ tail :: live')) :
    (∃ n, ∀ fuel, n ≤ fuel → (m.deallocateStructList fuel head tail).isSome) ∧
      ∀ fuel m', m.deallocateStructList fuel head tail = some m' →
        Holds d m' live' blocks (l ++ tail :: free) unused := by
  have hsize := d.two_words
  have hmem : ∀ s ∈ l ++ [tail], s ∈ live := by
    intro s hs
    rw [hlive.mem_iff]
    rw [mem_append, mem_singleton] at hs
    rw [mem_append, mem_cons]
    exact hs.imp id .inl
  have hslot : ∀ s ∈ l ++ [tail], s ∈ blocks.flatMap (d.slots 0) := fun s hs ↦
    h.slot (.inl (hmem s hs))
  have htail : tail ∈ l ++ [tail] := by simp
  -- the words that are assigned are those of the list only
  have hne : ∀ s ∈ l ++ [tail], ∀ s' ∈ blocks.flatMap (d.slots 0), s' ≠ s + 8 := by
    intro s hs s' hs' heq
    have hsep := (slots_apart h.apart (hslot s hs)).1 s' hs' (by omega)
    omega
  have hlink : ∀ s ∈ l ++ [tail], ∀ b ∈ blocks, b ≠ s + 8 ∧ b ≠ s := by
    intro s hs b hb
    have hsep := (slots_apart h.apart (hslot s hs)).2 b hb
    omega
  have hnodup : (l ++ tail :: live').Nodup :=
    hlive.nodup_iff.mp (nodup_append.mp h.nodup).1
  have hnotin : tail ∉ l := fun hin =>
    (nodup_append.mp hnodup).2.2 tail hin tail mem_cons_self rfl
  have hnull : tail ≠ 0 := by
    obtain ⟨b, -, hb⟩ := mem_flatMap.mp (hslot tail htail)
    have hwithin := slot_within hb
    omega
  obtain ⟨mem, hmarked, hsame⟩ := foldl_markFree (l ++ [tail]) m
  have hrun := fun fuel => @markLoop_eq m l fuel head tail hlinked
    (fun s hs s' hs' => hne s' hs' s (hslot s hs)) hnotin hnull
  rw [hmarked] at hrun
  refine ⟨⟨l.length + 1, fun fuel hfuel => ?_⟩, fun fuel m' hsome => ?_⟩
  · rw [Manager.deallocateStructList, hrun, if_pos (Nat.lt_of_succ_le hfuel)]
    rfl
  · rw [Manager.deallocateStructList, hrun] at hsome
    split at hsome
    case isFalse => cases hsome
    obtain rfl := some.inj hsome
    have hword : ∀ a, a ≠ tail → (∀ s ∈ l ++ [tail], a ≠ s + 8) →
        update mem tail m.freeList a = m.mem a := fun a ha hs => by
      rw [update_of_ne ha, hsame a hs]
    refine ⟨?_, linked_append.mpr ⟨pointer tail, ?_, ?_, ?_⟩, h.apart, ?_, h.current⟩
    · apply h.chain.congr
      intro b hb
      exact congrArg pointer (hword b (hlink tail htail b hb).2 fun s hs ↦ (hlink s hs b hb).1).symm
    · apply hlinked.congr
      intro s hs
      have hs' := hslot s (mem_append_left _ hs)
      exact congrArg pointer (hword s (fun h => hnotin (h ▸ hs)) fun t ht => hne t ht s hs').symm
    · exact pointer_eq_some.mpr ⟨rfl, hnull⟩
    · show Segment _ (pointer (update mem tail m.freeList tail)) free none
      rw [update_self]
      apply h.freed.congr
      intro s hs
      have hs' := h.slot (.inr (mem_append_left unused hs))
      have hst : s ≠ tail := ((nodup_append.mp h.nodup).2.2 tail (hmem tail htail) s
        (mem_append_left _ hs)).symm
      exact congrArg pointer (hword s hst fun t ht => hne t ht s hs').symm
    · apply List.Perm.trans _ h.perm
      apply List.Perm.trans _ (hlive.symm.append_right _)
      simp only [append_assoc, cons_append]
      exact (perm_append_comm_assoc live' l _).trans (perm_middle.append_left l)

/-- A structure that is not live is handed out. -/
theorem allocateStruct (h : Holds d m live blocks free unused) (hfresh : Fresh d m newBlock) :
    ∃ blocks' free' unused', Holds d (m.allocateStruct d newBlock).2
      ((m.allocateStruct d newBlock).1 :: live) blocks' free' unused' := by
  rw [Manager.allocateStruct]
  cases free with
  | cons s free =>
    obtain ⟨hs, hrest⟩ := h.allocateFree
    have hne : s ≠ 0 := (pointer_eq_some.mp h.freed.1).2
    rw [if_pos (hs ▸ hne), hs]
    exact ⟨_, _, _, hrest⟩
  | nil =>
    have hnull : m.freeList = 0 := by
      by_contra hne
      have hfreed := h.freed
      rw [linked_nil, pointer, if_neg hne] at hfreed
      cases hfreed
    rw [if_neg (not_not.mpr hnull)]
    cases unused with
    | cons s unused =>
      obtain ⟨rfl, hdepleted, -, hrest⟩ := h.allocateFromBlock
      rw [hdepleted, if_neg Bool.false_ne_true]
      exact ⟨_, _, _, hrest⟩
    | nil =>
      rw [h.depleted, if_pos rfl]
      have hslots : d.slots 0 newBlock ≠ [] := by
        simp [StructDesc.slots, d.num_pos.ne']
      obtain ⟨s, unused, hcons⟩ := exists_cons_of_ne_nil hslots
      obtain ⟨rfl, -, -, hrest⟩ := (hcons ▸ h.allocateBlock hfresh).allocateFromBlock
      exact ⟨_, _, _, hrest⟩

end Holds

theorem holds_of_reachable {mem : Nat → Nat}
    (h : Relation.ReflTransGen (Step d) (init mem) (m, live)) :
    ∃ blocks free unused, Holds d m live blocks free unused := by
  suffices hall : ∀ c, Relation.ReflTransGen (Step d) (init mem) c →
      ∃ blocks free unused, Holds d c.1 c.2 blocks free unused from hall _ h
  intro c hc
  induction hc with
  | refl => exact ⟨[], [], [], rfl, rfl, .nil, .nil, by simp⟩
  | tail _ hstep ih =>
    obtain ⟨blocks, free, unused, hholds⟩ := ih
    cases hstep with
    | allocate m live newBlock hfresh => exact hholds.allocateStruct hfresh
    | deallocate m m' live live' l head tail fuel hlinked hlive hrun =>
      exact ⟨_, _, _, (hholds.deallocate hlinked hlive).2 fuel m' hrun⟩
    | write m live mem' hmem => exact ⟨_, _, _, hholds.write (hmem _ hholds.chain)⟩

/-- The references that the test on blocks accepts. -/
theorem Holds.isValidStructRef_eq (h : Holds d m live blocks free unused)
    (hfuel : blocks.length < fuel) (ptr : Nat) :
    m.isValidStructRef d fuel ptr = some (decide (ptr ∈ blocks.flatMap (d.slots 0))) := by
  have hsymm : Std.Symm (Apart d) := ⟨fun b c h => h.symm⟩
  have hsize := d.two_words
  rw [Manager.isValidStructRef, walk_eq h.chain hfuel, map_some, Option.some.injEq,
    Bool.eq_iff_iff, decide_eq_true_eq, mem_flatMap]
  split
  next b hfind =>
    have hb := List.find?_some hfind
    simp only [Bool.and_eq_true, decide_eq_true_eq] at hb
    rw [beq_iff_eq]
    constructor
    · intro hmod
      refine ⟨b, mem_of_find?_eq_some hfind, (d.mem_slots (Nat.zero_le _)).mpr ?_⟩
      obtain ⟨i, hi⟩ := Nat.dvd_of_mod_eq_zero hmod
      refine ⟨i, Nat.zero_le i, ?_, by omega⟩
      apply Nat.lt_of_mul_lt_mul_left (a := d.size)
      have hlast := lastStruct_add_size (d := d) b
      rw [StructDesc.newBlockSize] at hlast
      omega
    · rintro ⟨c, hc, hslot⟩
      obtain rfl : b = c := by
        by_contra hbc
        have hsep := h.apart.forall (mem_of_find?_eq_some hfind) hc hbc
        have hwithin := slot_within hslot
        have hlast := lastStruct_add_size (d := d) b
        rw [Apart] at hsep
        omega
      obtain ⟨i, -, -, rfl⟩ := (d.mem_slots (Nat.zero_le _)).mp hslot
      rw [Nat.add_sub_cancel_left, Nat.mul_mod_right]
  next hfind =>
    constructor
    · intro hfalse
      cases hfalse
    · rintro ⟨b, hb, hslot⟩
      have hnone := List.find?_eq_none.mp hfind b hb
      have hwithin := slot_within hslot
      have hlast := lastStruct_add_size (d := d) b
      simp only [Bool.and_eq_true, decide_eq_true_eq] at hnone
      omega

/-- The range of the unused structures is that of no others. -/
theorem Holds.mem_unused (h : Holds d m live blocks free unused)
    (hs : s ∈ blocks.flatMap (d.slots 0)) :
    s ∈ unused ↔ m.nextStruct ≤ s ∧ s ≤ m.lastStruct := by
  have hsymm : Std.Symm (Apart d) := ⟨fun b c h => h.symm⟩
  have hsize := d.two_words
  obtain ⟨c, hc, hsc⟩ := mem_flatMap.mp hs
  have hwithin := slot_within hsc
  cases blocks with
  | nil => exact absurd hc not_mem_nil
  | cons b rest =>
    obtain ⟨k, hk, rfl, hnext, hlast⟩ := h.current b rfl
    have hadd := lastStruct_add_size (d := d) b
    rw [d.mem_slots hk, hnext, hlast]
    constructor
    · rintro ⟨i, hki, hi, rfl⟩
      have hle := Nat.mul_le_mul_left d.size hki
      have hlt := mul_add_le (d := d) hi
      rw [StructDesc.newBlockSize] at hadd
      omega
    · rintro ⟨hge, hle⟩
      obtain rfl : b = c := by
        by_contra hbc
        have hsep := h.apart.forall mem_cons_self hc hbc
        rw [Apart] at hsep
        omega
      obtain ⟨i, -, hi, rfl⟩ := (d.mem_slots (Nat.zero_le _)).mp hsc
      exact ⟨i, Nat.le_of_mul_le_mul_left (by omega) (by omega : 0 < d.size), hi, rfl⟩

/-- In every run no structure is handed out that is live, the free structures are counted, and the
test of references tells which structures are live. -/
theorem reachable_structs (d : StructDesc) (mem : Nat → Nat) (m : Manager) (live : List Nat)
    (h : Relation.ReflTransGen (Step d) (init mem) (m, live)) :
    (∀ newBlock, Fresh d m newBlock → (m.allocateStruct d newBlock).1 ∉ live) ∧
      (∃ n capacity, live.length ≤ capacity ∧ ∀ fuel, n ≤ fuel →
        m.currentCapacity d fuel = some capacity ∧
        m.countFreeStructs d fuel = some (capacity - live.length) ∧
        ∀ ptr, m.isAllocatedStructRef d fuel ptr = some (decide (ptr ∈ live))) ∧
      ∀ l head tail live', Segment m.link (pointer head) l (pointer tail) →
        live.Perm (l ++ tail :: live') →
        ∃ n, ∀ fuel, n ≤ fuel → (m.deallocateStructList fuel head tail).isSome := by
  obtain ⟨blocks, free, unused, hholds⟩ := holds_of_reachable h
  refine ⟨fun newBlock hfresh => ?_, ?_, fun l head tail live' hlinked hlive =>
    (hholds.deallocate hlinked hlive).1⟩
  · obtain ⟨_, _, _, hnew⟩ := hholds.allocateStruct hfresh
    exact (nodup_cons.mp (nodup_append.mp hnew.nodup).1).1
  · have hlength := hholds.perm.length_eq
    have hcapacity : (blocks.flatMap (d.slots 0)).length = blocks.length * d.num := by
      simp [length_flatMap, StructDesc.slots]
    simp only [length_append, hcapacity] at hlength
    refine ⟨blocks.length + free.length + 1, blocks.length * d.num, by omega, fun fuel hfuel => ?_⟩
    have hblocks : blocks.length < fuel := by omega
    have hwalk : Manager.walk m.mem fuel m.freeList = some free :=
      walk_eq hholds.freed (by omega)
    refine ⟨by rw [Manager.currentCapacity, walk_eq hholds.chain hblocks]; rfl, ?_, fun ptr => ?_⟩
    · rw [Manager.countFreeStructs]
      split
      next hnull =>
        obtain rfl : blocks = [] := by
          have hchain := hholds.chain
          rw [hnull] at hchain
          cases blocks with
          | nil => rfl
          | cons b rest => cases (linked_cons.mp hchain).1
        rw [length_nil, Nat.zero_mul, Nat.zero_sub]
      next =>
        have hleft : m.numStructsLeftInBlock d = unused.length := by
          cases unused with
          | nil => rw [Manager.numStructsLeftInBlock, hholds.depleted]; rfl
          | cons s unused => exact hholds.allocateFromBlock.2.2.1
        rw [hwalk, map_some, hleft]
        congr 1
        omega
    · rw [Manager.isAllocatedStructRef, hholds.isValidStructRef_eq hblocks, bind_some]
      split
      next hin =>
        rw [decide_eq_true_eq] at hin
        rw [Manager.isAllocatedStruct, hwalk, map_some]
        have hdisjoint := (nodup_append.mp hholds.nodup).2.2
        have hcases := hholds.perm.mem_iff.mpr hin
        simp only [mem_append] at hcases hdisjoint
        split
        next hrange =>
          have hunused := (hholds.mem_unused hin).mpr hrange
          rw [eq_comm, Option.some.injEq, decide_eq_false_iff_not]
          exact fun hlive => hdisjoint ptr hlive ptr (.inr hunused) rfl
        next hrange =>
          rw [Option.some.injEq, Bool.eq_iff_iff, decide_eq_true_eq, Bool.not_eq_true',
            contains_eq_mem, decide_eq_false_iff_not]
          constructor
          · intro hfree
            rcases hcases with hlive | hfree' | hunused
            · exact hlive
            · exact absurd hfree' hfree
            · exact absurd ((hholds.mem_unused hin).mp hunused) hrange
          · exact fun hlive hfree => hdisjoint ptr hlive ptr (.inl hfree) rfl
      next hnot =>
        rw [Option.some.injEq, eq_comm, decide_eq_false_iff_not]
        intro hlive
        exact hnot (decide_eq_true (hholds.slot (.inl hlive)))

/-- A structure of sixteen bytes, the first of two in the block that is allocated at `1000`. -/
theorem reachable_structs_one :
    ∃ n capacity, 1 ≤ capacity ∧ ∀ fuel, n ≤ fuel →
      (((init fun _ => 0).1.allocateStruct ⟨16, 2, by decide, by decide⟩ 1000).2).countFreeStructs
        ⟨16, 2, by decide, by decide⟩ fuel = some (capacity - 1) := by
  obtain ⟨-, ⟨n, capacity, hle, hcount⟩, -⟩ := reachable_structs ⟨16, 2, by decide, by decide⟩
    (fun _ => 0) _ _ (.single (.allocate _ _ 1000 ⟨by decide, fun blocks h b hb => by
      cases blocks with
      | nil => cases hb
      | cons c blocks => cases (linked_cons.mp h).1⟩))
  exact ⟨n, capacity, hle, fun fuel hfuel => (hcount fuel hfuel).2.1⟩

end XSBEngine.Tables.StructManager
