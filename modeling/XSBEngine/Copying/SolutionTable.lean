import Mathlib
import XSBEngine.Library.Linked
import XSBEngine.Library.System

/-!
# The table of solution lists

Entries of `findall_solutions` and their chunks: `findall_init_c`, `get_more_chunk`, `findall_free`,
`findall_clean` and `release_and_throw_error`, `XSB/emu/findall.c:105–237`.
-/

namespace XSBEngine.Copying

open Function Library List

/-- `MAX_FINDALLS`. -/
def maxFindalls : Nat := 250

/-- What the table keeps of a `findall_solution_list`. An entry is active if its `tail` is not 0. -/
structure SolutionEntry where
  firstChunk : Option Nat
  currentChunk : Nat
  active : Bool
  size : Int

/-- `findall_solutions`, once it has been created, and `nextfree`, with the first cells of chunks.
Chunks are numbered as they are allocated, and `released` lists those that were given back. -/
structure SolutionTable where
  created : Bool
  entries : Nat → SolutionEntry
  nextfree : Int
  link : Nat → Option Nat
  allocated : Nat
  released : List Nat

namespace SolutionTable

/-- Before the first findall. -/
def empty : SolutionTable where
  created := false
  entries _ := ⟨none, 0, false, 0⟩
  nextfree := 0
  link _ := none
  allocated := 0
  released := []

/-- An assignment to an entry. -/
def setEntry (s : SolutionTable) (i : Nat) (e : SolutionEntry) : SolutionTable :=
  { s with entries := Function.update s.entries i e }

/-- The table is created with all entries in the free list. -/
def create (s : SolutionTable) : SolutionTable :=
  { s with
    created := true
    entries := fun i => ⟨none, 0, false, if i + 1 = maxFindalls then -1 else i + 1⟩
    nextfree := 0 }

/-- The first chunk of an entry, a new one if there is none. -/
def takeChunk (s : SolutionTable) (i : Nat) : Nat × SolutionTable :=
  match (s.entries i).firstChunk with
  | none => (s.allocated, { s with allocated := s.allocated + 1 })
  | some w => (w, s)

/-- `findall_init_c`. There is no result if all entries are active. -/
def findallInitC (s : SolutionTable) : Option (Nat × SolutionTable) :=
  let s := if s.created then s else s.create
  if s.nextfree < 0 then none
  else
    let thisfree := s.nextfree.toNat
    let size := (s.entries thisfree).size
    let (w, s) := s.takeChunk thisfree
    some (thisfree, { s.setEntry thisfree ⟨some w, w, true, 1⟩ with
      link := Function.update s.link w none
      nextfree := size })

/-- `get_more_chunk`, for the entry `i` as `current_findall`. -/
def getMoreChunk (s : SolutionTable) (i : Nat) : SolutionTable :=
  let e := s.entries i
  { s.setEntry i { e with currentChunk := s.allocated } with
    link := Function.update (Function.update s.link s.allocated none) e.currentChunk s.allocated
    allocated := s.allocated + 1 }

/-- The chunks that are linked from `p`. The bound is on their number. -/
def chunksFrom (link : Nat → Option Nat) : Nat → Option Nat → Option (List Nat)
  | _, none => some []
  | 0, some _ => none
  | n + 1, some p => (chunksFrom link n (link p)).map (p :: ·)

/-- `findall_free`. The first chunk is kept. -/
def findallFree (s : SolutionTable) (i : Nat) : Option SolutionTable :=
  (s.entries i).firstChunk.bind fun w =>
    (chunksFrom s.link s.allocated (s.link w)).map fun freed =>
      { s.setEntry i { s.entries i with active := false, size := s.nextfree } with
        released := freed.reverse ++ s.released
        nextfree := i }

/-- The assignment to `size` and the release of the first chunk, in `release_and_throw_error` and
`findall_clean`. -/
def dropFirstChunk (s : SolutionTable) (i : Nat) : SolutionTable :=
  { s.setEntry i { s.entries i with firstChunk := none, size := i + 1 } with
    released := (s.entries i).firstChunk.toList ++ s.released }

/-- `release_and_throw_error`, for the entry `i` as `current_findall`. -/
def releaseAndThrowError (s : SolutionTable) (i : Nat) : Option SolutionTable :=
  (s.findallFree i).map fun s => s.dropFirstChunk i

/-- The body of the loop in `findall_clean`, where `p` stays at the first entry. -/
def cleanEntry (s : SolutionTable) (i : Nat) : Option SolutionTable :=
  (if (s.entries 0).active then s.findallFree i else some s).map fun s => s.dropFirstChunk i

/-- `findall_clean`. -/
def findallClean (s : SolutionTable) : Option SolutionTable :=
  if s.created then
    ((List.range maxFindalls).foldlM cleanEntry s).map fun s =>
      let last := maxFindalls - 1
      { s.setEntry last { s.entries last with size := -1 } with nextfree := 0 }
  else some s

end SolutionTable

/-- Calls for the table. An entry gets more chunks, and adds to its size, in `findall_add` or
`read_canonical`; a memory error comes after some chunks. -/
inductive FindallCall where
  | init
  | add (i chunks size : Nat)
  | memoryError (i chunks : Nat)
  | getSolutions (i : Nat)
  | clean
deriving Repr, DecidableEq

namespace SolutionTable

/-- More chunks for an entry. -/
def getChunks (s : SolutionTable) (i : Nat) : Nat → SolutionTable
  | 0 => s
  | n + 1 => (s.getMoreChunk i).getChunks i n

/-- The table after a call. `findall_add` exits if the entry is not active, and the others are made
for the entry that `findall_init` returned. -/
def exec (s : SolutionTable) : FindallCall → Option SolutionTable
  | .init => s.findallInitC.map Prod.snd
  | .add i chunks size =>
    if i < maxFindalls ∧ (s.entries i).active then
      let s := s.getChunks i chunks
      some (s.setEntry i { s.entries i with size := (s.entries i).size + size })
    else none
  | .memoryError i chunks =>
    if i < maxFindalls ∧ (s.entries i).active then (s.getChunks i chunks).releaseAndThrowError i
    else none
  | .getSolutions i =>
    if i < maxFindalls ∧ (s.entries i).active then s.findallFree i else none
  | .clean => s.findallClean

end SolutionTable

/-- Runs of calls. -/
def findallCalls : System SolutionTable FindallCall where
  init s := s = .empty
  step s c s' := s.exec c = some s'

/-! ### Consistent tables -/

namespace SolutionTable

/-- The free list, which ends with -1, has the entries that are not active. -/
structure FreeList (s : SolutionTable) (l : List Nat) : Prop where
  linked : Linked (fun i => (s.entries i).size.toNat?) s.nextfree.toNat? l
  ended : -1 ≤ s.nextfree ∧ ∀ i ∈ l, -1 ≤ (s.entries i).size
  mem : ∀ i, i ∈ l ↔ i < maxFindalls ∧ (s.entries i).active = false

/-- How often a chunk is among those of the entries. -/
@[irreducible]
def places (chain : Nat → List Nat) (c : Nat) : Nat :=
  ∑ i ∈ Finset.range maxFindalls, (chain i).count c

/-- The chunks of the entries, one of which keeps its first chunk when it becomes inactive. A chunk
is in one place: it belongs to an entry, or has been released. -/
structure Chains (s : SolutionTable) (chain : Nat → List Nat) : Prop where
  active : ∀ i < maxFindalls, (s.entries i).active →
    Linked s.link (s.entries i).firstChunk (chain i) ∧
      (chain i).getLast? = some (s.entries i).currentChunk
  inactive : ∀ i < maxFindalls, (s.entries i).active = false →
    chain i = (s.entries i).firstChunk.toList
  placed : ∀ c, s.released.count c + places chain c = if c < s.allocated then 1 else 0

/-- The invariant of the calls. -/
structure Consistent (s : SolutionTable) : Prop where
  free : s.created → ∃ l, s.FreeList l
  chains : ∃ chain, s.Chains chain
  fresh : s.created = false → ∀ i, (s.entries i).firstChunk = none ∧ (s.entries i).active = false

variable {s s' : SolutionTable} {chain : Nat → List Nat} {l : List Nat} {i j c w n : Nat}

/-! ### Chunks -/

/-- The chunks of one entry change. -/
theorem places_update (chain : Nat → List Nat) (hi : i < maxFindalls) (l : List Nat) (c : Nat) :
    places (Function.update chain i l) c + (chain i).count c = places chain c + l.count c := by
  have hmem : i ∈ Finset.range maxFindalls := Finset.mem_range.mpr hi
  unfold places
  generalize Finset.range maxFindalls = S at hmem ⊢
  rw [← Finset.sum_erase_add _ _ hmem, ← Finset.sum_erase_add S (fun j => (chain j).count c) hmem,
    update_self]
  have hrest : ∑ j ∈ S.erase i, (Function.update chain i l j).count c =
      ∑ j ∈ S.erase i, (chain j).count c := by
    apply Finset.sum_congr rfl
    intro j hj
    rw [update_of_ne (Finset.ne_of_mem_erase hj)]
  omega

theorem count_le_places (chain : Nat → List Nat) (hi : i < maxFindalls) (c : Nat) :
    (chain i).count c ≤ places chain c := by
  have hmem : i ∈ Finset.range maxFindalls := Finset.mem_range.mpr hi
  unfold places
  generalize Finset.range maxFindalls = S at hmem ⊢
  exact Finset.single_le_sum (f := fun j => (chain j).count c) (fun _ _ => Nat.zero_le _) hmem

theorem add_count_le_places (chain : Nat → List Nat) (hi : i < maxFindalls) (hj : j < maxFindalls)
    (hne : i ≠ j) (c : Nat) : (chain i).count c + (chain j).count c ≤ places chain c := by
  have hmemi : i ∈ Finset.range maxFindalls := Finset.mem_range.mpr hi
  have hmemj : j ∈ Finset.range maxFindalls := Finset.mem_range.mpr hj
  unfold places
  generalize Finset.range maxFindalls = S at hmemi hmemj ⊢
  exact Finset.add_le_sum (f := fun j ↦ (chain j).count c) (fun _ _ ↦ Nat.zero_le _) hmemi hmemj hne

section

variable (h : s.Chains chain)
include h

section

variable (hi : i < maxFindalls)
include hi

theorem Chains.count_le (c : Nat) :
    s.released.count c + (chain i).count c ≤ if c < s.allocated then 1 else 0 := by
  have hle := count_le_places chain hi c
  have hplaced := h.placed c
  omega

/-- A chunk of an entry has been allocated, and has not been released. -/
theorem Chains.lt (hc : c ∈ chain i) :
    c < s.allocated := by
  have hpos := count_pos_iff.mpr hc
  have hle := h.count_le hi c
  split at hle
  next hlt => exact hlt
  next => omega

/-- Two entries do not share a chunk. -/
theorem Chains.unique (hj : j < maxFindalls)
    (hci : c ∈ chain i) (hcj : c ∈ chain j) : i = j := by
  by_contra hne
  have hposi := count_pos_iff.mpr hci
  have hposj := count_pos_iff.mpr hcj
  have hle := add_count_le_places chain hi hj hne c
  have hplaced := h.placed c
  split at hplaced <;> omega

/-- A chunk of one entry, or a new one, is not a chunk of another entry. -/
theorem Chains.other (hj : j < maxFindalls)
    (hne : j ≠ i) (hc : c ∈ chain i ∨ s.allocated ≤ c) : c ∉ chain j := by
  intro hcj
  rcases hc with hci | hle
  · exact hne (h.unique hj hi hcj hci)
  · have hlt := h.lt hj hcj
    omega

/-- What changes if the chunks of one entry do, and nothing is written to those of others. -/
theorem Chains.update {e : SolutionEntry}
    (hentries : s'.entries = Function.update s.entries i e)
    (hlink : ∀ j < maxFindalls, j ≠ i → ∀ c ∈ chain j, s'.link c = s.link c)
    (hactive : e.active → Linked s'.link e.firstChunk l ∧ l.getLast? = some e.currentChunk)
    (hinactive : e.active = false → l = e.firstChunk.toList)
    (hplaced : ∀ c, s'.released.count c + l.count c + (if c < s.allocated then 1 else 0) =
      s.released.count c + (chain i).count c + if c < s'.allocated then 1 else 0) :
    s'.Chains (Function.update chain i l) := by
  constructor
  case active =>
    intro j hj hact
    rw [hentries] at hact ⊢
    by_cases hji : j = i
    case pos =>
      subst hji
      rw [update_self] at hact ⊢
      rw [update_self]
      exact hactive hact
    case neg =>
      rw [update_of_ne hji] at hact ⊢
      rw [update_of_ne hji]
      obtain ⟨hlinked, hlast⟩ := h.active j hj hact
      exact ⟨hlinked.congr fun c hc => (hlink j hj hji c hc).symm, hlast⟩
  case inactive =>
    intro j hj hact
    rw [hentries] at hact ⊢
    by_cases hji : j = i
    case pos =>
      subst hji
      rw [update_self] at hact ⊢
      rw [update_self]
      exact hinactive hact
    case neg =>
      rw [update_of_ne hji] at hact ⊢
      rw [update_of_ne hji]
      exact h.inactive j hj hact
  case placed =>
    intro c
    have hsum := places_update chain hi l c
    have hold := h.placed c
    have hnew := hplaced c
    omega

/-- `get_more_chunk` adds a chunk to those of the entry. -/
theorem Chains.getMoreChunk (hactive : (s.entries i).active) :
    (s.getMoreChunk i).Chains (Function.update chain i (chain i ++ [s.allocated])) := by
  obtain ⟨hlinked, hlast⟩ := h.active i hi hactive
  obtain ⟨front, hfront⟩ := List.getLast?_eq_some_iff.mp hlast
  have hcur : (s.entries i).currentChunk ∈ chain i := mem_of_getLast? hlast
  have hnew : s.allocated ∉ chain i := fun hmem => lt_irrefl _ (h.lt hi hmem)
  have hne : s.allocated ≠ (s.entries i).currentChunk := fun heq => hnew (heq ▸ hcur)
  apply h.update hi rfl
  case hlink =>
    intro j hj hji c hc
    have hc1 : c ≠ s.allocated := fun heq => h.other hi hj hji (Or.inr le_rfl) (heq ▸ hc)
    have hc2 : c ≠ (s.entries i).currentChunk :=
      fun heq => h.other hi hj hji (Or.inl hcur) (heq ▸ hc)
    show Function.update (Function.update s.link _ _) _ _ c = s.link c
    rw [update_of_ne hc2, update_of_ne hc1]
  case hactive =>
    intro _
    refine ⟨?_, by simp⟩
    show Linked (Function.update (Function.update s.link _ _) _ _) (s.entries i).firstChunk _
    rw [hfront] at hlinked hnew ⊢
    rw [update_comm hne]
    exact hlinked.concat hnew
  case hinactive =>
    intro hfalse
    exact absurd (hactive.symm.trans hfalse) nofun
  case hplaced =>
    intro c
    show s.released.count c + _ + _ = _ + if c < s.allocated + 1 then 1 else 0
    rw [count_append, count_singleton]
    by_cases hc : c = s.allocated
    · rw [hc, if_neg (lt_irrefl _), if_pos (Nat.lt_succ_self _), beq_self_eq_true, if_pos rfl]
      omega
    · have hiff : c < s.allocated + 1 ↔ c < s.allocated := by omega
      have hbeq : (s.allocated == c) = false := by simp [Ne.symm hc]
      simp only [hiff, hbeq, Bool.false_eq_true, if_false]
      omega

/-- The chunk of an entry that is handed out. -/
theorem Chains.init (hactive : (s.entries i).active = false) {size : Int} :
    Chains { (s.takeChunk i).2.setEntry i ⟨some (s.takeChunk i).1, (s.takeChunk i).1, true, 1⟩ with
      link := Function.update (s.takeChunk i).2.link (s.takeChunk i).1 none
      nextfree := size } (Function.update chain i [(s.takeChunk i).1]) := by
  have hchain := h.inactive i hi hactive
  have hlink : ∀ w, w ∈ chain i ∨ s.allocated ≤ w → ∀ j < maxFindalls, j ≠ i → ∀ c ∈ chain j,
      Function.update s.link w none c = s.link c := by
    intro w hw j hj hji c hc
    apply update_of_ne
    rintro rfl
    exact h.other hi hj hji hw hc
  have hlinked : ∀ w, Linked (Function.update s.link w none) (some w) [w] :=
    fun w => ⟨rfl, update_self ..⟩
  cases hfirst : (s.entries i).firstChunk with
  | none =>
    rw [hfirst] at hchain
    have htake : s.takeChunk i = (s.allocated, { s with allocated := s.allocated + 1 }) := by
      rw [takeChunk, hfirst]
    rw [htake]
    refine h.update hi rfl (hlink _ (Or.inr le_rfl)) (fun _ => ⟨hlinked _, rfl⟩) nofun fun c => ?_
    show s.released.count c + _ + _ = _ + if c < s.allocated + 1 then 1 else 0
    rw [hchain, count_singleton]
    by_cases hc : c = s.allocated
    · rw [hc, if_neg (lt_irrefl _), if_pos (Nat.lt_succ_self _), beq_self_eq_true, if_pos rfl]
      rfl
    · have hiff : c < s.allocated + 1 ↔ c < s.allocated := by omega
      have hbeq : (s.allocated == c) = false := by simp [Ne.symm hc]
      simp [hiff, hbeq]
  | some w =>
    rw [hfirst] at hchain
    have htake : s.takeChunk i = (w, s) := by rw [takeChunk, hfirst]
    rw [htake]
    refine h.update hi rfl (hlink w (Or.inl ?_)) (fun _ => ⟨hlinked _, rfl⟩) nofun fun c => ?_
    · simp [hchain]
    · show s.released.count c + _ + _ = _ + if c < s.allocated then 1 else 0
      rw [hchain]
      rfl

end

end

theorem chunksFrom_eq {p : Option Nat} (h : Linked s.link p l) (hn : l.length ≤ n) :
    chunksFrom s.link n p = some l := by
  induction l generalizing p n with
  | nil =>
    rw [linked_nil] at h
    rw [h]
    cases n <;> rfl
  | cons c l ih =>
    obtain ⟨rfl, hrest⟩ := h
    cases n with
    | zero => simp at hn
    | succ n =>
      rw [chunksFrom, ih hrest (Nat.le_of_succ_le_succ hn)]
      rfl

/-- An active entry is freed: its chunks but the first are released. -/
theorem Chains.free (h : s.Chains chain) (hi : i < maxFindalls) (hactive : (s.entries i).active) :
    ∃ w freed, (s.entries i).firstChunk = some w ∧ chain i = w :: freed ∧
      s.findallFree i = some
        { s.setEntry i { s.entries i with active := false, size := s.nextfree } with
          released := freed.reverse ++ s.released
          nextfree := i } := by
  obtain ⟨hlinked, hlast⟩ := h.active i hi hactive
  obtain ⟨w, freed, hchain⟩ : ∃ w freed, chain i = w :: freed := by
    cases hc : chain i with
    | nil => simp [hc] at hlast
    | cons w freed => exact ⟨w, freed, rfl⟩
  rw [hchain, linked_cons] at hlinked
  obtain ⟨hfirst, hrest⟩ := hlinked
  have hlen : freed.length ≤ s.allocated := by
    have hsub : freed ⊆ List.range s.allocated := by
      intro c hc
      exact mem_range.mpr (h.lt hi (hchain ▸ mem_cons_of_mem w hc))
    simpa using (hrest.nodup.subperm hsub).length_le
  refine ⟨w, freed, hfirst, hchain, ?_⟩
  rw [findallFree, hfirst, Option.bind_some, chunksFrom_eq hrest hlen]
  rfl

/-- The chunks after an active entry has been freed. -/
theorem Chains.freed (h : s.Chains chain) (hi : i < maxFindalls) (hactive : (s.entries i).active)
    (hfree : s.findallFree i = some s') :
    s'.Chains (Function.update chain i (s.entries i).firstChunk.toList) := by
  obtain ⟨w, freed, hfirst, hchain, heq⟩ := h.free hi hactive
  obtain rfl := Option.some.inj (heq.symm.trans hfree)
  refine h.update hi rfl (fun _ _ _ _ _ => rfl) nofun (fun _ => rfl) fun c => ?_
  show (freed.reverse ++ s.released).count c + _ + _ = _
  rw [hfirst, hchain, count_append, count_reverse, count_cons]
  simp only [Option.toList_some, count_singleton]
  show _ = _ + if c < s.allocated then 1 else 0
  omega

/-- The first chunk of an inactive entry is released. -/
theorem Chains.dropFirstChunk (h : s.Chains chain) (hi : i < maxFindalls)
    (hactive : (s.entries i).active = false) :
    (s.dropFirstChunk i).Chains (Function.update chain i []) := by
  refine h.update hi rfl (fun _ _ _ _ _ => rfl) ?_ (fun _ => rfl) fun c => ?_
  · intro hact
    exact absurd (hact.symm.trans hactive) nofun
  · show ((s.entries i).firstChunk.toList ++ s.released).count c + _ + _ = _
    rw [h.inactive i hi hactive, count_append]
    simp only [count_nil]
    show _ = _ + if c < s.allocated then 1 else 0
    omega

/-! ### The free list -/

theorem FreeList.congr (h : s.FreeList l) (hnext : s'.nextfree = s.nextfree)
    (hsize : ∀ i ∈ l, (s'.entries i).size = (s.entries i).size)
    (hactive : ∀ i, (s'.entries i).active = (s.entries i).active) : s'.FreeList l := by
  constructor
  case linked =>
    rw [hnext]
    exact h.linked.congr fun i hi => by rw [hsize i hi]
  case ended =>
    rw [hnext]
    exact ⟨h.ended.1, fun i hi => hsize i hi ▸ h.ended.2 i hi⟩
  case mem =>
    intro i
    rw [hactive, h.mem]

/-- An active entry is not in the free list. -/
theorem FreeList.not_mem (h : s.FreeList l) (hactive : (s.entries i).active) : i ∉ l := by
  intro hi
  exact absurd (hactive.symm.trans ((h.mem i).mp hi).2) nofun

/-- The first free entry is handed out. -/
theorem FreeList.pop (h : s.FreeList l) (hnext : ¬ s.nextfree < 0) :
    ∃ l', l = s.nextfree.toNat :: l' ∧
      ∀ s' : SolutionTable, ∀ e, e.active →
        s'.entries = Function.update s.entries s.nextfree.toNat e →
        s'.nextfree = (s.entries s.nextfree.toNat).size → s'.FreeList l' := by
  have hlinked := h.linked
  have hsome : s.nextfree.toNat? = some s.nextfree.toNat := by
    obtain ⟨n, hn⟩ := Int.eq_ofNat_of_zero_le (not_lt.mp hnext)
    rw [hn]
    rfl
  rw [hsome] at hlinked
  cases l with
  | nil => cases hlinked
  | cons i l' =>
    obtain ⟨hi, hrest⟩ := hlinked
    obtain rfl := Option.some.inj hi
    have hnodup := nodup_cons.mp h.linked.nodup
    have hne : ∀ j ∈ l', j ≠ s.nextfree.toNat := fun j hj heq => hnodup.1 (heq ▸ hj)
    refine ⟨l', rfl, fun s' e he hentries hs' => ?_⟩
    constructor
    case linked =>
      rw [hs']
      exact hrest.congr fun j hj => by rw [hentries, update_of_ne (hne j hj)]
    case ended =>
      rw [hs', hentries]
      refine ⟨h.ended.2 _ mem_cons_self, fun j hj => ?_⟩
      rw [update_of_ne (hne j hj)]
      exact h.ended.2 j (mem_cons_of_mem _ hj)
    case mem =>
      intro j
      rw [hentries]
      by_cases hj : j = s.nextfree.toNat
      · subst hj
        rw [update_self, he]
        simpa using hnodup.1
      · rw [update_of_ne hj, ← h.mem j, mem_cons, or_iff_right hj]

/-- An entry is put in front. -/
theorem FreeList.push (h : s.FreeList l) (hi : i < maxFindalls) (hactive : (s.entries i).active)
    {e : SolutionEntry} (he : e.active = false) (hsize : e.size = s.nextfree)
    (hentries : s'.entries = Function.update s.entries i e) (hnext : s'.nextfree = i) :
    s'.FreeList (i :: l) := by
  have hne : ∀ j ∈ l, j ≠ i := fun j hj heq => h.not_mem hactive (heq ▸ hj)
  constructor
  case linked =>
    rw [hnext]
    refine ⟨rfl, ?_⟩
    show Linked _ (s'.entries i).size.toNat? l
    rw [hentries, update_self, hsize]
    exact h.linked.congr fun j hj => by rw [update_of_ne (hne j hj)]
  case ended =>
    rw [hnext, hentries]
    refine ⟨by omega, fun j hj => ?_⟩
    rcases mem_cons.mp hj with rfl | hj
    · rw [update_self, hsize]
      exact h.ended.1
    · rw [update_of_ne (hne j hj)]
      exact h.ended.2 j hj
  case mem =>
    intro j
    rw [hentries]
    by_cases hj : j = i
    · subst hj
      simp [hi, he]
    · rw [update_of_ne hj, ← h.mem j, mem_cons, or_iff_right hj]

/-- The entries from `i` on, each of which leads to the next one. -/
theorem linked_range' {next : Nat → Option Nat} {m : Nat}
    (hnext : ∀ j, i ≤ j → j < i + m → next j = some (j + 1)) (hlast : next (i + m) = none) :
    Linked next (some i) (List.range' i (m + 1)) := by
  induction m generalizing i with
  | zero => exact ⟨rfl, hlast⟩
  | succ m ih =>
    refine ⟨rfl, ?_⟩
    rw [hnext i le_rfl (by omega)]
    exact ih (fun j hj hlt => hnext j (by omega) (by omega)) (by rw [← hlast]; congr 1; omega)

/-- All entries are in the free list, each before the next one. -/
theorem freeList_range (hnext : s.nextfree = 0)
    (hentries : ∀ i < maxFindalls, (s.entries i).active = false ∧
      (s.entries i).size = if i + 1 = maxFindalls then -1 else (i : Int) + 1) :
    s.FreeList (List.range maxFindalls) := by
  constructor
  case linked =>
    rw [hnext, range_eq_range']
    refine linked_range' (i := 0) (m := 249) (fun j _ hj => ?_) ?_
    · rw [(hentries j (by unfold maxFindalls; omega)).2, if_neg (by unfold maxFindalls; omega)]
      rfl
    · rw [(hentries _ (by decide)).2, if_pos (by decide)]
      rfl
  case ended =>
    rw [hnext]
    refine ⟨by omega, fun i hi => ?_⟩
    rw [(hentries i (mem_range.mp hi)).2]
    split <;> omega
  case mem =>
    intro i
    rw [mem_range]
    exact ⟨fun hi => ⟨hi, (hentries i hi).1⟩, fun hi => hi.1⟩

end SolutionTable

end XSBEngine.Copying
