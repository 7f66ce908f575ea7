import XSBEngine.Copying.SolutionTable

/-!
# Runs of the table of solution lists

The free list and the chunks in all states that calls of findall reach, and the two clean-up paths
that may break them.
-/

namespace XSBEngine.Copying

open Function Library List Option

namespace SolutionTable

variable {s s' : SolutionTable} {chain : Nat → List Nat} {l : List Nat} {i j c w n : Nat}

/-! ### Calls keep tables consistent -/

theorem consistent_empty : Consistent .empty where
  free := nofun
  chains := by
    refine ⟨fun _ => [], nofun, fun _ _ _ => rfl, fun c => ?_⟩
    unfold places
    simp [empty]
  fresh _ _ := ⟨rfl, rfl⟩

/-- An active entry is one of a table that has been created. -/
theorem Consistent.created (h : s.Consistent) (hactive : (s.entries i).active) :
    s.created = true := by
  cases hc : s.created with
  | true => rfl
  | false => exact absurd (hactive.symm.trans (h.fresh hc i).2) nofun

theorem Consistent.create (h : s.Consistent) (hc : s.created = false) : s.create.Consistent where
  free _ := ⟨_, freeList_range rfl fun i _ => ⟨rfl, rfl⟩⟩
  chains := by
    obtain ⟨chain, hchains⟩ := h.chains
    refine ⟨chain, nofun, fun i hi _ => ?_, hchains.placed⟩
    rw [hchains.inactive i hi (h.fresh hc i).2, (h.fresh hc i).1]
    rfl
  fresh hfalse := Bool.noConfusion hfalse

/-- The first free entry becomes active. -/
theorem Consistent.init (h : s.Consistent) (hinit : s.findallInitC = some (i, s')) :
    s'.Consistent ∧ i < maxFindalls ∧ (s.entries i).active = false := by
  obtain ⟨t, ht, hcreated, hconsistent, hactive⟩ : ∃ t : SolutionTable,
      t = (if s.created then s else s.create) ∧ t.created ∧ t.Consistent ∧
      ∀ i, (t.entries i).active = false → (s.entries i).active = false := by
    refine ⟨_, rfl, ?_⟩
    cases hc : s.created with
    | true => exact ⟨hc, h, fun _ hi => hi⟩
    | false => exact ⟨rfl, h.create hc, fun i _ => (h.fresh hc i).2⟩
  unfold findallInitC at hinit
  rw [← ht] at hinit
  simp only at hinit
  split at hinit
  next => cases hinit
  next hnext =>
    obtain ⟨rfl, rfl⟩ := Prod.mk.inj (some.inj hinit)
    obtain ⟨l, hfree⟩ := hconsistent.free hcreated
    obtain ⟨chain, hchains⟩ := hconsistent.chains
    obtain ⟨l', hl, hpop⟩ := hfree.pop hnext
    obtain ⟨hlt, hinactive⟩ := (hfree.mem _).mp (hl ▸ mem_cons_self)
    have htake : (t.takeChunk t.nextfree.toNat).2.entries = t.entries ∧
        (t.takeChunk t.nextfree.toNat).2.created = t.created := by
      unfold takeChunk
      split <;> exact ⟨rfl, rfl⟩
    let w := (t.takeChunk t.nextfree.toNat).1
    refine ⟨⟨fun _ => ⟨l', hpop _ ⟨some w, w, true, 1⟩ rfl ?_ rfl⟩,
      ⟨_, hchains.init hlt hinactive⟩, ?_⟩, hlt, hactive _ hinactive⟩
    · exact congrArg (update · _ _) htake.1
    · intro hfalse
      exact absurd (hfalse.symm.trans (htake.2.trans hcreated)) nofun

@[simp] theorem getChunks_nextfree : (s.getChunks i n).nextfree = s.nextfree := by
  induction n generalizing s with
  | zero => rfl
  | succ n ih => rw [getChunks, ih]; rfl

theorem getMoreChunk_entries (s : SolutionTable) (i j : Nat) :
    ((s.getMoreChunk i).entries j).active = (s.entries j).active ∧
      ((s.getMoreChunk i).entries j).size = (s.entries j).size := by
  show (update s.entries i _ j).active = _ ∧ (update s.entries i _ j).size = _
  by_cases hj : j = i
  · subst hj
    rw [update_self]
    exact ⟨rfl, rfl⟩
  · rw [update_of_ne hj]
    exact ⟨rfl, rfl⟩

section

variable (h : s.Consistent)
include h

/-- More chunks for an active entry. -/
theorem Consistent.getMoreChunk (hi : i < maxFindalls)
    (hactive : (s.entries i).active) : (s.getMoreChunk i).Consistent := by
  obtain ⟨chain, hchains⟩ := h.chains
  have hentries := getMoreChunk_entries s i
  constructor
  case free =>
    intro hc
    obtain ⟨l, hfree⟩ := h.free hc
    exact ⟨l, hfree.congr rfl (fun j _ => (hentries j).2) fun j => (hentries j).1⟩
  case chains => exact ⟨_, hchains.getMoreChunk hi hactive⟩
  case fresh =>
    intro hc
    exact absurd ((h.created hactive).symm.trans hc) nofun

theorem Consistent.getChunks (hi : i < maxFindalls)
    (hactive : (s.entries i).active) :
    (s.getChunks i n).Consistent ∧ ((s.getChunks i n).entries i).active := by
  induction n generalizing s with
  | zero => exact ⟨h, hactive⟩
  | succ n ih =>
    refine ih (h.getMoreChunk hi hactive) ?_
    rw [(getMoreChunk_entries s i i).1]
    exact hactive

/-- A size that is added to is that of an active entry. -/
theorem Consistent.addSize (hi : i < maxFindalls)
    (hactive : (s.entries i).active) (size : Int) :
    (s.setEntry i { s.entries i with size := size }).Consistent := by
  obtain ⟨chain, hchains⟩ := h.chains
  constructor
  case free =>
    intro hc
    obtain ⟨l, hfree⟩ := h.free hc
    refine ⟨l, hfree.congr rfl (fun j hj => ?_) fun j => ?_⟩
    · have hne : j ≠ i := fun heq => hfree.not_mem hactive (heq ▸ hj)
      show (update s.entries i _ j).size = _
      rw [update_of_ne hne]
    · show (update s.entries i _ j).active = _
      by_cases hj : j = i
      · subst hj
        rw [update_self]
      · rw [update_of_ne hj]
  case chains =>
    refine ⟨_, hchains.update (l := chain i) hi rfl (fun _ _ _ _ _ => rfl)
      (fun _ => hchains.active i hi hactive) ?_ fun _ => rfl⟩
    intro hfalse
    exact absurd (hactive.symm.trans hfalse) nofun
  case fresh =>
    intro hc
    exact absurd ((h.created hactive).symm.trans hc) nofun

/-- An active entry can be freed. -/
theorem Consistent.free_eq (hi : i < maxFindalls)
    (hactive : (s.entries i).active) : ∃ s', s.findallFree i = some s' ∧ s'.Consistent ∧
      s'.created ∧ s'.nextfree = i ∧ s'.entries = update s.entries i
        { s.entries i with active := false, size := s.nextfree } := by
  obtain ⟨chain, hchains⟩ := h.chains
  obtain ⟨w, freed, -, -, heq⟩ := hchains.free hi hactive
  obtain ⟨l, hfree⟩ := h.free (h.created hactive)
  refine ⟨_, heq, ⟨fun _ => ⟨_, hfree.push hi hactive ?_ ?_ rfl rfl⟩,
    ⟨_, hchains.freed hi hactive heq⟩, ?_⟩, h.created hactive, rfl, rfl⟩
  · rfl
  · rfl
  · intro hc
    exact absurd ((h.created hactive).symm.trans hc) nofun

/-- The first chunk of an inactive entry may be released if the entry before the next one in the
free list is meant. -/
theorem Consistent.dropFirstChunk (hi : i < maxFindalls)
    (hcreated : s.created) (hactive : (s.entries i).active = false)
    (hsize : (s.entries i).size = i + 1) : (s.dropFirstChunk i).Consistent := by
  obtain ⟨chain, hchains⟩ := h.chains
  obtain ⟨l, hfree⟩ := h.free hcreated
  refine ⟨fun _ => ⟨l, hfree.congr rfl (fun j _ => ?_) fun j => ?_⟩,
    ⟨_, hchains.dropFirstChunk hi hactive⟩, ?_⟩
  · show (update s.entries i _ j).size = _
    by_cases hj : j = i
    · subst hj
      rw [update_self, hsize]
    · rw [update_of_ne hj]
  · show (update s.entries i _ j).active = _
    by_cases hj : j = i
    · subst hj
      rw [update_self]
    · rw [update_of_ne hj]
  · intro hc
    exact absurd (hcreated.symm.trans hc) nofun

end

/-- The entries before `n` have been cleaned. -/
structure Cleaned (s : SolutionTable) (n : Nat) : Prop where
  created : s.created
  chains : ∃ chain, s.Chains chain
  inactive : ∀ i < maxFindalls, (s.entries i).active = false
  sizes : ∀ i < n, (s.entries i).size = i + 1

theorem Cleaned.dropFirstChunk (h : s.Cleaned n) (hn : n < maxFindalls) :
    (s.dropFirstChunk n).Cleaned (n + 1) := by
  obtain ⟨chain, hchains⟩ := h.chains
  constructor
  case created => exact h.created
  case chains => exact ⟨_, hchains.dropFirstChunk hn (h.inactive n hn)⟩
  case inactive =>
    intro i hi
    show (update s.entries n _ i).active = _
    by_cases hin : i = n
    · subst hin
      rw [update_self]
      exact h.inactive i hn
    · rw [update_of_ne hin]
      exact h.inactive i hi
  case sizes =>
    intro i hi
    show (update s.entries n _ i).size = _
    by_cases hin : i = n
    · subst hin
      rw [update_self]
    · rw [update_of_ne hin]
      exact h.sizes i (by omega)

/-- The first entry is freed if it is active, and no other one is. -/
theorem Consistent.cleanFirst (h : s.Consistent) (hcreated : s.created)
    (hactive : ∀ i < maxFindalls, i ≠ 0 → (s.entries i).active = false) :
    ∃ s', cleanEntry s 0 = some s' ∧ s'.Cleaned 1 := by
  have hzero : 0 < maxFindalls := by decide
  unfold cleanEntry
  cases hfirst : (s.entries 0).active with
  | true =>
    obtain ⟨s', heq, hconsistent, hcreated', -, hentries⟩ := h.free_eq hzero hfirst
    rw [if_pos rfl, heq]
    refine ⟨_, rfl, Cleaned.dropFirstChunk ⟨hcreated', hconsistent.chains, ?_, nofun⟩ hzero⟩
    intro i hi
    rw [hentries]
    by_cases hi0 : i = 0
    · subst hi0
      rw [update_self]
    · rw [update_of_ne hi0]
      exact hactive i hi hi0
  | false =>
    refine ⟨_, rfl, Cleaned.dropFirstChunk ⟨hcreated, h.chains, ?_, nofun⟩ hzero⟩
    intro i hi
    by_cases hi0 : i = 0
    · rw [hi0]
      exact hfirst
    · exact hactive i hi hi0

theorem Cleaned.cleanEntry (h : s.Cleaned n) (hn : n < maxFindalls) :
    ∃ s', cleanEntry s n = some s' ∧ s'.Cleaned (n + 1) := by
  unfold SolutionTable.cleanEntry
  rw [h.inactive 0 (by decide)]
  exact ⟨_, rfl, h.dropFirstChunk hn⟩

/-- The loop of `findall_clean`. -/
theorem Consistent.cleaned (h : s.Consistent) (hcreated : s.created)
    (hactive : ∀ i < maxFindalls, i ≠ 0 → (s.entries i).active = false) (hn : n < maxFindalls) :
    ∃ s', (List.range (n + 1)).foldlM SolutionTable.cleanEntry s = some s' ∧
      s'.Cleaned (n + 1) := by
  induction n with
  | zero =>
    obtain ⟨s', heq, hs'⟩ := h.cleanFirst hcreated hactive
    refine ⟨s', ?_, hs'⟩
    show (SolutionTable.cleanEntry s 0).bind pure = _
    rw [heq]
    rfl
  | succ n ih =>
    obtain ⟨s1, heq1, hs1⟩ := ih (by omega)
    obtain ⟨s', heq, hs'⟩ := hs1.cleanEntry hn
    refine ⟨s', ?_, hs'⟩
    rw [range_succ, foldlM_append, heq1]
    show (SolutionTable.cleanEntry s1 (n + 1)).bind pure = _
    rw [heq]
    rfl

/-- A cleaned table is as one that has just been created, and has no chunks. -/
theorem Consistent.clean (h : s.Consistent)
    (hactive : ∀ i < maxFindalls, i ≠ 0 → (s.entries i).active = false) :
    ∃ s', s.findallClean = some s' ∧ s'.Consistent ∧
      ∀ i < maxFindalls, (s'.entries i).active = false := by
  unfold findallClean
  cases hcreated : s.created with
  | false => exact ⟨s, rfl, h, fun i _ => (h.fresh hcreated i).2⟩
  | true =>
    obtain ⟨s1, heq, hs1⟩ := h.cleaned hcreated hactive (n := 249) (by decide)
    rw [if_pos rfl, show maxFindalls = 249 + 1 from rfl, heq]
    obtain ⟨chain, hchains⟩ := hs1.chains
    have hlast : (s1.entries 249).active = false := hs1.inactive 249 (by decide)
    have hinactive : ∀ i < maxFindalls,
        (update s1.entries 249 { s1.entries 249 with size := -1 } i).active = false := by
      intro i hi
      by_cases hi' : i = 249
      · rw [hi', update_self]
        exact hlast
      · rw [update_of_ne hi']
        exact hs1.inactive i hi
    refine ⟨_, rfl, ⟨fun _ => ⟨_, freeList_range rfl fun i hi => ⟨hinactive i hi, ?_⟩⟩,
      ⟨update chain 249 (chain 249), ?_⟩, ?_⟩, hinactive⟩
    · show (update s1.entries 249 _ i).size = _
      by_cases hi' : i = 249
      · rw [hi', update_self]
        rfl
      · rw [update_of_ne hi', if_neg (by unfold maxFindalls; omega)]
        unfold maxFindalls at hi
        exact hs1.sizes i (by omega)
    · refine hchains.update (by decide) rfl (fun _ _ _ _ _ => rfl) ?_ (fun _ => ?_) fun _ => rfl
      · intro hact
        exact absurd (hact.symm.trans hlast) nofun
      · exact hchains.inactive 249 (by decide) hlast
    · intro hc
      exact absurd (hs1.created.symm.trans hc) nofun

/-! ### Runs -/

/-- The entry that the error path frees comes just before the next free one, and only the first
entry may be active when the table is cleaned. -/
def Repairs (s : SolutionTable) : FindallCall → Prop
  | .memoryError i _ => s.nextfree = i + 1
  | .clean => s.created → ∀ i < maxFindalls, i ≠ 0 → (s.entries i).active = false
  | _ => True

/-- A chunk is held by an entry: by an active one, or as the first chunk that is kept. -/
def Holds (s : SolutionTable) (i c : Nat) : Prop :=
  i < maxFindalls ∧
    if (s.entries i).active then ∃ l, Linked s.link (s.entries i).firstChunk l ∧ c ∈ l
    else (s.entries i).firstChunk = some c

/-- Tables that are in order. -/
structure Orderly (s : SolutionTable) : Prop where
  freeList : s.created → ∃ l, l.Nodup ∧ s.FreeList l
  inactive : ∀ i s', s.findallInitC = some (i, s') → (s.entries i).active = false
  chunks : ∀ c < s.allocated, s.released.count c = 1 ∧ (∀ i, ¬ s.Holds i c) ∨
    s.released.count c = 0 ∧ ∃! i, s.Holds i c
  frees : ∀ i < maxFindalls, (s.entries i).active → ∃ s', s.findallFree i = some s'

theorem Consistent.step (h : s.Consistent) {c : FindallCall} (hc : s.Repairs c)
    (hstep : s.exec c = some s') : s'.Consistent := by
  cases c with
  | init =>
    obtain ⟨⟨i, t⟩, heq, rfl⟩ := map_eq_some_iff.mp hstep
    exact (h.init heq).1
  | add i chunks size =>
    rw [exec] at hstep
    split at hstep
    next hi =>
      obtain rfl := some.inj hstep
      obtain ⟨hconsistent, hactive⟩ := h.getChunks (n := chunks) hi.1 hi.2
      exact hconsistent.addSize hi.1 hactive _
    next => cases hstep
  | memoryError i chunks =>
    rw [exec] at hstep
    split at hstep
    next hi =>
      obtain ⟨hconsistent, hactive⟩ := h.getChunks (n := chunks) hi.1 hi.2
      obtain ⟨t, heq, ht, hcreated, -, hentries⟩ := hconsistent.free_eq hi.1 hactive
      rw [releaseAndThrowError, heq] at hstep
      obtain rfl := some.inj hstep
      refine ht.dropFirstChunk hi.1 hcreated ?_ ?_
      · rw [hentries, update_self]
      · rw [hentries, update_self, getChunks_nextfree]
        exact hc
    next => cases hstep
  | getSolutions i =>
    rw [exec] at hstep
    split at hstep
    next hi =>
      obtain ⟨t, heq, ht, -⟩ := h.free_eq hi.1 hi.2
      obtain rfl := some.inj (heq.symm.trans hstep)
      exact ht
    next => cases hstep
  | clean =>
    cases hcreated : s.created with
    | false =>
      rw [exec, findallClean, hcreated] at hstep
      obtain rfl := some.inj hstep
      exact h
    | true =>
      obtain ⟨t, heq, ht, -⟩ := h.clean (hc hcreated)
      obtain rfl := some.inj (heq.symm.trans hstep)
      exact ht

theorem Chains.holds_iff (h : s.Chains chain) (hi : i < maxFindalls) :
    s.Holds i c ↔ c ∈ chain i := by
  unfold Holds
  cases hactive : (s.entries i).active with
  | true =>
    obtain ⟨hlinked, -⟩ := h.active i hi hactive
    constructor
    · rintro ⟨-, l, hl, hc⟩
      rwa [hlinked.unique hl]
    · intro hc
      exact ⟨hi, _, hlinked, hc⟩
  | false =>
    rw [h.inactive i hi hactive, mem_toList]
    exact ⟨fun hc => hc.2, fun hc => ⟨hi, hc⟩⟩

theorem Consistent.orderly (h : s.Consistent) : s.Orderly := by
  obtain ⟨chain, hchains⟩ := h.chains
  constructor
  case freeList =>
    intro hc
    obtain ⟨l, hfree⟩ := h.free hc
    exact ⟨l, hfree.linked.nodup, hfree⟩
  case inactive =>
    intro i s' hinit
    exact (h.init hinit).2.2
  case chunks =>
    intro c hc
    have hplaced := hchains.placed c
    rw [if_pos hc] at hplaced
    by_cases hheld : ∃ i, s.Holds i c
    · right
      obtain ⟨i, hi⟩ := hheld
      have hmem := (hchains.holds_iff hi.1).mp hi
      have hle := hchains.count_le hi.1 c
      have hpos := count_pos_iff.mpr hmem
      rw [if_pos hc] at hle
      refine ⟨by omega, i, hi, fun j hj => ?_⟩
      exact hchains.unique hj.1 hi.1 ((hchains.holds_iff hj.1).mp hj) hmem
    · left
      have hnone : places chain c = 0 := by
        unfold places
        apply Finset.sum_eq_zero
        intro i hi
        have hlt := Finset.mem_range.mp hi
        exact count_eq_zero.mpr fun hmem => hheld ⟨i, (hchains.holds_iff hlt).mpr hmem⟩
      exact ⟨by omega, fun i hi => hheld ⟨i, hi⟩⟩
  case frees =>
    intro i hi hactive
    obtain ⟨s', heq, -⟩ := h.free_eq hi hactive
    exact ⟨s', heq⟩

variable {t : SolutionTable}

/-- The error path breaks the free list otherwise. -/
theorem Consistent.memoryError_repairs (h : s.Consistent) (hi : i < maxFindalls)
    (hactive : (s.entries i).active)
    (hstep : s.releaseAndThrowError i = some t) (ht : t.FreeList l) : s.nextfree = i + 1 := by
  obtain ⟨s', heq, -, -, hnext, hentries⟩ := h.free_eq hi hactive
  obtain ⟨l', hfree⟩ := h.free (h.created hactive)
  rw [releaseAndThrowError, heq] at hstep
  obtain rfl := some.inj hstep
  have hself : (s'.dropFirstChunk i).entries i =
    ⟨none, (s.entries i).currentChunk, false, i + 1⟩ := by
    show update s'.entries i _ i = _
    rw [update_self, hentries, update_self]
  have hother : ∀ j ≠ i, (s'.dropFirstChunk i).entries j = s.entries j := by
    intro j hj
    show update s'.entries i _ j = _
    rw [update_of_ne hj, hentries, update_of_ne hj]
  obtain ⟨l2, rfl⟩ : ∃ l2, l = i :: l2 := by
    have hhead := linked_head ht.linked
    rw [show (s'.dropFirstChunk i).nextfree = i from hnext] at hhead
    cases l with
    | nil => cases hhead
    | cons j l2 =>
      obtain rfl : i = j := some.inj hhead
      exact ⟨l2, rfl⟩
  have hnodup := (nodup_cons.mp ht.linked.nodup).1
  have hrest := (linked_cons.mp ht.linked).2
  rw [hself] at hrest
  -- the rest of the list is one of the entries that were free before
  have hstart := hfree.linked.start_unique
    (hrest.congr fun j hj => by rw [hother j (ne_of_mem_of_not_mem hj hnodup)]) fun j => ?_
  · have hpos := hfree.ended.1
    cases hn : s.nextfree with
    | ofNat n =>
      rw [hn] at hstart
      have hni : n = i + 1 := some.inj hstart
      rw [hni]
      rfl
    | negSucc n =>
      rw [hn] at hstart
      cases hstart
  · by_cases hj : j = i
    · subst hj
      exact ⟨fun hmem => absurd hmem (hfree.not_mem hactive), fun hmem => absurd hmem hnodup⟩
    · have hmem := ht.mem j
      rw [hother j hj, mem_cons, or_iff_right hj] at hmem
      rw [hfree.mem, hmem]

theorem findallFree_entries (h : s.findallFree i = some t) :
    t.created = s.created ∧ t.entries = update s.entries i
      { s.entries i with active := false, size := s.nextfree } := by
  obtain ⟨w, -, h⟩ := bind_eq_some_iff.mp h
  obtain ⟨freed, -, rfl⟩ := map_eq_some_iff.mp h
  exact ⟨rfl, rfl⟩

/-- What the loop of `findall_clean` does to an entry. It is freed if the first one is active. -/
theorem cleanEntry_entries (h : s.cleanEntry n = some t) :
    t.created = s.created ∧ (∀ j ≠ n, t.entries j = s.entries j) ∧ (t.entries n).size = n + 1 ∧
      ((t.entries n).active = if (s.entries 0).active then false else (s.entries n).active) := by
  obtain ⟨u, hu, rfl⟩ := map_eq_some_iff.mp h
  have hother : ∀ j ≠ n, (u.dropFirstChunk n).entries j = u.entries j :=
    fun j hj => update_of_ne hj ..
  have hself : (u.dropFirstChunk n).entries n = ⟨none, (u.entries n).currentChunk,
      (u.entries n).active, n + 1⟩ := update_self ..
  rw [hself]
  cases hfirst : (s.entries 0).active with
  | true =>
    rw [hfirst, if_pos rfl] at hu
    obtain ⟨hcreated, hentries⟩ := findallFree_entries hu
    refine ⟨hcreated, fun j hj => ?_, rfl, ?_⟩
    · rw [hother j hj, hentries, update_of_ne hj]
    · rw [hentries, update_self]
      rfl
  | false =>
    rw [hfirst] at hu
    obtain rfl := some.inj hu
    exact ⟨rfl, hother, rfl, rfl⟩

/-- The entries after the loop of `findall_clean`: only the first one has been freed. -/
theorem cleanLoop_entries (h : (List.range (n + 1)).foldlM SolutionTable.cleanEntry s = some t) :
    t.created = s.created ∧ (t.entries 0).active = false ∧
      (∀ j ≠ 0, (t.entries j).active = (s.entries j).active) ∧
      ∀ i ≤ n, (t.entries i).size = i + 1 := by
  induction n generalizing t with
  | zero =>
    have hclean : s.cleanEntry 0 = some t := by
      rw [← h]
      show _ = (s.cleanEntry 0).bind pure
      simp
    obtain ⟨hcreated, hother, hsize, hactive⟩ := cleanEntry_entries hclean
    refine ⟨hcreated, ?_, fun j hj => by rw [hother j hj], fun i hi => ?_⟩
    · rw [hactive]
      cases (s.entries 0).active <;> rfl
    · rw [Nat.le_zero.mp hi]
      exact hsize
  | succ n ih =>
    rw [range_succ, foldlM_append] at h
    obtain ⟨u, hu, h⟩ := bind_eq_some_iff.mp h
    have hclean : u.cleanEntry (n + 1) = some t := by
      rw [← h]
      show _ = (u.cleanEntry (n + 1)).bind pure
      simp
    obtain ⟨hcreated, hfirst, hrest, hsizes⟩ := ih hu
    obtain ⟨hcreated', hother, hsize, hactive⟩ := cleanEntry_entries hclean
    rw [hfirst] at hactive
    refine ⟨hcreated'.trans hcreated, ?_, fun j hj => ?_, fun i hi => ?_⟩
    · rw [hother 0 (by omega)]
      exact hfirst
    · by_cases hjn : j = n + 1
      · rw [hjn, hactive, ← hrest (n + 1) (by omega)]
        rfl
      · rw [hother j hjn, hrest j hj]
    · by_cases hin : i = n + 1
      · rw [hin, hsize]
      · rw [hother i hin, hsizes i (by omega)]

/-- The clean-up breaks the free list otherwise. -/
theorem clean_repairs (hcreated : s.created) (hstep : s.findallClean = some t)
    (ht : t.FreeList l) : ∀ i < maxFindalls, i ≠ 0 → (s.entries i).active = false := by
  rw [findallClean, if_pos hcreated, show maxFindalls = 249 + 1 from rfl] at hstep
  obtain ⟨u, hu, rfl⟩ := map_eq_some_iff.mp hstep
  obtain ⟨-, -, hactive, hsizes⟩ := cleanLoop_entries hu
  have hentries : ∀ i, (update u.entries 249 { u.entries 249 with size := -1 } i).active =
      (u.entries i).active := by
    intro i
    by_cases hi : i = 249
    · rw [hi, update_self]
    · rw [update_of_ne hi]
  have hlinked : Linked (fun i => (update u.entries 249
      { u.entries 249 with size := -1 } i).size.toNat?) (some 0) (List.range' 0 (249 + 1)) := by
    refine linked_range' (i := 0) (m := 249) (fun j _ hj => ?_) ?_
    · rw [update_of_ne (by omega), hsizes j (by omega)]
      rfl
    · rw [Nat.zero_add, update_self]
      rfl
  intro i hi hi0
  have hmem : i ∈ l := by
    rw [ht.linked.unique hlinked, ← range_eq_range']
    exact mem_range.mpr hi
  have hinactive := ((ht.mem i).mp hmem).2
  rw [← hactive i hi0, ← hentries i]
  exact hinactive

/-- A call leaves the table in order exactly if it repairs the free list. -/
theorem Consistent.step_orderly_iff (h : s.Consistent) {c : FindallCall}
    (hstep : s.exec c = some s') : s'.Orderly ↔ s.Repairs c := by
  refine ⟨fun horderly => ?_, fun hc => (h.step hc hstep).orderly⟩
  cases c with
  | init | add i chunks size | getSolutions i => trivial
  | memoryError i chunks =>
    rw [exec] at hstep
    split at hstep
    next hi =>
      obtain ⟨hconsistent, hactive⟩ := h.getChunks (n := chunks) hi.1 hi.2
      have hcreated : s'.created := by
        obtain ⟨t, heq, -, hcreated, -⟩ := hconsistent.free_eq hi.1 hactive
        rw [releaseAndThrowError, heq] at hstep
        obtain rfl := some.inj hstep
        exact hcreated
      obtain ⟨l, -, hfree⟩ := horderly.freeList hcreated
      have hnext := hconsistent.memoryError_repairs hi.1 hactive hstep hfree
      rwa [getChunks_nextfree] at hnext
    next => cases hstep
  | clean =>
    intro hcreated
    have hcreated' : s'.created := by
      rw [exec, findallClean, if_pos hcreated, show maxFindalls = 249 + 1 from rfl] at hstep
      obtain ⟨u, hu, rfl⟩ := map_eq_some_iff.mp hstep
      exact (cleanLoop_entries hu).1.trans hcreated
    obtain ⟨l, -, hfree⟩ := horderly.freeList hcreated'
    exact clean_repairs hcreated hstep hfree

end SolutionTable

/-- The tables of all runs whose calls repair the free list are in order, a further call leaves the
table in order exactly if it does so too, and then no entry is active after `findall_clean`. -/
theorem solutions_orderly {s : SolutionTable}
    (h : (findallCalls.restrict SolutionTable.Repairs).Reachable s) :
    s.Orderly ∧ ∀ c s', findallCalls.step s c s' → (s'.Orderly ↔ s.Repairs c) ∧
      (c = .clean → s.Repairs c → ∀ i < maxFindalls, (s'.entries i).active = false) := by
  have hconsistent : s.Consistent := by
    apply System.Invariant.holds (I := SolutionTable.Consistent) ⟨?_, ?_⟩ h
    · rintro s rfl
      exact SolutionTable.consistent_empty
    · rintro s c s' hs ⟨hc, hstep⟩
      exact hs.step hc hstep
  refine ⟨hconsistent.orderly, fun c s' hstep => ⟨hconsistent.step_orderly_iff hstep, ?_⟩⟩
  rintro rfl hrepairs
  cases hcreated : s.created with
  | false =>
    intro i _
    have heq : s.findallClean = some s' := hstep
    rw [SolutionTable.findallClean, hcreated] at heq
    obtain rfl := some.inj heq
    exact (hconsistent.fresh hcreated i).2
  | true =>
    obtain ⟨t, heq, -, hactive⟩ := hconsistent.clean (hrepairs hcreated)
    obtain rfl := some.inj (heq.symm.trans hstep)
    exact hactive

/-- A memory error in the inner one of two findalls. -/
theorem inner_findall_orderly : ∃ s, (findallCalls.restrict SolutionTable.Repairs).Reachable s ∧
    s.Orderly ∧ ∀ c s', findallCalls.step s c s' → (s'.Orderly ↔ s.Repairs c) ∧
      (c = .clean → s.Repairs c → ∀ i < maxFindalls, (s'.entries i).active = false) := by
  have hrun : ∃ s, (findallCalls.restrict SolutionTable.Repairs).Reachable s := by
    refine ⟨_, .step (e := .memoryError 1 0) (.step (e := .add 1 1 2) (.step (e := .init)
      (.step (e := .init) (.init rfl) ⟨trivial, rfl⟩) ⟨trivial, rfl⟩) ⟨trivial, rfl⟩) ⟨?_, rfl⟩⟩
    rfl
  obtain ⟨s, hs⟩ := hrun
  exact ⟨s, hs, solutions_orderly hs⟩

/-- A memory error in the outer one of two findalls puts the inner one into the free list. -/
theorem outer_findall_disorderly : ¬ ∀ s, findallCalls.Reachable s → s.Orderly := by
  intro h
  have horderly := h _ (.step (e := .memoryError 0 0) (.step (e := .init)
    (.step (e := .init) (.init rfl) rfl) rfl) rfl)
  obtain ⟨l, -, hfree⟩ := horderly.freeList rfl
  have hlinked := hfree.linked
  cases l with
  | nil => cases hlinked
  | cons i l =>
    obtain ⟨hi, hrest⟩ := hlinked
    obtain rfl : 0 = i := some.inj hi
    cases l with
    | nil => cases hrest
    | cons j l =>
      obtain rfl : 1 = j := some.inj hrest.1
      have hinactive := ((hfree.mem 1).mp (mem_cons_of_mem 0 mem_cons_self)).2
      cases hinactive

end XSBEngine.Copying
