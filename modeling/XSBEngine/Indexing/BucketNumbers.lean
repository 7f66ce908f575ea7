import XSBEngine.Indexing.AddBuff
import XSBEngine.Library.System

/-!
# Bucket numbers and table sizes

When `db_addbuff_i` calls `addto_hashchain` with a bucket of the table. The hash value is computed
before the size of the new table is changed to 1.
-/

namespace XSBEngine.Indexing

open Heap Library List Option

section

variable {W : HashWords} {mem : Nat → Cell} {n az : Nat} {head : Cell} {clause : Nat}
  {index : List Nat} {ind inum : Nat} {thisTabSize : ℕ+} {pred pred' p sub : PrRef}
  {calls : List (Int × ℕ+)}

/-- The SOB records for these indexes, of this size, at the ends of the chains lead to a predicate
reference. -/
inductive Descends (az : Nat) (thisTabSize : ℕ+) : PrRef → List Nat → PrRef → Prop where
  | refl (pred : PrRef) : Descends az thisTabSize pred [] pred
  | sob {pred sub p : PrRef} {block : SobRecord} {ind : Nat} {index : List Nat} :
    matchingSob ind thisTabSize (pred.endRef az) = some (block, sub) →
    Descends az thisTabSize sub index p → Descends az thisTabSize pred (ind :: index) p

/-- The SOB records for the first indexes lead to a chain that ends in a clause, where the head has
neither a variable in the arguments of the indexes so far nor the hash value 0 for the last one. -/
def StopsAtClause (W : HashWords) (mem : Nat → Cell) (n az : Nat) (head : Cell) (thisTabSize : ℕ+)
    (pred : PrRef) (index : List Nat) : Prop :=
  ∃ before ind after p type ref, index = before ++ ind :: after ∧
    Descends az thisTabSize pred before p ∧ p.endRef az = some (.clause type ref) ∧
    (∀ i ∈ before ++ [ind], hashVal W mem n i head thisTabSize ≠ some (-1)) ∧
    hashVal W mem n ind head thisTabSize ≠ some 0

/-- The bucket numbers are those of buckets. -/
def BucketsInRange (calls : List (Int × ℕ+)) : Prop :=
  ∀ call ∈ calls, 0 ≤ call.1 ∧ call.1 < call.2

/-! ### The steps of the loop -/

local instance neZero_one : NeZero 1 := ⟨Nat.one_ne_zero⟩

/-- The hash value and the size with which an index goes on. -/
def usedBucket (hashval : Int) (thisTabSize : ℕ+) : Int × ℕ+ :=
  if hashval = -1 then (0, 1) else (hashval, thisTabSize)

/-- What an index does, and from where the loop goes on. -/
theorem addbuffLoop_cons
    (h : addbuffLoop W mem n az head clause (ind :: index) inum thisTabSize pred =
      some (pred', calls)) :
    ∃ hashval sub sub' rest, hashVal W mem n ind head thisTabSize = some hashval ∧
      ∃ block size, addbuffLoop W mem n az head clause index (inum + 1) size sub =
        some (sub', rest) ∧
      calls = ((usedBucket hashval thisTabSize).1, block.hashSize) :: rest ∧
      ((matchingSob ind (usedBucket hashval thisTabSize).2 (pred.endRef az) = some (block, sub) ∧
          size = (usedBucket hashval thisTabSize).2 ∧
          pred' = pred.setEnd az (.sob (addtoHashchain az (usedBucket hashval thisTabSize).1 clause
            block) sub'.opcode sub'.chain)) ∨
        (matchingSob ind (usedBucket hashval thisTabSize).2 (pred.endRef az) = none ∧
          size = newTabSize (usedBucket hashval thisTabSize).2 (pred.endRef az) ∧
          block = newSOBblock size ind ∧ sub = ⟨.fail, []⟩ ∧
          pred' = dbAddbuff az inum (.sob (addtoHashchain az (usedBucket hashval thisTabSize).1
            clause block) sub'.opcode sub'.chain) pred)) := by
  rw [addbuffLoop] at h
  cases hh : hashVal W mem n ind head thisTabSize with
  | none => simp [hh] at h
  | some hashval =>
    simp only [hh, bind_eq_bind, bind_some] at h
    refine ⟨hashval, ?_⟩
    rw [← usedBucket] at h
    generalize usedBucket hashval thisTabSize = used at h ⊢
    obtain ⟨hashval', size'⟩ := used
    simp only at h
    cases hm : matchingSob ind size' (pred.endRef az) with
    | some found =>
      obtain ⟨block, sub⟩ := found
      simp only [hm] at h
      obtain ⟨⟨sub', rest⟩, hrun, he⟩ := bind_eq_some_iff.mp h
      obtain ⟨rfl, rfl⟩ := Prod.mk.inj (some.inj he)
      exact ⟨sub, sub', rest, rfl, block, _, hrun, rfl, .inl ⟨rfl, rfl, rfl⟩⟩
    | none =>
      simp only [hm] at h
      obtain ⟨⟨sub', rest⟩, hrun, he⟩ := bind_eq_some_iff.mp h
      obtain ⟨rfl, rfl⟩ := Prod.mk.inj (some.inj he)
      exact ⟨_, sub', rest, rfl, _, _, hrun, rfl, .inr ⟨rfl, rfl, rfl, rfl, rfl⟩⟩

theorem matchingSob_eq {size : ℕ+} {o : Option ClRef} {block : SobRecord}
    (h : matchingSob ind size o = some (block, sub)) :
    o = some (.sob block sub.opcode sub.chain) ∧ block.hashSize = size := by
  unfold matchingSob at h
  split at h
  next block' opcode chain =>
    split at h
    next hm =>
      obtain ⟨rfl, rfl⟩ := Prod.mk.inj (some.inj h)
      exact ⟨rfl, hm.1⟩
    next => cases h
  next => cases h

/-- With size 1 every bucket is the first one. -/
theorem bucketsInRange_one
    (h : addbuffLoop W mem n az head clause index inum 1 pred = some (pred', calls)) :
    BucketsInRange calls := by
  induction index generalizing inum pred pred' calls with
  | nil =>
    obtain ⟨-, rfl⟩ := Prod.mk.inj (some.inj h)
    exact fun call hc => absurd hc not_mem_nil
  | cons ind index ih =>
    obtain ⟨hashval, sub, sub', rest, hh, block, size, hrun, rfl, hcase⟩ := addbuffLoop_cons h
    have hused : usedBucket hashval 1 = (0, 1) := by
      rcases hashVal_range (PNat.pos 1) (by decide) hh with rfl | ⟨hlo, hhi⟩
      · rfl
      · have hzero : hashval = 0 := by
          have : hashval < 1 := hhi
          omega
        rw [hzero]
        rfl
    rw [hused] at hcase ⊢
    have hsize : size = 1 := by
      rcases hcase with ⟨-, rfl, -⟩ | ⟨-, rfl, -⟩
      · rfl
      · unfold newTabSize
        split <;> rfl
    have hblock : block.hashSize = 1 := by
      rcases hcase with ⟨hm, -⟩ | ⟨-, -, rfl, -⟩
      · exact (matchingSob_eq hm).2
      · exact hsize
    subst hsize
    intro call hc
    rcases mem_cons.mp hc with rfl | hc
    · show (0 : Int) ≤ 0 ∧ (0 : Int) < block.hashSize
      rw [hblock]
      decide
    · exact ih hrun call hc

theorem stopsAtClause_nil : ¬StopsAtClause W mem n az head thisTabSize pred [] := by
  rintro ⟨before, ind, after, -, -, -, hindex, -⟩
  simp at hindex

/-- On an empty predicate there is no clause to stop at. -/
theorem stopsAtClause_fail :
    ¬StopsAtClause W mem n az head thisTabSize ⟨.fail, []⟩ index := by
  rintro ⟨before, ind, after, p, type, ref, -, hd, hend, -⟩
  cases hd with
  | refl => simp [PrRef.endRef] at hend
  | sob hm _ => simp [PrRef.endRef, matchingSob] at hm

/-- A clause at the end of the chain. -/
theorem stopsAtClause_clause {type : ClauseType} {ref : Nat} {hashval : Int}
    (hend : pred.endRef az = some (.clause type ref))
    (hh : hashVal W mem n ind head thisTabSize = some hashval) (hne : hashval ≠ -1) :
    StopsAtClause W mem n az head thisTabSize pred (ind :: index) ↔ hashval ≠ 0 := by
  constructor
  · rintro ⟨before, ind', after, p, type', ref', hindex, hd, -, -, hzero⟩
    cases hd with
    | refl =>
      obtain ⟨rfl, -⟩ := List.cons.inj hindex
      rw [hh] at hzero
      exact fun he => hzero (congrArg some he)
    | sob hm _ => simp [hend, matchingSob] at hm
  · intro hzero
    refine ⟨[], ind, index, pred, type, ref, rfl, .refl pred, hend, ?_, ?_⟩
    · intro i hi
      rw [mem_singleton.mp hi, hh]
      exact fun he => hne (some.inj he)
    · rw [hh]
      exact fun he => hzero (some.inj he)

/-- A SOB record for the index. -/
theorem stopsAtClause_sob {block : SobRecord} {hashval : Int}
    (hm : matchingSob ind thisTabSize (pred.endRef az) = some (block, sub))
    (hh : hashVal W mem n ind head thisTabSize = some hashval) (hne : hashval ≠ -1) :
    StopsAtClause W mem n az head thisTabSize pred (ind :: index) ↔
      StopsAtClause W mem n az head thisTabSize sub index := by
  constructor
  · rintro ⟨before, ind', after, p, type, ref, hindex, hd, hend, hvar, hzero⟩
    cases hd with
    | refl =>
      rw [(matchingSob_eq hm).1] at hend
      cases hend
    | @sob _ sub' _ block' i rest hm' hd =>
      obtain ⟨rfl, rfl⟩ := List.cons.inj hindex
      obtain ⟨-, rfl⟩ := Prod.mk.inj (some.inj (hm.symm.trans hm'))
      exact ⟨rest, ind', after, p, type, ref, rfl, hd, hend,
        fun i hi => hvar i (mem_cons_of_mem _ hi), hzero⟩
  · rintro ⟨before, ind', after, p, type, ref, rfl, hd, hend, hvar, hzero⟩
    refine ⟨ind :: before, ind', after, p, type, ref, rfl, .sob hm hd, hend, fun i hi => ?_, hzero⟩
    rcases mem_cons.mp hi with rfl | hi
    · rw [hh]
      exact fun he => hne (some.inj he)
    · exact hvar i hi

/-- A variable in the arguments of the first index. -/
theorem stopsAtClause_variable (hh : hashVal W mem n ind head thisTabSize = some (-1)) :
    ¬StopsAtClause W mem n az head thisTabSize pred (ind :: index) := by
  rintro ⟨before, ind', after, p, type, ref, hindex, hd, hend, hvar, -⟩
  refine hvar ind ?_ hh
  cases before with
  | nil =>
    obtain ⟨rfl, -⟩ := List.cons.inj hindex
    exact mem_singleton_self ind
  | cons i before =>
    obtain ⟨rfl, -⟩ := List.cons.inj hindex
    exact mem_cons_self

/-- Any other end of the chain. -/
theorem stopsAtClause_other (hm : matchingSob ind thisTabSize (pred.endRef az) = none)
    (hend : ∀ type ref, pred.endRef az ≠ some (.clause type ref)) :
    ¬StopsAtClause W mem n az head thisTabSize pred (ind :: index) := by
  rintro ⟨before, ind', after, p, type, ref, hindex, hd, hp, -⟩
  cases hd with
  | refl => exact hend type ref hp
  | sob hm' _ =>
    obtain ⟨rfl, -⟩ := List.cons.inj hindex
    rw [hm] at hm'
    cases hm'

/-- The loop from a size that is an `int`. -/
theorem bucketsInRange_loop (hsize : thisTabSize.val < 2 ^ 31)
    (h : addbuffLoop W mem n az head clause index inum thisTabSize pred = some (pred', calls)) :
    BucketsInRange calls ↔ ¬StopsAtClause W mem n az head thisTabSize pred index := by
  induction index generalizing inum pred pred' calls with
  | nil =>
    obtain ⟨-, rfl⟩ := Prod.mk.inj (some.inj h)
    exact iff_of_true (fun call hc => absurd hc not_mem_nil) stopsAtClause_nil
  | cons ind index ih =>
    obtain ⟨hashval, sub, sub', rest, hh, block, size, hrun, rfl, hcase⟩ := addbuffLoop_cons h
    have hcons : BucketsInRange (((usedBucket hashval thisTabSize).1, block.hashSize) :: rest) ↔
        (0 ≤ (usedBucket hashval thisTabSize).1 ∧
          (usedBucket hashval thisTabSize).1 < block.hashSize) ∧ BucketsInRange rest :=
      forall_mem_cons
    rw [hcons]
    by_cases hvar : hashval = -1
    · -- from here on the size is 1
      subst hvar
      have hused : usedBucket (-1) thisTabSize = (0, 1) := rfl
      rw [hused] at hcase ⊢
      have hsize1 : size = 1 ∧ block.hashSize = 1 := by
        rcases hcase with ⟨hm, rfl, -⟩ | ⟨-, rfl, rfl, -⟩
        · exact ⟨rfl, (matchingSob_eq hm).2⟩
        · unfold newTabSize newSOBblock
          split <;> exact ⟨rfl, rfl⟩
      rw [hsize1.1] at hrun
      rw [hsize1.2]
      exact iff_of_true ⟨by decide, bucketsInRange_one hrun⟩ (stopsAtClause_variable hh)
    · obtain ⟨hlo, hhi⟩ := (hashVal_range thisTabSize.pos hsize hh).resolve_left hvar
      have hused : usedBucket hashval thisTabSize = (hashval, thisTabSize) := if_neg hvar
      rw [hused] at hcase ⊢
      rcases hcase with ⟨hm, rfl, -⟩ | ⟨hm, rfl, rfl, rfl, -⟩
      · rw [stopsAtClause_sob hm hh hvar, ← ih hrun, (matchingSob_eq hm).2]
        exact and_iff_right ⟨hlo, hhi⟩
      · cases hend : pred.endRef az with
        | none =>
          rw [hend] at hrun
          have hrest := (ih hrun).mpr stopsAtClause_fail
          exact iff_of_true ⟨⟨hlo, hhi⟩, hrest⟩
            (stopsAtClause_other hm fun _ _ he => by rw [hend] at he; cases he)
        | some ref =>
          rw [hend] at hrun
          cases ref with
          | sob block opcode chain =>
            have hrest := (ih hrun).mpr stopsAtClause_fail
            exact iff_of_true ⟨⟨hlo, hhi⟩, hrest⟩
              (stopsAtClause_other hm fun _ _ he => by rw [hend] at he; cases he)
          | clause type ref =>
            -- the value is one for the old size
            rw [stopsAtClause_clause hend hh hvar, not_not, and_iff_left (bucketsInRange_one hrun)]
            show 0 ≤ hashval ∧ hashval < ((1 : ℕ+) : Nat) ↔ hashval = 0
            simp only [PNat.one_coe, Nat.cast_one]
            omega

/-- Every bucket number that `db_addbuff_i` passes to `addto_hashchain` is one of a bucket of the
SOB record, unless SOB records for the first indexes lead to a clause. -/
theorem dbAddbuffI_buckets_iff (W : HashWords) (mem : Nat → Cell) (n az : Nat) (head : Cell)
    (clause : Nat) (pred : PrRef) (index : List Nat) (hashTabSize : Nat)
    (hsize : (hashResize (pred.endRef az) hashTabSize).val < 2 ^ 31) {pred' : PrRef}
    {calls : List (Int × ℕ+)}
    (h : dbAddbuffI W mem n az head clause pred index hashTabSize = some (pred', calls)) :
    BucketsInRange calls ↔
      ¬StopsAtClause W mem n az head (hashResize (pred.endRef az) hashTabSize) pred index :=
  bucketsInRange_loop hsize h

end

/-! ### A fact added to an unindexed one -/

/-- The head `p(2)` at address 0. -/
def headMem : Nat → Cell
  | 0 => .functor ⟨⟨[112], by decide⟩, 1, none⟩
  | _ => .int 2

/-- Every symbol is hashed by the word 0. -/
def zeroWords : HashWords := ⟨fun _ => 0, fun _ => 0, 0, fun _ => 0⟩

/-- A predicate with one clause, added when it had no index. -/
def unindexedPred : PrRef := ⟨.jumptbreg, [.clause .unindexedCl 0]⟩

theorem unindexedPred_calls :
    (dbAddbuffI zeroWords headMem 2 1 (.cs 0) 1 unindexedPred [1] 29).map Prod.snd =
      some [(2, 1)] := by
  decide

/-- The condition fails, and so does the bound, for `unindexedPred` and the index 1. -/
theorem unindexedPred_buckets_iff :
    ∃ pred' calls, dbAddbuffI zeroWords headMem 2 1 (.cs 0) 1 unindexedPred [1] 29 =
        some (pred', calls) ∧
      (BucketsInRange calls ↔ ¬StopsAtClause zeroWords headMem 2 1 (.cs 0)
        (hashResize (unindexedPred.endRef 1) 29) unindexedPred [1]) := by
  obtain ⟨⟨pred', calls⟩, h, -⟩ := map_eq_some_iff.mp unindexedPred_calls
  exact ⟨pred', calls, h, dbAddbuffI_buckets_iff zeroWords headMem 2 1 (.cs 0) 1 unindexedPred
    [1] 29
    (by decide) h⟩

/-- Bucket 2 of a table of size 1. -/
theorem unindexedPred_bucket_outside :
    ¬∀ (W : HashWords) (mem : Nat → Cell) (n az : Nat) (head : Cell) (clause : Nat) (pred : PrRef)
      (index : List Nat) (hashTabSize : Nat) (pred' : PrRef) (calls : List (Int × ℕ+)),
      (hashResize (pred.endRef az) hashTabSize).val < 2 ^ 31 →
      dbAddbuffI W mem n az head clause pred index hashTabSize = some (pred', calls) →
      BucketsInRange calls := by
  intro hall
  obtain ⟨⟨pred', calls⟩, h, hcalls⟩ := map_eq_some_iff.mp unindexedPred_calls
  have hcalls : calls = [(2, 1)] := hcalls
  have hrange := hall _ _ _ _ _ _ _ _ _ _ _ (by decide) h (2, 1) (by rw [hcalls]; decide)
  exact absurd hrange.2 (by decide)

/-! ### Clauses with the same number of indexes -/

section

variable {W : HashWords} {mem : Nat → Cell} {n az : Nat} {head : Cell} {clause : Nat}
  {index : List Nat} {ind inum depth : Nat} {thisTabSize : ℕ+} {pred pred' p sub : PrRef}
  {calls : List (Int × ℕ+)}

end

end XSBEngine.Indexing
