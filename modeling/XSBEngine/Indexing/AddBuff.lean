import Mathlib
import XSBEngine.Indexing.Hash

/-!
# Clauses added to indexes

`db_addbuff_i` with `hash_resize`, `addto_hashchain` and `addto_allchain`,
`XSB/emu/biassert.c:1529–1801`.
-/

namespace XSBEngine.Indexing

open Heap Option

/-! ### Clause references -/

/-- The opcodes of a predicate reference. -/
inductive PredOp where
  | fail
  | jump
  | jumptbreg
  | sobJumpOut
deriving DecidableEq, Repr

/-- The types of clause references other than SOB records. -/
inductive ClauseType where
  | unindexedCl
  | trieCl
  | indexedCl
deriving DecidableEq, Repr

/-- The fields of a SOB record. The buckets are the words from its hash table on, also those before
and behind it. -/
structure SobRecord where
  sobArgs : List Nat
  hashSize : ℕ+
  numNonemptyBuckets : Nat
  bucket : Int → List Nat

/-- A clause, or a SOB record with the predicate reference in it. -/
inductive ClRef where
  | clause (type : ClauseType) (ref : Nat)
  | sob (block : SobRecord) (opcode : PredOp) (chain : List ClRef)

/-- A predicate reference with the chain from `FirstClRef` to `LastClRef`. -/
structure PrRef where
  opcode : PredOp
  chain : List ClRef

/-- `AZ == 0 ? Pred->FirstClRef : Pred->LastClRef`, unless the predicate is empty. -/
def PrRef.endRef (az : Nat) (pred : PrRef) : Option ClRef :=
  if pred.opcode = .fail then none
  else if az = 0 then pred.chain.head?
  else pred.chain.getLast?

/-- Another clause reference takes the place of the one at the end. -/
def PrRef.setEnd (az : Nat) (clref : ClRef) (pred : PrRef) : PrRef where
  opcode := pred.opcode
  chain := if az = 0 then clref :: pred.chain.tail else pred.chain.dropLast ++ [clref]

/-- `prefix_to_chain` and `append_to_chain`. -/
def addToChain (az : Nat) (clref : ClRef) (chain : List ClRef) : List ClRef :=
  if az = 0 then clref :: chain else chain ++ [clref]

/-- `db_addbuff` for a SOB record. -/
def dbAddbuff (az inum : Nat) (clref : ClRef) (pred : PrRef) : PrRef :=
  match pred.opcode with
  | .fail => ⟨if 1 < inum then .jump else .jumptbreg, [clref]⟩
  | .jump => ⟨.jump, addToChain az clref pred.chain⟩
  | .jumptbreg => ⟨.jumptbreg, addToChain az clref pred.chain⟩
  | .sobJumpOut => pred

/-! ### Hash tables -/

/-- `hashsizes_table` without the repetitions of its last entry. -/
def hashsizesTable : List ℕ+ :=
  [17, 389, 6151, 49157, 196613, 393241, 786433, 1572869, 3145739, 6291469, 12582917, 25165843,
    50331653]

/-- The last entry of `hashsizes_table`. -/
def lastHashsize : ℕ+ := 50331653

/-- The size for a table of this size with so many buckets in use. -/
def growTabSize (thisTabSize : ℕ+) (numNonemptyBuckets : Nat) : ℕ+ :=
  if thisTabSize.val / 4 * 3 < numNonemptyBuckets then
    if lastHashsize ≤ thisTabSize then thisTabSize + 2
    else (hashsizesTable.find? (thisTabSize < ·)).getD lastHashsize
  else thisTabSize

/-- `hash_resize`, for the clause reference at the end of the chain. -/
def hashResize (sobRec : Option ClRef) (oldTabSize : Nat) : ℕ+ :=
  match sobRec with
  | some (.sob block _ _) =>
    let thisTabSize := growTabSize block.hashSize block.numNonemptyBuckets
    ⟨max thisTabSize oldTabSize, lt_of_lt_of_le thisTabSize.pos (le_max_left _ _)⟩
  | _ => (hashsizesTable.find? (oldTabSize ≤ ·.val)).getD lastHashsize

/-- `new_SOBblock`. -/
def newSOBblock (thisTabSize : ℕ+) (ind : Nat) : SobRecord where
  sobArgs := indexBytes ind
  hashSize := thisTabSize
  numNonemptyBuckets := 0
  bucket _ := []

/-- `addto_hashchain`. -/
def addtoHashchain (az : Nat) (hashval : Int) (newInd : Nat) (sobRec : SobRecord) : SobRecord :=
  { sobRec with
    numNonemptyBuckets :=
      if sobRec.bucket hashval = [] then sobRec.numNonemptyBuckets + 1
      else sobRec.numNonemptyBuckets
    bucket := Function.update sobRec.bucket hashval
      (if az = 0 then newInd :: sobRec.bucket hashval else sobRec.bucket hashval ++ [newInd]) }

/-- `addto_allchain`. -/
def addtoAllchain (az clause : Nat) (pred : PrRef) : PrRef :=
  match pred.opcode with
  | .fail => ⟨.sobJumpOut, [.clause .indexedCl clause]⟩
  | op => ⟨op, addToChain az (.clause .indexedCl clause) pred.chain⟩

/-- The SOB record at the end of the chain, if it is for this index and has this size. -/
def matchingSob (ind : Nat) (thisTabSize : ℕ+) : Option ClRef → Option (SobRecord × PrRef)
  | some (.sob block opcode chain) =>
    if block.hashSize = thisTabSize ∧ block.sobArgs = indexBytes ind then
      some (block, ⟨opcode, chain⟩)
    else none
  | _ => none

/-- The size of a new table. It is 1 on a chain that ends in a clause. -/
def newTabSize (thisTabSize : ℕ+) : Option ClRef → ℕ+
  | some (.clause _ _) => 1
  | _ => thisTabSize

section

variable (W : HashWords) (mem : Nat → Cell) (n : Nat) (az : Nat) (head : Cell) (clause : Nat)

/-- The loop of `db_addbuff_i` over the indexes from `Inum` on: the new state, and for every call of
`addto_hashchain` the bucket and the hash size of the SOB record. -/
def addbuffLoop : List Nat → Nat → ℕ+ → PrRef → Option (PrRef × List (Int × ℕ+))
  | [], _, _, pred => some (addtoAllchain az clause pred, [])
  | ind :: index, inum, thisTabSize, pred => do
    let sobBuff := pred.endRef az
    let hashval ← hashVal W mem n ind head thisTabSize
    let (hashval, thisTabSize) := if hashval = -1 then (0, 1) else (hashval, thisTabSize)
    match matchingSob ind thisTabSize sobBuff with
    | some (block, sub) =>
      let (sub, calls) ← addbuffLoop index (inum + 1) thisTabSize sub
      let clref := ClRef.sob (addtoHashchain az hashval clause block) sub.opcode sub.chain
      some (pred.setEnd az clref, (hashval, block.hashSize) :: calls)
    | none =>
      let thisTabSize := newTabSize thisTabSize sobBuff
      let block := newSOBblock thisTabSize ind
      let (sub, calls) ← addbuffLoop index (inum + 1) thisTabSize ⟨.fail, []⟩
      let clref := ClRef.sob (addtoHashchain az hashval clause block) sub.opcode sub.chain
      some (dbAddbuff az inum clref pred, (hashval, block.hashSize) :: calls)

/-- `db_addbuff_i`. -/
def dbAddbuffI (pred : PrRef) (index : List Nat) (hashTabSize : Nat) :
    Option (PrRef × List (Int × ℕ+)) :=
  addbuffLoop W mem n az head clause index 1 (hashResize (pred.endRef az) hashTabSize) pred

end

/-! ### Hash values -/

section Range

variable {W : HashWords} {mem : Nat → Cell} {n size m k : Nat} {hashval hashval' : BitVec 64}

/-- The sum of at most `m` hash values. -/
def SumOf (size m : Nat) (hashval : BitVec 64) : Prop := hashval.toNat + size ≤ 2 ^ m * size

theorem SumOf.mono (h : SumOf size m hashval) (hmk : m ≤ k) : SumOf size k hashval :=
  le_trans h (Nat.mul_le_mul_right size (Nat.pow_le_pow_right Nat.two_pos hmk))

theorem SumOf.addHash (h : SumOf size m hashval) (hpos : 0 < size) (hlt : size < 2 ^ 31)
    (hm : m < 32) (w : BitVec 64) : SumOf size (m + 1) (addHash hashval (ihash w size)) := by
  have hw : ihash w size < size := Nat.mod_lt _ hpos
  have hpow : 2 ^ m * size ≤ 2 ^ 31 * 2 ^ 31 :=
    Nat.mul_le_mul (Nat.pow_le_pow_right Nat.two_pos (by omega)) hlt.le
  have hsucc : 2 ^ (m + 1) * size = 2 * (2 ^ m * size) := by ring
  unfold SumOf at h ⊢
  have hval : (Indexing.addHash hashval (ihash w size)).toNat ≤
      hashval.toNat + (hashval.toNat + ihash w size) := by
    rw [Indexing.addHash, BitVec.toNat_add, BitVec.toNat_add, BitVec.toNat_ofNat]
    refine (Nat.mod_le _ _).trans (Nat.add_le_add_left ((Nat.mod_le _ _).trans ?_) _)
    exact Nat.add_le_add_left (Nat.mod_le _ _) _
  omega

theorem sumOf_starLoop (hpos : 0 < size) (hlt : size < 2 ^ 31) {term : Cell}
    {stk : List (Nat × Nat)} (h : SumOf size m hashval) (hm : m + k ≤ 32)
    (hrun : starLoop W mem n size k term stk hashval = some (some hashval')) :
    SumOf size (m + k) hashval' := by
  induction k generalizing term stk hashval m with
  | zero =>
    obtain rfl : hashval = hashval' := by simpa [starLoop] using hrun
    exact h
  | succ k ih =>
    rw [starLoop] at hrun
    cases hd : deref mem n term with
    | none => simp [hd] at hrun
    | some c =>
      simp only [hd, bind_eq_bind, bind_some] at hrun
      split at hrun
      next => simp at hrun
      next =>
        cases hw : valToHash W mem c with
        | none => simp [hw] at hrun
        | some w =>
          simp only [hw, bind_some] at hrun
          have hadd := h.addHash hpos hlt (by omega) w
          split at hrun
          next =>
            obtain rfl := some.inj (some.inj hrun)
            exact hadd.mono (by omega)
          next => exact (ih hadd (by omega) hrun).mono (by omega)

theorem sumOf_hashByte (hpos : 0 < size) (hlt : size < 2 ^ 31) {arg : Nat → Cell} {j : Nat}
    (h : SumOf size m hashval) (hm : m ≤ 16)
    (hrun : hashByte W mem n arg size j hashval = some (some hashval')) :
    SumOf size (m + 5) hashval' := by
  rw [hashByte] at hrun
  split at hrun
  next =>
    obtain rfl := some.inj (some.inj hrun)
    exact h.mono (by omega)
  next =>
    split at hrun
    next =>
      cases hd : deref mem n (arg j) with
      | none => simp [hd] at hrun
      | some c =>
        simp only [hd, bind_eq_bind, bind_some] at hrun
        split at hrun
        next => simp at hrun
        next =>
          cases hw : valToHash W mem c with
          | none => simp [hw] at hrun
          | some w =>
            simp only [hw, bind_some, Option.some.injEq] at hrun
            rw [← hrun]
            exact (h.addHash hpos hlt (by omega) w).mono (by omega)
    next => exact sumOf_starLoop hpos hlt h (show m + 5 ≤ 32 by omega) hrun

theorem sumOf_overBytes (hpos : 0 < size) (hlt : size < 2 ^ 31) {arg : Nat → Cell} {js : List Nat}
    (h : SumOf size m hashval) (hm : m + 5 * js.length ≤ 16)
    (hrun : overBytes (hashByte W mem n arg size) js hashval = some (some hashval')) :
    SumOf size (m + 5 * js.length) hashval' := by
  induction js generalizing hashval m with
  | nil =>
    obtain rfl : hashval = hashval' := by simpa [overBytes] using hrun
    exact h
  | cons j js ih =>
    rw [List.length_cons] at hm ⊢
    rw [overBytes] at hrun
    cases hb : hashByte W mem n arg size j hashval with
    | none => simp [hb] at hrun
    | some o =>
      cases o with
      | none => simp [hb] at hrun
      | some hashval1 =>
        simp only [hb, bind_eq_bind, bind_some] at hrun
        exact (ih (sumOf_hashByte hpos hlt h (by omega) hb) (by omega) hrun).mono (by omega)

theorem bucketOf_range (hpos : 0 < size) (h : hashval.toNat < 2 ^ 63) :
    0 ≤ bucketOf hashval size ∧ bucketOf hashval size < size := by
  have htoInt : hashval.toInt = hashval.toNat := by
    rw [BitVec.toInt_eq_toNat_of_lt (by omega)]
  have hbucket : bucketOf hashval size = ((hashval.toNat % size : Nat) : Int) := by
    rw [bucketOf, if_neg (by omega), htoInt]
    exact Int.ofNat_tmod _ _
  rw [hbucket]
  exact ⟨Int.natCast_nonneg _, Int.ofNat_lt.mpr (Nat.mod_lt _ hpos)⟩

/-- A hash value is -1 or a bucket of the table. -/
theorem hashVal_range {ind : Nat} {head : Cell} {h : Int} (hpos : 0 < size) (hlt : size < 2 ^ 31)
    (hrun : hashVal W mem n ind head size = some h) : h = -1 ∨ 0 ≤ h ∧ h < size := by
  have hihash : ∀ w : BitVec 64, 0 ≤ (ihash w size : Int) ∧ (ihash w size : Int) < size :=
    fun w => ⟨Int.natCast_nonneg _, Int.ofNat_lt.mpr (Nat.mod_lt _ hpos)⟩
  rw [hashVal] at hrun
  cases hd : deref mem n head with
  | none => simp [hd] at hrun
  | some c =>
    simp only [hd, bind_eq_bind, bind_some] at hrun
    split at hrun
    next a =>
      split at hrun
      next =>
        cases harg : deref mem n (mem (a + ind)) with
        | none => simp [harg] at hrun
        | some arg =>
          simp only [harg, bind_some] at hrun
          split at hrun
          next =>
            rw [← some.inj hrun]
            exact .inr (hihash 0)
          next =>
            split at hrun
            next => exact .inl (some.inj hrun).symm
            next =>
              obtain ⟨w, -, rfl⟩ := map_eq_some_iff.mp hrun
              exact .inr (hihash w)
      next =>
        obtain ⟨o, ho, rfl⟩ := map_eq_some_iff.mp hrun
        cases o with
        | none => exact .inl rfl
        | some hashval =>
          right
          apply bucketOf_range hpos
          have hzero : SumOf size 0 0 := by simp [SumOf]
          have hlen : 0 + 5 * (indexBytes ind).length ≤ 16 := Nat.le_succ 15
          have hsum : hashval.toNat + size ≤ 2 ^ 15 * size :=
            sumOf_overBytes hpos hlt hzero hlen ho
          omega
    next => simp at hrun

end Range

end XSBEngine.Indexing
