import XSBEngine.Library.Linked
import XSBEngine.Library.System

/-!
# Records of interned terms

`insert_interned_rec`, `is_interned_rec` and `reclaim_internstr_recs`,
`XSB/emu/struct_intern.c:107–246, 425–479`, over the records of `XSB/emu/struct_intern.h`.
-/

namespace XSBEngine.Interning

open Function Library

/-- The address of a record: its block and its place there. The records of an area have the same
length. -/
@[ext] structure RecPtr where
  block : Nat
  place : Nat
deriving Repr, DecidableEq

/-- The records of an area. The chain of blocks starts at `base`. A `next` field is a pointer with
a mark in its low bit. The words of a record are zero, `none` here, until it is first used. -/
structure HcBlockRec where
  base : List Nat
  next : RecPtr → Option RecPtr
  marked : RecPtr → Bool
  termRec : RecPtr → Option (List Nat)
  hashtab : Nat → Option RecPtr
  freechain : Option RecPtr
  freedisp : RecPtr

/-- `hc_num_in_block`. -/
def hcNumInBlock : Nat := 100

/-- `it_hashtab_size`. -/
def itHashtabSize : Nat := 1048573

/-- `it_hash`, over the words of a record. -/
def itHash (htSize : Nat) (termrec : List Nat) : Nat :=
  (termrec.zipIdx.foldl (fun hsh c => (hsh <<< (2 * (c.2 % 16)) + c.1) % 2 ^ 64) 0) % htSize

namespace HcBlockRec

/-- How many records the blocks have: no chain is longer. -/
def numRecs (h : HcBlockRec) : Nat := hcNumInBlock * h.base.length

/-- The field `next` as a pointer, which it is without a mark only. -/
def nextField (h : HcBlockRec) (r : RecPtr) : Option (Option RecPtr) :=
  if h.marked r then none else some (h.next r)

/-- The loop of `is_interned_rec`. -/
def chainHas (h : HcBlockRec) (r : RecPtr) : Nat → Option RecPtr → Option Bool
  | _, none => some false
  | 0, some _ => none
  | n + 1, some recptr =>
    if recptr = r then some true else h.chainHas r n (h.next recptr)

/-- `is_interned_rec` in an area. -/
def isInternedRec (h : HcBlockRec) (r : RecPtr) : Option Bool :=
  if h.base = [] then some false
  else h.chainHas r h.numRecs (h.hashtab (itHash itHashtabSize ((h.termRec r).getD [])))

/-- The first block and the hash table are allocated. -/
def firstBlock (h : HcBlockRec) : HcBlockRec :=
  if h.base = [] then
    { h with base := [0], hashtab := fun _ => none, freechain := none, freedisp := ⟨0, 0⟩ }
  else h

/-- The search of `insert_interned_rec`: the record with the contents, and the last record of the
chain. -/
def search (h : HcBlockRec) (termrec : List Nat) :
    Nat → Option RecPtr → Option RecPtr → Option (Option RecPtr × Option RecPtr)
  | _, prev, none => some (none, prev)
  | 0, _, some _ => none
  | n + 1, prev, some recptr =>
    if h.termRec recptr = some termrec then some (some recptr, prev)
    else h.search termrec n (some recptr) (h.next recptr)

/-- A record from the chain of free ones, or else a new one. -/
def takeRec (h : HcBlockRec) : Option (HcBlockRec × RecPtr) :=
  match h.freechain with
  | some recptr => (h.nextField recptr).map fun next => ({ h with freechain := next }, recptr)
  | none =>
    let h := if hcNumInBlock ≤ h.freedisp.place then
        { h with base := h.base.length :: h.base, freedisp := ⟨h.base.length, 0⟩ }
      else h
    some ({ h with freedisp := ⟨h.freedisp.block, h.freedisp.place + 1⟩ }, h.freedisp)

/-- The record is put at the end of the chain and filled. -/
def link (h : HcBlockRec) (hashindex : Nat) (prev : Option RecPtr) (recptr : RecPtr)
    (termrec : List Nat) : HcBlockRec :=
  let h := match prev with
    | some prev => { h with next := update h.next prev (some recptr),
                            marked := update h.marked prev false }
    | none => { h with hashtab := update h.hashtab hashindex (some recptr) }
  { h with next := update h.next recptr none,
           marked := update h.marked recptr false,
           termRec := update h.termRec recptr (some termrec) }

/-- `insert_interned_rec`. -/
def insertInternedRec (h : HcBlockRec) (termrec : List Nat) : Option (HcBlockRec × RecPtr) := do
  let h := h.firstBlock
  let hashindex := itHash itHashtabSize termrec
  let first := h.hashtab hashindex
  let (found, prev) ← h.search termrec h.numRecs first first
  match found with
  | some recptr => some (h, recptr)
  | none =>
    let (h, recptr) ← h.takeRec
    some (h.link hashindex prev recptr termrec, recptr)

/-- The free records are marked. -/
def markFreechain : Nat → Option RecPtr → HcBlockRec → Option HcBlockRec
  | _, none, h => some h
  | 0, some _, _ => none
  | n + 1, some recptr, h => do
    let lrecptr ← h.nextField recptr
    markFreechain n lrecptr { h with marked := update h.marked recptr true }

/-- A record of a chain becomes the first of the free ones. -/
def moveToFree (h : HcBlockRec) (hashindex : Nat) (prec : Option RecPtr) (lrec : RecPtr) :
    HcBlockRec :=
  let h' := match prec with
    | some prec => { h with next := update h.next prec (h.next lrec) }
    | none => { h with hashtab := update h.hashtab hashindex (h.next lrec) }
  { h' with next := update h'.next lrec h.freechain,
            marked := update h.marked lrec false,
            freechain := some lrec }

/-- The search for a record in its chain, from the slot of the hash table on. -/
def unlinkFrom (h : HcBlockRec) (hashindex : Nat) (recptr : RecPtr) :
    Nat → Option RecPtr → Option RecPtr → Option HcBlockRec
  | _, _, none => some h
  | 0, _, some _ => none
  | n + 1, prec, some lrec =>
    if lrec = recptr then some (h.moveToFree hashindex prec lrec)
    else h.unlinkFrom hashindex recptr n (some lrec) (h.next lrec)

/-- A record without a mark is freed. -/
def freeUnmarked (h : HcBlockRec) (recptr : RecPtr) : Option HcBlockRec :=
  if h.marked recptr then some h
  else
    let hashindex := itHash itHashtabSize ((h.termRec recptr).getD [])
    h.unlinkFrom hashindex recptr h.numRecs none (h.hashtab hashindex)

/-- A record is swept, and its mark is cleared. -/
def sweepRec (h : HcBlockRec) (recptr : RecPtr) : Option HcBlockRec :=
  (h.freeUnmarked recptr).map fun h => { h with marked := update h.marked recptr false }

/-- The records of a block are swept up to its end or the first one that was never used. -/
def sweepBlock (block : Nat) : Nat → Nat → HcBlockRec → Option HcBlockRec
  | 0, _, h => some h
  | n + 1, place, h =>
    if (h.termRec ⟨block, place⟩).isSome then do
      let h ← h.sweepRec ⟨block, place⟩
      sweepBlock block n (place + 1) h
    else some h

/-- `reclaim_internstr_recs` for an area. -/
def reclaimArea (h : HcBlockRec) : Option HcBlockRec := do
  let h ← markFreechain h.numRecs h.freechain h
  h.base.foldlM (fun h block => sweepBlock block hcNumInBlock 0 h) h

/-- The marks of a garbage collection. -/
def setMarks (h : HcBlockRec) (marks : RecPtr → Bool) : HcBlockRec :=
  { h with marked := fun r => h.marked r || marks r }

/-- A record that `is_interned_rec` finds. -/
def Interned (h : HcBlockRec) (r : RecPtr) : Prop := h.isInternedRec r = some true

/-- The free records. -/
def FreeChain (h : HcBlockRec) (free : List RecPtr) : Prop := Linked h.next h.freechain free

end HcBlockRec

end XSBEngine.Interning
