import XSBEngine.Heap.Cells
import XSBEngine.Library.Linked
import XSBEngine.Library.System

/-!
# The string table

`string_find` and `string_find_safe`, `XSB/emu/psc_xsb.c:73–127`, `hash`, `expand_string_table`
and `free_unused_strings`, `XSB/emu/hash_xsb.c:59–173, 283–313`, the overflow check of
`XSB/emu/hash_xsb.h:50–56` and `mark_string` of `XSB/emu/heap_defs_xsb.h:54–66`.
-/

namespace XSBEngine.Strings

open Function

open Heap (CString strcmp)
open Library

/-! ### Hashing -/

/-- `primes`. -/
def primes : List Nat :=
  [127, 257, 509, 1021, 2053, 4099, 8191, 16381, 32771, 65537, 131071, 262147, 524287, 1048573,
    2097143, 4194301]

/-- `NUM_OF_PRIMES`. -/
def numOfPrimes : Nat := 16

/-- `next_prime`. The last of the primes is never returned. -/
def nextPrime (someInt : Nat) : Nat :=
  let i := primes.findIdx fun prime => someInt < prime
  if i < numOfPrimes - 1 then primes.getD i 0 else 2 * someInt - 1

/-- `MAX_SHIFT_BITS`. -/
def maxShiftBits : Nat := 57

/-- The loop of `hash` over the characters. What an `int` becomes by a shift of 32 bits or more is
left open by C, so that `shl` gives it. -/
def hashChars (shl : UInt8 → Nat → UInt64) : List UInt8 → Nat → UInt64 → UInt64
  | [], _, hashval => hashval
  | char :: objName, shift, hashval =>
    let next := if maxShiftBits ≤ shift + 3 then shift + 3 - maxShiftBits else shift + 3
    hashChars shl objName next (hashval ^^^ shl char shift)

/-- `hash`. -/
def hash (shl : UInt8 → Nat → UInt64) (objName : CString) (arity hashTableSize : Nat) : Nat :=
  (hashChars shl objName.bytes 0 0 + UInt64.ofNat arity).toNat % hashTableSize

/-! ### Entries -/

/-- The address of an entry, which begins with the pointer to the next one. The string that
`string_find` returns is behind that pointer. -/
abbrev Addr := Nat

/-- `string_table` and the entries in memory. A `next` field is a pointer with a mark in its low
bit. What is not allocated has no string. -/
structure StringTable where
  size : Nat
  contains : Nat
  table : Nat → Option Addr
  next : Addr → Option Addr
  marked : Addr → Bool
  string : Addr → Option CString

/-- The table at the start. -/
def initialTable : StringTable where
  size := 16381
  contains := 0
  table _ := none
  next _ := none
  marked _ := false
  string _ := none

namespace StringTable

/-- The field `next` of an entry as a pointer, which it is without a mark only. -/
def nextField (t : StringTable) (entry : Addr) : Option (Option Addr) :=
  if t.marked entry then none else some (t.next entry)

/-- The pointer that a slot of the table, or the entry before, holds is replaced. -/
def setLink (t : StringTable) (index : Nat) (prev ptr : Option Addr) : StringTable :=
  match prev with
  | some prev => { t with next := update t.next prev ptr,
                          marked := update t.marked prev false }
  | none => { t with table := update t.table index ptr }

/-! ### Insertion -/

/-- The search of `string_find`: the entry of the string, and the last entry that was passed. -/
def search (t : StringTable) (str : CString) :
    Nat → Option Addr → Option Addr → Option (Option Addr × Option Addr)
  | _, prev, none => some (none, prev)
  | 0, _, some _ => none
  | n + 1, prev, some entry => do
    let str0 ← t.string entry
    if strcmp str str0 = 0 then some (some entry, prev)
    else
      let ptr ← t.nextField entry
      t.search str n (some entry) ptr

/-- A new entry at the end of a chain. -/
def append (t : StringTable) (index : Nat) (prev : Option Addr) (str0 : Addr) (str : CString) :
    StringTable :=
  let t := t.setLink index prev (some str0)
  { t with next := update t.next str0 none,
           marked := update t.marked str0 false,
           string := update t.string str0 (some str) }

/-- The loop of `expand_string_table` over a chain of the old table. -/
def rehashChain (shl : UInt8 → Nat → UInt64) (newSize : Nat) :
    Nat → Option Addr → StringTable × (Nat → Option Addr) →
      Option (StringTable × (Nat → Option Addr))
  | _, none, st => some st
  | 0, some _, _ => none
  | n + 1, some curEntry, (t, newTable) => do
    let nextEntry ← t.nextField curEntry
    let string ← t.string curEntry
    let newIndex := hash shl string 0 newSize
    rehashChain shl newSize n nextEntry
      ({ t with next := update t.next curEntry (newTable newIndex) },
        update newTable newIndex (some curEntry))

/-- `expand_string_table`. -/
def expandStringTable (shl : UInt8 → Nat → UInt64) (t : StringTable) : Option StringTable := do
  let newSize := nextPrime t.size
  let (t', newTable) ← (List.range t.size).foldlM
    (fun st index => rehashChain shl newSize t.contains (t.table index) st) (t, fun _ => none)
  some { t' with size := newSize, table := newTable }

/-- `string_table_increment_and_check_for_overflow`. -/
def incrementAndCheckForOverflow (shl : UInt8 → Nat → UInt64) (t : StringTable) :
    Option StringTable :=
  let t := { t with contains := t.contains + 1 }
  if t.size <<< 2 < t.contains then t.expandStringTable shl else some t

/-- `string_find`, with the address that `mem_alloc` returns if it is called. -/
def stringFind (shl : UInt8 → Nat → UInt64) (t : StringTable) (str : CString) (insert : Bool)
    (alloc : Addr) : Option (StringTable × Option Addr) := do
  let index := hash shl str 0 t.size
  let (found, prev) ← t.search str t.contains none (t.table index)
  match found with
  | some entry => some (t, some entry)
  | none =>
    if insert then
      let t ← (t.append index prev alloc str).incrementAndCheckForOverflow shl
      some (t, some alloc)
    else some (t, none)

/-! ### Collection -/

/-- The loop of `string_find_safe`, which takes the marks off the pointers. -/
def searchSafe (t : StringTable) (str : CString) : Nat → Option Addr → Option (Option Addr)
  | _, none => some none
  | 0, some _ => none
  | n + 1, some entry => do
    let str0 ← t.string entry
    if strcmp str str0 = 0 then some (some entry) else t.searchSafe str n (t.next entry)

/-- `string_find_safe`. -/
def stringFindSafe (shl : UInt8 → Nat → UInt64) (t : StringTable) (str : CString) :
    Option (Option Addr) :=
  t.searchSafe str t.contains (t.table (hash shl str 0 t.size))

/-- `mark_string` for the string of an entry. -/
def markString (shl : UInt8 → Nat → UInt64) (t : StringTable) (entry : Addr) :
    Option StringTable := do
  let str ← t.string entry
  let found ← t.stringFindSafe shl str
  some (if found = some entry then { t with marked := update t.marked entry true } else t)

/-- An entry is taken out of its chain and freed. -/
def freeEntry (t : StringTable) (index : Nat) (prev : Option Addr) (ptr : Addr) : StringTable :=
  let t' := t.setLink index prev (t.next ptr)
  { t' with string := update t'.string ptr none, contains := t'.contains - 1 }

/-- The loop of `free_unused_strings` over a chain, with the entries that are freed. -/
def sweepChain (index : Nat) : Nat → Option Addr → Option Addr → StringTable × List Addr →
    Option (StringTable × List Addr)
  | _, _, none, st => some st
  | 0, _, some _, _ => none
  | n + 1, prev, some ptr, (t, freed) => do
    let _ ← t.string ptr
    if t.marked ptr then
      sweepChain index n (some ptr) (t.next ptr)
        ({ t with marked := update t.marked ptr false }, freed)
    else
      sweepChain index n prev (t.next ptr) (t.freeEntry index prev ptr, freed ++ [ptr])

/-- `free_unused_strings`. -/
def freeUnusedStrings (t : StringTable) : Option (StringTable × List Addr) :=
  (List.range t.size).foldlM
    (fun st index => sweepChain index st.1.contains none (st.1.table index) st) (t, [])

/-- A string collection: entries are marked, the others are freed. -/
def collect (shl : UInt8 → Nat → UInt64) (t : StringTable) (marks : List Addr) :
    Option (StringTable × List Addr) := do
  let t ← marks.foldlM (markString shl) t
  t.freeUnusedStrings

/-- The entries of the table, slot by slot. -/
def Entries (t : StringTable) (entries : List Addr) : Prop :=
  ∃ chains : Nat → List Addr, (∀ i < t.size, Linked t.next (t.table i) (chains i)) ∧
    entries = (List.range t.size).flatMap chains

end StringTable

/-- What happens to the table: searches, with or without insertion, and collections in which some
of the entries are marked. -/
inductive Event where
  | find (str : CString) (insert : Bool) (alloc : Addr) (result : Option Addr)
  | collect (marks freed : List Addr)

/-- The runs of the string table. -/
def runs (shl : UInt8 → Nat → UInt64) : System StringTable Event where
  init t := t = initialTable
  step t e t' :=
    match e with
    | .find str insert alloc result =>
      t.string alloc = none ∧ t.stringFind shl str insert alloc = some (t', result)
    | .collect marks freed =>
      (∃ entries, t.Entries entries ∧ ∀ a ∈ marks, a ∈ entries) ∧
        t.collect shl marks = some (t', freed)

end XSBEngine.Strings
