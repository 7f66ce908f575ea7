import Mathlib

/-!
# Headers of clauses

The words that `assert_buff_to_clref_p` and `new_SOBblock` lay out before the code of a clause and
in a SOB record, with `ClRefNumInds`, `delete_from_hashchain` and `clref_from_try_addr`,
`XSB/emu/biassert.c:1235–1305, 1389–1479, 1673–1699, 1970–2043, 2170–2177`. Words are eight bytes,
the lowest first. Addresses count words.
-/

namespace XSBEngine.Indexing

open Function

/-- The words of the memory. -/
abbrev Words := Nat → Nat

/-! ### Instructions -/

def dyntrymeelse : Nat := 0x9f
def trymeelse : Nat := 0xa0
def dyntrustmeelsefail : Nat := 0xba
def dynretrymeelse : Nat := 0xbb
def dynnoop : Nat := 0xe4
def failInst : Nat := 0xf8
def noop : Nat := 0xf9
def switchonboundInst : Nat := 0xb3
def switchon3boundInst : Nat := 0xb4

/-- `cell_opcode`. -/
def cellOpcode (w : Nat) : Nat := w % 2 ^ 8

/-- `cell_operand3`. -/
def cellOperand3 (w : Nat) : Nat := w / 2 ^ 24 % 2 ^ 8

/-- Assignment to `cell_opcode`. -/
def setOpcode (w op : Nat) : Nat := w - cellOpcode w + op % 2 ^ 8

/-- Assignment to `cell_operand3`. -/
def setOperand3 (w arg : Nat) : Nat := w - cellOperand3 w * 2 ^ 24 + arg % 2 ^ 8 * 2 ^ 24

/-- `dbgen_inst_ppv`. -/
def instPpv (op arg : Nat) : Nat := op + arg % 2 ^ 8 * 2 ^ 24

/-- Half a cell, the unit of the displacements of `noop` and `dynnoop`. -/
def halfCell : Nat := 4

/-- The byte address at which `noop` and `dynnoop` go on. -/
def noopTarget (mem : Words) (addr : Nat) : Nat := 8 * (addr + 1) + 2 * cellOperand3 (mem addr)

/-! ### Records -/

inductive ClRefType where
  | unindexedCl
  | sobRecord
  | trieCl
  | indexedCl
deriving DecidableEq, Repr

def ClRefType.code : ClRefType → Nat
  | .unindexedCl => 0
  | .sobRecord => 1
  | .trieCl => 2
  | .indexedCl => 3

/-- The length field of `MakeClRef`. -/
def buflen (type : ClRefType) (nCells : Nat) : Nat := type.code + (nCells * 8 + 16 + 7) / 8 * 8

/-- `MakeClRef` in a block that `mem_calloc` has returned: the record starts after its header. -/
def makeClRef (mem : Words) (block : Nat) (type : ClRefType) (nCells : Nat) : Words :=
  fun addr =>
    if addr = block then buflen type nCells
    else if block < addr ∧ addr < block + 2 + nCells then 0
    else mem addr

/-- `IC_CELLS`. -/
def icCells (ni : Nat) : Nat := 4 * ni + 2

/-- `ClRefIEntryPoint`. -/
def clRefIEntryPoint (clause ni : Nat) : Nat := clause + icCells ni

/-- `ClRefIndPtr`. -/
def clRefIndPtr (clause ind : Nat) : Nat := clause + 4 * ind

/-- `ClRefNumInds`. -/
def clRefNumInds (mem : Words) (clause : Nat) : Nat :=
  (cellOperand3 (mem (clause + 2)) / halfCell + 1) / 4

/-- The code for the chains of the indexes from `Inum` down, from a location on. -/
def indexBlocks : Nat → Nat → Words → Words
  | 0, _, mem => mem
  | inum + 1, loc, mem =>
    let mem := update mem loc (instPpv noop ((4 * (inum + 1) - 1) * halfCell))
    let mem := update mem (loc + 1) 0
    let mem := update mem (loc + 2) (instPpv dynnoop halfCell)
    let mem := update mem (loc + 3) 0
    indexBlocks inum (loc + 4) mem

/-- `memmove` of the code. -/
def writeCode (mem : Words) (loc : Nat) (code : List Nat) : Words :=
  fun addr => if loc ≤ addr ∧ addr < loc + code.length then code.getD (addr - loc) 0 else mem addr

/-- The record that `assert_buff_to_clref_p` makes for the code in the buffer, before it is put on
its chains. -/
def assertBuffToClref (mem : Words) (block ni : Nat) (code : List Nat) : Words :=
  let clause := block + 2
  let mem := makeClRef mem block (if 0 < ni then .indexedCl else .unindexedCl)
    (icCells ni + code.length)
  let mem := update mem clause (instPpv dynnoop halfCell)
  let mem := update mem (clause + 1) 0
  let mem := indexBlocks ni (clause + 2) mem
  writeCode mem (clause + icCells ni) code

/-- `new_SOBblock`. The last two arguments stand for the address of `dynfail_inst` and the
arguments of the switch instruction. -/
def newSobBlock (mem : Words) (block thisTabSize ind dynfailInst sobArgs : Nat) : Words :=
  let sob := block + 2
  let mem := makeClRef mem block .sobRecord (9 + thisTabSize)
  let mem := update mem (sob + 2)
    ((if 0xff < ind then switchon3boundInst else switchonboundInst) + sobArgs * 2 ^ 8)
  let mem := update mem (sob + 3) (8 * (sob + 9))
  let mem := update mem (sob + 4) thisTabSize
  let mem := update mem (sob + 5) failInst
  let mem := update mem (sob + 6) (8 * (sob + 5))
  let mem := update mem (sob + 7) (8 * (sob + 5))
  let mem := update mem (sob + 8) 0
  writeCode mem (sob + 9) (List.replicate thisTabSize (8 * dynfailInst))

/-! ### Deletion -/

/-- `IndRefNext` and `IndRefPrev` as word addresses. -/
def indRefNext (mem : Words) (ip : Nat) : Nat := mem (ip + 1) / 8

def indRefPrev (mem : Words) (ip : Nat) : Nat := mem (ip - 1) / 8

/-- The try instruction of a neighbour becomes one that does nothing. -/
def rewriteNoop (mem : Words) (ip op displ : Nat) : Words :=
  update mem ip (setOperand3 (setOpcode (mem ip) op) displ)

/-- `delete_from_chain`. -/
def deleteFromChain (mem : Words) (c pc displ : Nat) : Option Words :=
  let next := indRefNext mem pc
  let prev := indRefPrev mem pc
  if c = noop ∨ c = dynnoop then some mem
  else if c = trymeelse then
    let mem := update mem (next - 1) (8 * prev)
    if cellOpcode (mem next) = dynretrymeelse then
      some (update mem next (setOpcode (mem next) trymeelse))
    else some (rewriteNoop mem next noop displ)
  else if c = dyntrymeelse then
    let mem := update mem (next - 1) (8 * prev)
    if cellOpcode (mem next) = dynretrymeelse then
      some (update mem next (setOpcode (mem next) dyntrymeelse))
    else some (rewriteNoop mem next dynnoop displ)
  else if c = dynretrymeelse then
    let mem := update mem (next - 1) (8 * prev)
    some (update mem (prev + 1) (8 * next))
  else if c = dyntrustmeelsefail then
    let mem := update mem (prev + 1) (8 * next)
    if cellOpcode (mem prev) = dynretrymeelse then
      some (update mem prev (setOpcode (mem prev) dyntrustmeelsefail))
    else if cellOpcode (mem prev) = trymeelse then some (rewriteNoop mem prev noop displ)
    else some (rewriteNoop mem prev dynnoop displ)
  else none

/-- The displacement of `delete_from_hashchain`. -/
def hashchainDispl (ni ind : Nat) : Nat := ((ni - ind) * 4 + 1) * halfCell

/-- `delete_from_hashchain` as `really_delete_clause` calls it, without the bucket of the SOB
record. -/
def deleteFromHashchain (mem : Words) (clause ind : Nat) : Option Words :=
  let pi := clRefIndPtr clause ind
  deleteFromChain mem (cellOpcode (mem pi)) pi (hashchainDispl (clRefNumInds mem clause) ind)

/-- `delete_from_allchain`, without the reference to the predicate. -/
def deleteFromAllchain (mem : Words) (clause : Nat) : Option Words :=
  deleteFromChain mem (cellOpcode (mem clause)) clause halfCell

/-! ### Base of a record -/

/-- `clref_from_try_addr` for so many rounds of its loop. -/
def clrefFromTryAddr (mem : Words) : Nat → Nat → Option Nat
  | 0, _ => none
  | rounds + 1, codeAddr =>
    if cellOpcode (mem (codeAddr - 2)) = noop then clrefFromTryAddr mem rounds (codeAddr - 4)
    else some codeAddr

/-- The loop from an address ends at a record. -/
def FindsBase (mem : Words) (codeAddr clref : Nat) : Prop :=
  ∃ rounds, clrefFromTryAddr mem rounds codeAddr = some clref

/-! ### Consistency -/

/-- The length field is the same but for the mark in its highest bit. -/
def SameLength (mem mem' : Words) (block : Nat) : Prop := mem' block % 2 ^ 63 = mem block % 2 ^ 63

/-- A later state of the memory: the length field and the `noop` instructions before the chains of
the indexes are as they were laid out. -/
structure KeepsBlocks (mem mem' : Words) (block ni : Nat) : Prop where
  length : SameLength mem mem' block
  noops : ∀ ind, 1 ≤ ind → ind ≤ ni →
    mem' (clRefIndPtr (block + 2) ind - 2) = mem (clRefIndPtr (block + 2) ind - 2)

/-- The end of the block of an index: the next block, or the code. -/
def blockEnd (clause ind : Nat) : Nat := 8 * (clRefIndPtr clause ind + 2)

/-- The header of a clause fits to what reads it. -/
structure HeaderConsistent (mem : Words) (block ni : Nat) : Prop where
  numInds : 0 < ni → clRefNumInds mem (block + 2) = ni
  dynnoops : ∀ ind ≤ ni, noopTarget mem (clRefIndPtr (block + 2) ind) = blockEnd (block + 2) ind
  noops : ∀ ind, 1 ≤ ind → ind ≤ ni →
    noopTarget mem (clRefIndPtr (block + 2) ind - 2) = 8 * clRefIEntryPoint (block + 2) ni
  hashchain : ∀ mem' ind op, 1 ≤ ind → ind ≤ ni →
    noopTarget (rewriteNoop mem' (clRefIndPtr (block + 2) ind) op
        (hashchainDispl (clRefNumInds mem (block + 2)) ind)) (clRefIndPtr (block + 2) ind) =
      8 * clRefIEntryPoint (block + 2) ni
  allchain : ∀ mem' op,
    noopTarget (rewriteNoop mem' (block + 2) op halfCell) (block + 2) = blockEnd (block + 2) 0
  tryAddr : ∀ mem', KeepsBlocks mem mem' block ni → ∀ ind ≤ ni,
    FindsBase mem' (clRefIndPtr (block + 2) ind) (block + 2)

/-- The address of the try instruction of a SOB record leads to the record. -/
def SobConsistent (mem : Words) (block : Nat) : Prop :=
  ∀ mem', SameLength mem mem' block → FindsBase mem' (block + 2) (block + 2)

/-! ### Operands -/

section

variable {mem mem' : Words} {block ni ind loc addr clause inum : Nat}

theorem cellOperand3_instPpv {op arg : Nat} (hop : op < 2 ^ 8) :
    cellOperand3 (instPpv op arg) = arg % 2 ^ 8 := by
  have harg : arg % 2 ^ 8 < 2 ^ 8 := Nat.mod_lt _ (by decide)
  unfold cellOperand3 instPpv
  omega

theorem cellOpcode_instPpv {op arg : Nat} (hop : op < 2 ^ 8) :
    cellOpcode (instPpv op arg) = op := by
  unfold cellOpcode instPpv
  omega

theorem cellOperand3_setOperand3 (w arg : Nat) :
    cellOperand3 (setOperand3 w arg) = arg % 2 ^ 8 := by
  have harg : arg % 2 ^ 8 < 2 ^ 8 := Nat.mod_lt _ (by decide)
  unfold setOperand3 cellOperand3
  omega

theorem noopTarget_rewriteNoop (mem : Words) (addr op displ : Nat) :
    noopTarget (rewriteNoop mem addr op displ) addr = 8 * (addr + 1) + 2 * (displ % 2 ^ 8) := by
  rw [noopTarget, rewriteNoop, update_self, cellOperand3_setOperand3]

/-! ### Layout -/

theorem indexBlocks_outside (h : addr < loc ∨ loc + 4 * inum ≤ addr) :
    indexBlocks inum loc mem addr = mem addr := by
  induction inum generalizing loc mem with
  | zero => rfl
  | succ inum ih =>
    rw [indexBlocks, ih (by omega)]
    have h0 : addr ≠ loc := by omega
    have h1 : addr ≠ loc + 1 := by omega
    have h2 : addr ≠ loc + 2 := by omega
    have h3 : addr ≠ loc + 3 := by omega
    simp [update_of_ne, h0, h1, h2, h3]

/-- The two instructions of each block. -/
theorem indexBlocks_block {k : Nat} (hk : k < inum) :
    indexBlocks inum loc mem (loc + 4 * k) = instPpv noop ((4 * (inum - k) - 1) * halfCell) ∧
      indexBlocks inum loc mem (loc + 4 * k + 2) = instPpv dynnoop halfCell := by
  induction inum generalizing loc mem k with
  | zero => omega
  | succ inum ih =>
    rw [indexBlocks]
    cases k with
    | zero =>
      rw [indexBlocks_outside (by omega), indexBlocks_outside (by omega)]
      simp [update_of_ne]
    | succ k =>
      have hloc : loc + 4 * (k + 1) = loc + 4 + 4 * k := by omega
      have hsub : inum + 1 - (k + 1) = inum - k := by omega
      rw [hloc, hsub]
      exact ih (by omega)

theorem writeCode_before {code : List Nat} (h : addr < loc) :
    writeCode mem loc code addr = mem addr := by
  rw [writeCode, if_neg (by omega)]

section Clause

variable (mem : Words) (block ni : Nat) (code : List Nat)

theorem assertBuff_length :
    assertBuffToClref mem block ni code block =
      buflen (if 0 < ni then .indexedCl else .unindexedCl) (icCells ni + code.length) := by
  have h2 : block ≠ block + 2 := by omega
  have h3 : block ≠ block + 2 + 1 := by omega
  simp only [assertBuffToClref]
  rw [writeCode_before (by omega), indexBlocks_outside (by omega), update_of_ne h3,
    update_of_ne h2, makeClRef, if_pos rfl]

theorem assertBuff_noop (h : 1 ≤ ind) (hni : ind ≤ ni) :
    assertBuffToClref mem block ni code (clRefIndPtr (block + 2) ind - 2) =
      instPpv noop ((4 * (ni + 1 - ind) - 1) * halfCell) := by
  have haddr : clRefIndPtr (block + 2) ind - 2 = block + 2 + 2 + 4 * (ind - 1) := by
    rw [clRefIndPtr]
    omega
  have hsub : ni + 1 - ind = ni - (ind - 1) := by omega
  simp only [assertBuffToClref]
  rw [writeCode_before (by rw [clRefIndPtr, icCells]; omega), haddr,
    (indexBlocks_block (by omega)).1, hsub]

theorem assertBuff_dynnoop (hni : ind ≤ ni) :
    assertBuffToClref mem block ni code (clRefIndPtr (block + 2) ind) =
      instPpv dynnoop halfCell := by
  simp only [assertBuffToClref]
  rw [writeCode_before (by rw [clRefIndPtr, icCells]; omega)]
  rcases Nat.eq_zero_or_pos ind with rfl | hpos
  · have h1 : block + 2 ≠ block + 2 + 1 := by omega
    rw [clRefIndPtr, Nat.mul_zero, Nat.add_zero, indexBlocks_outside (by omega),
      update_of_ne h1, update_self]
  · have haddr : clRefIndPtr (block + 2) ind = block + 2 + 2 + 4 * (ind - 1) + 2 := by
      rw [clRefIndPtr]
      omega
    rw [haddr, (indexBlocks_block (by omega)).2]

/-- The count that is read, in general. -/
theorem clRefNumInds_assertBuff (hpos : 0 < ni) :
    clRefNumInds (assertBuffToClref mem block ni code) (block + 2) =
      ((4 * ni - 1) * 4 % 2 ^ 8 / 4 + 1) / 4 := by
  have h := assertBuff_noop mem block ni code (Nat.le_refl 1) hpos
  have haddr : clRefIndPtr (block + 2) 1 - 2 = block + 2 + 2 := by
    rw [clRefIndPtr]
    omega
  have hsub : ni + 1 - 1 = ni := by omega
  rw [haddr, hsub] at h
  rw [clRefNumInds, h, cellOperand3_instPpv (by decide)]
  rfl

end Clause

/-! ### Base of a record -/

theorem cellOpcode_sameLength (h : SameLength mem mem' block) :
    cellOpcode (mem' block) = cellOpcode (mem block) := by
  unfold SameLength at h
  unfold cellOpcode
  omega

theorem findsBase_self (h : cellOpcode (mem (clause - 2)) ≠ noop) : FindsBase mem clause clause :=
  ⟨1, if_neg h⟩

theorem findsBase_block {addr clref : Nat} (h : cellOpcode (mem (addr - 2)) = noop)
    (hbase : FindsBase mem (addr - 4) clref) : FindsBase mem addr clref := by
  obtain ⟨rounds, hr⟩ := hbase
  exact ⟨rounds + 1, (if_pos h).trans hr⟩

theorem clrefFromTryAddr_le {rounds addr clref : Nat}
    (h : clrefFromTryAddr mem rounds addr = some clref) : clref ≤ addr := by
  induction rounds generalizing addr with
  | zero => cases h
  | succ rounds ih =>
    rw [clrefFromTryAddr] at h
    split at h
    next => exact Nat.le_trans (ih h) (Nat.sub_le _ _)
    next => exact Nat.le_of_eq (Option.some.inj h).symm

/-- From a record whose length reads as a `noop` the loop goes on below it. -/
theorem not_findsBase (h : cellOpcode (mem block) = noop) :
    ¬FindsBase mem (block + 2) (block + 2) := by
  rintro ⟨rounds, hr⟩
  cases rounds with
  | zero => cases hr
  | succ rounds =>
    rw [clrefFromTryAddr, if_pos (show cellOpcode (mem (block + 2 - 2)) = noop from h)] at hr
    have := clrefFromTryAddr_le hr
    omega

theorem buflen_mod (type : ClRefType) (nCells : Nat) : buflen type nCells % 8 = type.code := by
  have hcode : type.code < 8 := by cases type <;> decide
  unfold buflen
  omega

theorem newSobBlock_length (mem : Words) (block thisTabSize ind dynfailInst sobArgs : Nat) :
    newSobBlock mem block thisTabSize ind dynfailInst sobArgs block =
      buflen .sobRecord (9 + thisTabSize) := by
  have hne : ∀ k, block ≠ block + 2 + k := fun k => by omega
  simp only [newSobBlock]
  rw [writeCode_before (by omega), update_of_ne (hne 8), update_of_ne (hne 7),
    update_of_ne (hne 6), update_of_ne (hne 5), update_of_ne (hne 4),
    update_of_ne (hne 3), update_of_ne (hne 2), makeClRef, if_pos rfl]

/-! ### Exact conditions -/

theorem header_consistent_iff (mem : Words) (block ni : Nat) (code : List Nat) :
    HeaderConsistent (assertBuffToClref mem block ni code) block ni ↔ ni ≤ 16 := by
  constructor
  · intro h
    rcases Nat.eq_zero_or_pos ni with rfl | hpos
    · exact Nat.zero_le _
    · have hread := h.numInds hpos
      rw [clRefNumInds_assertBuff mem block ni code hpos] at hread
      omega
  · intro hle
    have hnum : 0 < ni → clRefNumInds (assertBuffToClref mem block ni code) (block + 2) = ni := by
      intro hpos
      rw [clRefNumInds_assertBuff mem block ni code hpos]
      omega
    constructor
    case numInds => exact hnum
    case dynnoops =>
      intro ind hind
      rw [noopTarget, assertBuff_dynnoop mem block ni code hind, cellOperand3_instPpv (by decide),
        blockEnd, halfCell]
      omega
    case noops =>
      intro ind hpos hind
      rw [noopTarget, assertBuff_noop mem block ni code hpos hind,
        cellOperand3_instPpv (by decide), clRefIEntryPoint, icCells, clRefIndPtr, halfCell]
      omega
    case hashchain =>
      intro mem' ind op hpos hind
      rw [noopTarget_rewriteNoop, hnum (by omega), hashchainDispl, clRefIEntryPoint, icCells,
        clRefIndPtr, halfCell]
      omega
    case allchain =>
      intro mem' op
      rw [noopTarget_rewriteNoop, blockEnd, clRefIndPtr, halfCell]
      omega
    case tryAddr =>
      intro mem' hkeep ind hind
      induction ind with
      | zero =>
        apply findsBase_self
        show cellOpcode (mem' block) ≠ noop
        rw [cellOpcode_sameLength hkeep.length, assertBuff_length]
        -- the lowest bits are those of the type
        intro he
        have hmod := buflen_mod (if 0 < ni then .indexedCl else .unindexedCl)
          (icCells ni + code.length)
        have htype : (if 0 < ni then ClRefType.indexedCl else .unindexedCl).code ≠ 1 := by
          split <;> decide
        unfold cellOpcode noop at he
        omega
      | succ ind ih =>
        have hop : cellOpcode (mem' (clRefIndPtr (block + 2) (ind + 1) - 2)) = noop := by
          rw [hkeep.noops (ind + 1) (by omega) hind,
            assertBuff_noop mem block ni code (by omega) hind, cellOpcode_instPpv (by decide)]
        have haddr : clRefIndPtr (block + 2) (ind + 1) - 4 = clRefIndPtr (block + 2) ind := by
          rw [clRefIndPtr, clRefIndPtr]
          omega
        apply findsBase_block hop
        rw [haddr]
        exact ih (by omega)

theorem sob_consistent_iff (mem : Words) (block thisTabSize ind dynfailInst sobArgs : Nat) :
    SobConsistent (newSobBlock mem block thisTabSize ind dynfailInst sobArgs) block ↔
      thisTabSize % 32 ≠ 20 := by
  have hop : cellOpcode (newSobBlock mem block thisTabSize ind dynfailInst sobArgs block) = noop ↔
      thisTabSize % 32 = 20 := by
    rw [newSobBlock_length]
    simp only [cellOpcode, buflen, ClRefType.code, noop]
    omega
  constructor
  · intro h htab
    exact not_findsBase (hop.mpr htab) (h _ rfl)
  · intro htab mem' hlen
    apply findsBase_self
    show cellOpcode (mem' block) ≠ noop
    rw [cellOpcode_sameLength hlen]
    exact fun he => htab (hop.mp he)

end

end XSBEngine.Indexing
