import Mathlib
import XSBEngine.Tries.Operations

/-!
# Sibling chains

The choice point bits of a chain are determined by the place of each node: `NO_CP` for an
only node, else `TRY`, `RETRY` and `TRUST`. The updates of `trie_internals.h` keep them so.
-/

namespace XSBEngine.Tries

open List

/-! ### Bytes -/

/-- How the updates change the choice point bits, and that they leave the kind of an instruction. -/
theorem cpType_updates : ∀ b : Byte,
    (cpType b = nocpInstr →
      cpType (rotateInstrCP b) = trustInstr ∧ instrKind (rotateInstrCP b) = instrKind b) ∧
    (cpType b = tryInstr →
      cpType (rotateInstrCP b) = retryInstr ∧ instrKind (rotateInstrCP b) = instrKind b) ∧
    (cpType b = trustInstr → cpType (b - 1) = nocpInstr ∧ instrKind (b - 1) = instrKind b) ∧
    (cpType b = retryInstr → cpType (b - 1) = tryInstr ∧ instrKind (b - 1) = instrKind b) ∧
    (cpType b = tryInstr → cpType (b - 2) = nocpInstr ∧ instrKind (b - 2) = instrKind b) ∧
    (cpType b = retryInstr → cpType (b - 2) = trustInstr ∧ instrKind (b - 2) = instrKind b) ∧
    (cpType (forceInstrCPtoNOCP b) = nocpInstr ∧ instrKind (forceInstrCPtoNOCP b) = instrKind b) ∧
    (cpType (forceInstrCPtoTRY b) = tryInstr ∧ instrKind (forceInstrCPtoTRY b) = instrKind b) ∧
    (cpType b = nocpInstr ∨ cpType b = trustInstr ∨ cpType b = tryInstr ∨
    cpType b = retryInstr) := by
  decide +kernel

section Updates

variable {b : Byte}

theorem rotate_nocp (h : cpType b = nocpInstr) :
    cpType (rotateInstrCP b) = trustInstr ∧ instrKind (rotateInstrCP b) = instrKind b :=
  (cpType_updates b).1 h

theorem rotate_try (h : cpType b = tryInstr) :
    cpType (rotateInstrCP b) = retryInstr ∧ instrKind (rotateInstrCP b) = instrKind b :=
  (cpType_updates b).2.1 h

theorem pred_trust (h : cpType b = trustInstr) :
    cpType (b - 1) = nocpInstr ∧ instrKind (b - 1) = instrKind b :=
  (cpType_updates b).2.2.1 h

theorem pred_retry (h : cpType b = retryInstr) :
    cpType (b - 1) = tryInstr ∧ instrKind (b - 1) = instrKind b :=
  (cpType_updates b).2.2.2.1 h

theorem sub_two_try (h : cpType b = tryInstr) :
    cpType (b - 2) = nocpInstr ∧ instrKind (b - 2) = instrKind b :=
  (cpType_updates b).2.2.2.2.1 h

theorem sub_two_retry (h : cpType b = retryInstr) :
    cpType (b - 2) = trustInstr ∧ instrKind (b - 2) = instrKind b :=
  (cpType_updates b).2.2.2.2.2.1 h

theorem force_nocp (b : Byte) :
    cpType (forceInstrCPtoNOCP b) = nocpInstr ∧ instrKind (forceInstrCPtoNOCP b) = instrKind b :=
  (cpType_updates b).2.2.2.2.2.2.1

theorem force_try (b : Byte) :
    cpType (forceInstrCPtoTRY b) = tryInstr ∧ instrKind (forceInstrCPtoTRY b) = instrKind b :=
  (cpType_updates b).2.2.2.2.2.2.2.1

end Updates

/-! ### Nodes up to choice point bits -/

/-- Equal records up to the child field, the choice point bits and the hashed flag. -/
structure SameRecord (a b : BTN) : Prop where
  kind : instrKind a.instr = instrKind b.instr
  status : a.status = b.status
  trieType : a.trieType = b.trieType
  nodeType : a.nodeType ||| hashedNodeMask = b.nodeType ||| hashedNodeMask
  parent : a.parent = b.parent
  symbol : a.symbol = b.symbol
  free : a.free = b.free

/-- Equal records up to the choice point bits and the hashed flag. -/
structure SameNode (a b : BTN) : Prop extends SameRecord a b where
  child : a.child = b.child

theorem SameRecord.refl (a : BTN) : SameRecord a a := ⟨rfl, rfl, rfl, rfl, rfl, rfl, rfl⟩

theorem SameRecord.trans {a b c : BTN} (h : SameRecord a b) (h' : SameRecord b c) :
    SameRecord a c :=
  ⟨h.kind.trans h'.kind, h.status.trans h'.status, h.trieType.trans h'.trieType,
    h.nodeType.trans h'.nodeType, h.parent.trans h'.parent, h.symbol.trans h'.symbol,
    h.free.trans h'.free⟩

theorem SameNode.refl (a : BTN) : SameNode a a := ⟨.refl a, rfl⟩

theorem SameNode.trans {a b c : BTN} (h : SameNode a b) (h' : SameNode b c) : SameNode a c :=
  ⟨h.toSameRecord.trans h'.toSameRecord, h.child.trans h'.child⟩

theorem SameNode.mapInstr {a : BTN} {f : Byte → Byte}
    (h : instrKind (f a.instr) = instrKind a.instr) : SameNode (a.mapInstr f) a :=
  ⟨⟨h, rfl, rfl, rfl, rfl, rfl, rfl⟩, rfl⟩

theorem SameNode.makeHashed (a : BTN) : SameNode a.makeHashedNode a :=
  ⟨⟨rfl, rfl, rfl, by simp [BTN.makeHashedNode, BitVec.or_assoc], rfl, rfl, rfl⟩, rfl⟩

theorem SameRecord.nodeType_lt {a b : BTN} (h : SameRecord a b) (hb : b.nodeType.toNat < 4) :
    a.nodeType.toNat < 4 := by
  have key : ∀ x : Byte, x.toNat < 4 ↔ (x ||| hashedNodeMask).toNat < 4 := by decide +kernel
  exact (key _).mpr (h.nodeType ▸ (key _).mp hb)

/-! ### Choice point bits of a chain -/

/-- Choice point bits of the node at place `i` of a chain of `n` nodes. -/
def cpAt (n i : Nat) : Byte :=
  if n = 1 then nocpInstr else if i = 0 then tryInstr else if i + 1 = n then trustInstr
  else retryInstr

/-- Every node of the chain has the choice point bits of its place. -/
def CpsOK (node : BTNptr → BTN) (chain : List BTNptr) : Prop :=
  ∀ i (h : i < chain.length), cpType (node chain[i]).instr = cpAt chain.length i

variable {node node' : BTNptr → BTN} {chain rest : List BTNptr} {p q : BTNptr}

theorem cpsOK_nil (node : BTNptr → BTN) : CpsOK node [] := fun _ h => absurd h (Nat.not_lt_zero _)

theorem CpsOK.congr (h : CpsOK node chain) (hc : ∀ c ∈ chain, (node' c).instr = (node c).instr) :
    CpsOK node' chain := by
  intro i hi
  rw [hc _ (getElem_mem hi)]
  exact h i hi

theorem CpsOK.single (h : cpType (node p).instr = nocpInstr) : CpsOK node [p] := by
  intro i hi
  have : i = 0 := by simpa using hi
  subst this
  exact h

/-- The choice point bits of the head tell whether it is alone. -/
theorem CpsOK.head (h : CpsOK node (p :: rest)) :
    cpType (node p).instr = if rest = [] then nocpInstr else tryInstr := by
  have := h 0 (Nat.succ_pos _)
  rw [getElem_cons_zero] at this
  rw [this]
  cases rest <;> simp [cpAt]

/-- A node put before a chain. -/
theorem CpsOK.push (h : CpsOK node (q :: rest)) (hp : cpType (node' p).instr = tryInstr)
    (hq : (node' q).instr = rotateInstrCP (node q).instr)
    (hrest : ∀ c ∈ rest, (node' c).instr = (node c).instr) : CpsOK node' (p :: q :: rest) := by
  intro i hi
  match i with
  | 0 => simpa [cpAt] using hp
  | 1 =>
    have hh := h.head
    simp only [getElem_cons_succ, getElem_cons_zero, hq]
    split at hh
    next hnil => simpa [cpAt, hnil] using (rotate_nocp hh).1
    next hne =>
      have hlen : 0 < rest.length := length_pos_iff.mpr hne
      rw [(rotate_try hh).1]
      simp [cpAt, hne]
  | i + 2 =>
    have hi' : i + 1 < (q :: rest).length := by simpa using hi
    have := h (i + 1) hi'
    simp only [getElem_cons_succ, length_cons] at this hi ⊢
    rw [hrest _ (getElem_mem _), this]
    unfold cpAt
    split_ifs <;> first | rfl | omega

/-- The head of a chain is removed. -/
theorem CpsOK.pop (h : CpsOK node (p :: q :: rest))
    (hq : (node' q).instr = (node q).instr - 1)
    (hrest : ∀ c ∈ rest, (node' c).instr = (node c).instr) : CpsOK node' (q :: rest) := by
  intro i hi
  have hi' : i + 1 < (p :: q :: rest).length := Nat.succ_lt_succ hi
  have hcp := h (i + 1) hi'
  rw [getElem_cons_succ] at hcp
  match i with
  | 0 =>
    simp only [getElem_cons_zero, hq] at hcp ⊢
    cases rest with
    | nil => simpa [cpAt] using (pred_trust hcp).1
    | cons r rest => simpa [cpAt] using (pred_retry hcp).1
  | i + 1 =>
    simp only [getElem_cons_succ, length_cons] at hcp hi ⊢
    rw [hrest _ (getElem_mem _), hcp]
    unfold cpAt
    split_ifs <;> first | rfl | omega

variable {pre : List BTNptr}

/-- The last node of a chain is removed. -/
theorem CpsOK.dropLast (h : CpsOK node (pre ++ [q, p]))
    (hq : (node' q).instr = (node q).instr - 2)
    (hpre : ∀ c ∈ pre, (node' c).instr = (node c).instr) : CpsOK node' (pre ++ [q]) := by
  intro i hi
  simp only [length_append, length_cons, length_nil] at hi
  have hcp := h i (by simp only [length_append, length_cons, length_nil]; omega)
  by_cases hlt : i < pre.length
  · rw [getElem_append_left hlt] at hcp ⊢
    rw [hpre _ (getElem_mem _), hcp]
    simp only [cpAt, length_append, length_cons, length_nil]
    split_ifs <;> first | rfl | omega
  · obtain rfl : i = pre.length := by omega
    simp only [getElem_append_right (Nat.le_refl _), Nat.sub_self,
      getElem_cons_zero, hq] at hcp ⊢
    cases pre with
    | nil => simpa [cpAt] using (sub_two_try hcp).1
    | cons r pre =>
      have hr : cpType (node q).instr = retryInstr := by
        rw [hcp]; simp [cpAt]
      rw [(sub_two_retry hr).1]
      simp [cpAt]

/-- A node between two others is removed. -/
theorem CpsOK.dropMid (h : CpsOK node (pre ++ p :: rest)) (hpre : pre ≠ [])
    (hrest : rest ≠ []) : CpsOK node (pre ++ rest) := by
  have hp := length_pos_iff.mpr hpre
  have hr := length_pos_iff.mpr hrest
  intro i hi
  have hi' : i < pre.length + rest.length := by simpa using hi
  by_cases hlt : i < pre.length
  · have hcp := h i (by simp only [length_append, length_cons]; omega)
    rw [getElem_append_left hlt] at hcp ⊢
    rw [hcp]
    simp only [cpAt, length_append, length_cons]
    split_ifs <;> first | rfl | omega
  · have hlen : i + 1 < (pre ++ p :: rest).length := by
      simp only [length_append, length_cons]; omega
    have he : (pre ++ p :: rest)[i + 1] = (pre ++ rest)[i] := by
      rw [getElem_append_right (by omega), getElem_append_right (by omega)]
      simp only [show i + 1 - pre.length = (i - pre.length) + 1 by omega, getElem_cons_succ]
    have hcp := h (i + 1) hlen
    rw [he] at hcp
    rw [hcp]
    simp only [cpAt, length_append, length_cons]
    split_ifs <;> first | rfl | contradiction | omega

/-- The place of a node from its choice point bits. -/
theorem CpsOK.place (h : CpsOK node (pre ++ p :: rest)) :
    (cpType (node p).instr = nocpInstr ↔ pre = [] ∧ rest = []) ∧
      (cpType (node p).instr = tryInstr ↔ pre = [] ∧ rest ≠ []) ∧
      (cpType (node p).instr = trustInstr ↔ pre ≠ [] ∧ rest = []) := by
  have hcp := h pre.length (by simp)
  simp only [getElem_append_right (Nat.le_refl _), Nat.sub_self, getElem_cons_zero] at hcp
  rw [hcp]
  cases pre <;> cases rest <;>
    simp [cpAt, nocpInstr, tryInstr, trustInstr, retryInstr]

end XSBEngine.Tries
