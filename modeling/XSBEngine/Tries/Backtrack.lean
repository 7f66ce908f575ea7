import XSBEngine.Tries.SoftDelete

/-!
# Backtracking through answer tries

The instructions of answer tries for a call with free variables, `XSB/emu/tc_insts_xsb_i.h` and
`XSB/emu/tr_code_xsb_i.h`, and what is left of a trie at the choice points that they make.
-/

namespace XSBEngine.Tries

open List

/-! ### Instructions -/

/-- `FIRST_HASH_NODE`. -/
def firstHashNode : Int := -1

/-- `NO_MORE_IN_HASH`. -/
def noMoreInHash : Int := -2

/-- The loop of `find_next_nonempty_bucket`, over the buckets from a number on. -/
def nextNonempty : Nat → List (List BTNptr) → Int
  | _, [] => noMoreInHash
  | i, b :: bs => if b = [] then nextNonempty (i + 1) bs else i

/-- `find_next_nonempty_bucket`. -/
def findNextNonemptyBucket (ht : BTHT) (bucketNum : Int) : Int :=
  nextNonempty (bucketNum + 1).toNat (ht.buckets.drop (bucketNum + 1).toNat)

/-- The chain in a bucket. -/
def BTHT.chainAt (ht : BTHT) (bucketNum : Int) : List BTNptr :=
  ht.buckets.getD bucketNum.toNat []

/-- A choice point: a node to go on with and its siblings, or a hash table and the bucket that was
explored last. -/
inductive ChoicePoint where
  | node (opfail : List BTNptr)
  | hash (ht : BTHT) (hashOffset : Int)

/-- What `lpcreg` points to. -/
inductive Code where
  | node (nodes : List BTNptr)
  | hashOpcode (ht : BTHT)
  | hashHandle
  | fail

/-- `opsucc`. -/
def Child.code : Child → Code
  | .chain nodes => .node nodes
  | .hash ht => .hashOpcode ht

/-- The next instruction, or an answer is returned, or there are no choice points left in the
trie. -/
inductive Step where
  | goto (lpcreg : Code) (breg : List ChoicePoint)
  | answer (leaf : BTNptr) (breg : List ChoicePoint)
  | exhausted

/-- What an instruction does to the choice points, by its choice point bits. -/
def changeCPs (instr : Byte) (opfail : List BTNptr) (breg : List ChoicePoint) :
    Option (List ChoicePoint) :=
  if cpType instr = nocpInstr then some breg
  else if cpType instr = tryInstr then some (.node opfail :: breg)
  else
    match breg with
    | [] => none
    | _ :: breg => some (if cpType instr = retryInstr then .node opfail :: breg else breg)

/-- One instruction. The subterms that the trie is unified with are free variables. -/
def trieStep (t : Trie) : Code → List ChoicePoint → Option Step
  | .node [], _ => none
  | .node (p :: opfail), breg => do
    let breg ← changeCPs (t.node p).instr opfail breg
    if (t.node p).Fails then some (.goto .fail breg)
    else if (t.node p).isLeafNode then some (.answer p breg)
    else some (.goto (t.node p).child.code breg)
  | .hashOpcode ht, breg => some (.goto .hashHandle (.hash ht firstHashNode :: breg))
  | .hashHandle, .hash ht hashOffset :: breg =>
    let hashOffset := findNextNonemptyBucket ht hashOffset
    if hashOffset = noMoreInHash then some (.goto .fail breg)
    else some (.goto (.node (ht.chainAt hashOffset)) (.hash ht hashOffset :: breg))
  | .hashHandle, _ => none
  | .fail, [] => some .exhausted
  | .fail, .node opfail :: breg => some (.goto (.node opfail) (.node opfail :: breg))
  | .fail, .hash ht hashOffset :: breg => some (.goto .hashHandle (.hash ht hashOffset :: breg))

/-- The answers that are returned from a state until there are no more. -/
inductive Yields (t : Trie) : Code → List ChoicePoint → List BTNptr → Prop where
  | exhausted {lpcreg : Code} {breg : List ChoicePoint} :
      trieStep t lpcreg breg = some .exhausted → Yields t lpcreg breg []
  | goto {lpcreg lpcreg' : Code} {breg breg' : List ChoicePoint} {l : List BTNptr} :
      trieStep t lpcreg breg = some (.goto lpcreg' breg') → Yields t lpcreg' breg' l →
      Yields t lpcreg breg l
  | answer {lpcreg : Code} {breg breg' : List ChoicePoint} {p : BTNptr} {l : List BTNptr} :
      trieStep t lpcreg breg = some (.answer p breg') → Yields t .fail breg' l →
      Yields t lpcreg breg (p :: l)

/-- The states of a call to a trie, with the answers returned so far. After an answer the trie is
left, and it is entered again by failing. -/
inductive Backtracks (t : Trie) : List BTNptr → Code → List ChoicePoint → Prop where
  | start : Backtracks t [] (t.node t.root).child.code []
  | goto {ps : List BTNptr} {lpcreg lpcreg' : Code} {breg breg' : List ChoicePoint} :
      Backtracks t ps lpcreg breg → trieStep t lpcreg breg = some (.goto lpcreg' breg') →
      Backtracks t ps lpcreg' breg'
  | answer {ps : List BTNptr} {lpcreg : Code} {breg breg' : List ChoicePoint} {p : BTNptr} :
      Backtracks t ps lpcreg breg → trieStep t lpcreg breg = some (.answer p breg') →
      Backtracks t (ps ++ [p]) .fail breg'

/-! ### Nodes that are left -/

/-- The nodes of a level that a choice point goes on with. -/
def ChoicePoint.nodes : ChoicePoint → List BTNptr
  | .node opfail => opfail
  | .hash ht hashOffset => (ht.buckets.drop (hashOffset + 1).toNat).flatten

/-- The nodes that all choice points go on with, from the last one. -/
def pending (breg : List ChoicePoint) : List BTNptr := breg.flatMap ChoicePoint.nodes

/-- The answers below nodes, in the order of the instructions. -/
inductive Answers (t : Trie) : List BTNptr → List BTNptr → Prop where
  | nil : Answers t [] []
  | fails {p : BTNptr} {rest l : List BTNptr} :
      (t.node p).Fails → Answers t rest l → Answers t (p :: rest) l
  | leaf {p : BTNptr} {rest l : List BTNptr} :
      ¬(t.node p).Fails → (t.node p).isLeafNode = true → Answers t rest l →
      Answers t (p :: rest) (p :: l)
  | inner {p : BTNptr} {rest l : List BTNptr} :
      ¬(t.node p).Fails → (t.node p).isLeafNode = false →
      Answers t ((t.node p).child.nodes ++ rest) l → Answers t (p :: rest) l

/-- A trie of answers. A node that is not a leaf has children, unless it was deleted when there
were none. -/
structure AnswerTrie (t : Trie) : Prop where
  wf : TrieWF t
  root : t.root ≠ 0 ∧ ¬(t.node t.root).Fails
  inner : ∀ p, t.Live p → (t.node p).isLeafNode = false →
    (t.node p).child.nodes ≠ [] ∨ (t.node p).Fails ∧ (t.node p).child = .chain []

/-- The nodes after the first one of a chain. -/
def RestOK (node : BTNptr → BTN) (nodes : List BTNptr) : Prop :=
  ∀ i (h : i < nodes.length), cpType (node nodes[i]).instr =
    if i + 1 = nodes.length then trustInstr else retryInstr

variable {t : Trie} {p q : BTNptr} {rest l l' ps : List BTNptr} {breg breg' : List ChoicePoint}
  {lpcreg lpcreg' : Code} {ht : BTHT}

theorem CpsOK.tail {node : BTNptr → BTN} (h : CpsOK node (p :: rest)) : RestOK node rest := by
  intro i hi
  have hnext := h (i + 1) (Nat.succ_lt_succ hi)
  rw [getElem_cons_succ] at hnext
  rw [hnext, cpAt, length_cons, if_neg (by omega), if_neg (by omega)]
  by_cases hlast : i + 1 = rest.length
  · rw [if_pos (by omega), if_pos hlast]
  · rw [if_neg (by omega), if_neg hlast]

theorem RestOK.tail {node : BTNptr → BTN} (h : RestOK node (p :: rest)) : RestOK node rest := by
  intro i hi
  have hnext := h (i + 1) (Nat.succ_lt_succ hi)
  rw [getElem_cons_succ] at hnext
  rw [hnext, length_cons]
  by_cases hlast : i + 1 = rest.length
  · rw [if_pos (by omega), if_pos hlast]
  · rw [if_neg (by omega), if_neg hlast]

theorem nextNonempty_spec (i : Nat) (bs : List (List BTNptr)) :
    nextNonempty i bs = noMoreInHash ∧ bs.flatten = [] ∨
      ∃ k b rest, nextNonempty i bs = (i + k : Nat) ∧ b ≠ [] ∧ bs[k]? = some b ∧
        rest = bs.drop (k + 1) ∧ bs.flatten = b ++ rest.flatten := by
  induction bs generalizing i with
  | nil => exact .inl ⟨rfl, rfl⟩
  | cons b bs ih =>
    rw [nextNonempty]
    split
    next hb =>
      subst hb
      rcases ih (i + 1) with ⟨hno, hflat⟩ | ⟨k, b, rest, hk, hb, hget, hrest, hflat⟩
      · exact .inl ⟨hno, hflat⟩
      · refine .inr ⟨k + 1, b, rest, ?_, hb, hget, hrest, hflat⟩
        rw [hk]
        congr 1
        omega
    next hb => exact .inr ⟨0, b, bs, rfl, hb, rfl, rfl, rfl⟩

/-- The search for a bucket finds the next nodes of a table, if there are any. -/
theorem findNextNonemptyBucket_spec (ht : BTHT) (hashOffset : Int) :
    findNextNonemptyBucket ht hashOffset = noMoreInHash ∧
        (ChoicePoint.hash ht hashOffset).nodes = [] ∨
      ∃ i : Nat, findNextNonemptyBucket ht hashOffset = i ∧ ht.chainAt i ≠ [] ∧
        ht.chainAt i ∈ ht.buckets ∧
        (ChoicePoint.hash ht hashOffset).nodes =
          ht.chainAt i ++ (ChoicePoint.hash ht i).nodes := by
  rcases nextNonempty_spec (hashOffset + 1).toNat (ht.buckets.drop (hashOffset + 1).toNat) with
    ⟨hno, hflat⟩ | ⟨k, b, rest, hk, hb, hget, hrest, hflat⟩
  · exact .inl ⟨hno, hflat⟩
  · have hget' : ht.buckets[(hashOffset + 1).toNat + k]? = some b := by
      rw [← List.getElem?_drop]
      exact hget
    have hchain : ht.chainAt ((hashOffset + 1).toNat + k : Nat) = b := by
      rw [BTHT.chainAt, Int.toNat_natCast, getD_eq_getElem?_getD, hget']
      rfl
    refine .inr ⟨_, hk, ?_, ?_, ?_⟩
    · rw [hchain]
      exact hb
    · rw [hchain]
      exact mem_of_getElem? hget'
    · rw [hchain, ChoicePoint.nodes, hflat, hrest, drop_drop]
      rfl

/-! ### One instruction -/

/-- A hash table whose buckets are in order. -/
def TableOK (t : Trie) (ht : BTHT) : Prop :=
  (∀ b ∈ ht.buckets, CpsOK t.node b) ∧ ∀ p ∈ ht.buckets.flatten, t.Live p

/-- Choice points that instructions make. -/
def ChoicePointsOK (t : Trie) (breg : List ChoicePoint) : Prop :=
  ∀ cp ∈ breg, match cp with
    | .node opfail => opfail ≠ [] ∧ RestOK t.node opfail ∧ ∀ p ∈ opfail, t.Live p
    | .hash ht _ => TableOK t ht

/-- What is left at a state, whose code is new or that of the last choice point. -/
def Ready (t : Trie) : Code → List ChoicePoint → List BTNptr → Prop
  | .node nodes, breg, l => ChoicePointsOK t breg ∧ nodes ≠ [] ∧ (∀ p ∈ nodes, t.Live p) ∧
      (CpsOK t.node nodes ∧ l = nodes ++ pending breg ∨
        RestOK t.node nodes ∧ l = pending breg ∧ ∃ breg', breg = .node nodes :: breg')
  | .hashOpcode ht, breg, l => ChoicePointsOK t breg ∧ TableOK t ht ∧
    l = ht.buckets.flatten ++ pending breg
  | .hashHandle, breg, l => ChoicePointsOK t breg ∧ l = pending breg ∧
      ∃ ht hashOffset breg', breg = .hash ht hashOffset :: breg'
  | .fail, breg, l => ChoicePointsOK t breg ∧ l = pending breg

/-- What becomes of the first node that is left, or the end. -/
inductive Front (t : Trie) (lpcreg : Code) (breg : List ChoicePoint) : List BTNptr → Prop where
  | exhausted : trieStep t lpcreg breg = some .exhausted → Front t lpcreg breg []
  | fails {p : BTNptr} {rest : List BTNptr} {breg' : List ChoicePoint} :
      (t.node p).Fails → t.Live p → trieStep t lpcreg breg = some (.goto .fail breg') →
      Ready t .fail breg' rest → Front t lpcreg breg (p :: rest)
  | leaf {p : BTNptr} {rest : List BTNptr} {breg' : List ChoicePoint} :
      ¬(t.node p).Fails → t.Live p → (t.node p).isLeafNode = true →
      trieStep t lpcreg breg = some (.answer p breg') →
      Ready t .fail breg' rest → Front t lpcreg breg (p :: rest)
  | inner {p : BTNptr} {rest : List BTNptr} {breg' : List ChoicePoint} :
      ¬(t.node p).Fails → t.Live p → (t.node p).isLeafNode = false →
      trieStep t lpcreg breg = some (.goto (t.node p).child.code breg') →
      Ready t (t.node p).child.code breg' ((t.node p).child.nodes ++ rest) →
      Front t lpcreg breg (p :: rest)

/-- How many instructions may come before that of a node. -/
def delay : Code → List ChoicePoint → Nat
  | .node _, _ => 0
  | .hashOpcode _, breg => 2 * breg.length + 3
  | .hashHandle, breg => 2 * breg.length
  | .fail, breg => 2 * breg.length + 1

theorem ChoicePointsOK.cons_node (h : ChoicePointsOK t breg) (hne : l ≠ [])
    (hrest : RestOK t.node l)
    (hlive : ∀ p ∈ l, t.Live p) : ChoicePointsOK t (.node l :: breg) := by
  intro cp hcp
  rcases mem_cons.mp hcp with rfl | hcp
  · exact ⟨hne, hrest, hlive⟩
  · exact h cp hcp

theorem ChoicePointsOK.cons_hash (h : ChoicePointsOK t breg) (hht : TableOK t ht)
    (hashOffset : Int) :
    ChoicePointsOK t (.hash ht hashOffset :: breg) := by
  intro cp hcp
  rcases mem_cons.mp hcp with rfl | hcp
  · exact hht
  · exact h cp hcp

theorem ChoicePointsOK.tail {cp : ChoicePoint} (h : ChoicePointsOK t (cp :: breg)) :
    ChoicePointsOK t breg :=
  fun cp hcp => h cp (mem_cons_of_mem _ hcp)

/-- A first node saves its siblings in a choice point, if it has any. -/
theorem changeCPs_first (h : CpsOK t.node (p :: rest)) (hlive : ∀ q ∈ rest, t.Live q)
    (hbreg : ChoicePointsOK t breg) :
    ∃ breg', changeCPs (t.node p).instr rest breg = some breg' ∧
      Ready t .fail breg' (rest ++ pending breg) := by
  have hhead := h.head
  by_cases hrest : rest = []
  · rw [if_pos hrest] at hhead
    unfold changeCPs
    rw [if_pos hhead, hrest]
    exact ⟨breg, rfl, hbreg, rfl⟩
  · rw [if_neg hrest] at hhead
    unfold changeCPs
    rw [hhead, if_neg (by decide), if_pos rfl]
    exact ⟨_, rfl, hbreg.cons_node hrest h.tail hlive, rfl⟩

/-- A later node changes or removes the choice point. -/
theorem changeCPs_rest (h : RestOK t.node (p :: rest)) (hlive : ∀ q ∈ rest, t.Live q)
    (hbreg : ChoicePointsOK t breg) (cp : ChoicePoint) :
    ∃ breg', changeCPs (t.node p).instr rest (cp :: breg) = some breg' ∧
      Ready t .fail breg' (rest ++ pending breg) := by
  have hhead : cpType (t.node p).instr = if rest = [] then trustInstr else retryInstr := by
    have hzero := h 0 (Nat.succ_pos _)
    rw [getElem_cons_zero] at hzero
    rw [hzero]
    cases rest with
    | nil => rfl
    | cons q rest => exact if_neg (by simp)
  by_cases hrest : rest = []
  · rw [if_pos hrest] at hhead
    unfold changeCPs
    rw [hhead, if_neg (by decide), if_neg (by decide), hrest]
    exact ⟨breg, rfl, hbreg, rfl⟩
  · rw [if_neg hrest] at hhead
    unfold changeCPs
    rw [hhead, if_neg (by decide), if_neg (by decide)]
    exact ⟨_, rfl, hbreg.cons_node hrest h.tail hlive, rfl⟩

/-- The children of a node that is not a leaf are executed next. -/
theorem AnswerTrie.child_ready (h : AnswerTrie t) (hp : t.Live p)
    (hleaf : (t.node p).isLeafNode = false) (hfails : ¬(t.node p).Fails)
    (hbreg : Ready t .fail breg l) :
    Ready t (t.node p).child.code breg ((t.node p).child.nodes ++ l) := by
  obtain ⟨hcps, rfl⟩ := hbreg
  have hok := h.wf.child_ok p hp
  have hlive : ∀ c ∈ (t.node p).child.nodes, t.Live c := fun c hc => (h.wf.child_live p hp c hc).1
  have hne := (h.inner p hp hleaf).resolve_right fun h => hfails h.1
  cases hchild : (t.node p).child with
  | chain nodes =>
    rw [hchild] at hok hlive hne
    exact ⟨hcps, hne, hlive, .inl ⟨hok.1, rfl⟩⟩
  | hash ht =>
    rw [hchild] at hok hlive
    exact ⟨hcps, ⟨hok.1, hlive⟩, rfl⟩

theorem AnswerTrie.start_ready (h : AnswerTrie t) :
    Ready t (t.node t.root).child.code [] ((t.node t.root).child.nodes ++ []) := by
  obtain ⟨hlive, htype, -⟩ := h.wf.root_live h.root.1
  have hleaf : (t.node t.root).isLeafNode = false := by
    rw [BTN.isLeafNode, eq_of_beq htype]
    rfl
  exact h.child_ready hlive hleaf h.root.2 ⟨fun _ hcp => absurd hcp not_mem_nil, rfl⟩

/-- What an instruction can do. -/
theorem step_cases (h : AnswerTrie t) (hready : Ready t lpcreg breg l) :
    Front t lpcreg breg l ∨ ∃ lpcreg' breg', trieStep t lpcreg breg = some (.goto lpcreg' breg') ∧
      Ready t lpcreg' breg' l ∧ delay lpcreg' breg' < delay lpcreg breg := by
  cases lpcreg with
  | node nodes =>
    left
    obtain ⟨hbreg, hne, hlive, hcase⟩ := hready
    cases nodes with
    | nil => exact absurd rfl hne
    | cons p rest =>
      have hp := hlive p mem_cons_self
      have hrest : ∀ q ∈ rest, t.Live q := fun q hq => hlive q (mem_cons_of_mem _ hq)
      obtain ⟨breg', l', hchange, rfl, hready'⟩ : ∃ breg' l',
          changeCPs (t.node p).instr rest breg = some breg' ∧ l = p :: l' ∧
            Ready t .fail breg' l' := by
        rcases hcase with ⟨hcps, rfl⟩ | ⟨hcps, rfl, breg', rfl⟩
        · obtain ⟨breg', hchange, hready'⟩ := changeCPs_first hcps hrest hbreg
          exact ⟨breg', _, hchange, rfl, hready'⟩
        · obtain ⟨breg'', hchange, hready'⟩ := changeCPs_rest hcps hrest hbreg.tail _
          exact ⟨breg'', _, hchange, rfl, hready'⟩
      by_cases hfails : (t.node p).Fails
      · apply Front.fails hfails hp _ hready'
        simp only [trieStep, hchange, Option.bind_eq_bind, Option.bind_some, if_pos hfails]
      · cases hleaf : (t.node p).isLeafNode with
        | true =>
          apply Front.leaf hfails hp hleaf _ hready'
          simp only [trieStep, hchange, Option.bind_eq_bind, Option.bind_some, if_neg hfails,
            if_pos hleaf]
        | false =>
          apply Front.inner hfails hp hleaf _ (h.child_ready hp hleaf hfails hready')
          simp only [trieStep, hchange, Option.bind_eq_bind, Option.bind_some, if_neg hfails,
            hleaf, Bool.false_eq_true, if_false]
  | hashOpcode ht =>
    right
    obtain ⟨hbreg, hht, rfl⟩ := hready
    refine ⟨_, _, rfl, ⟨hbreg.cons_hash hht _, rfl, ht, _, _, rfl⟩, ?_⟩
    simp only [delay, length_cons]
    omega
  | hashHandle =>
    right
    obtain ⟨hbreg, rfl, ht, hashOffset, breg', rfl⟩ := hready
    have hht : TableOK t ht := hbreg _ mem_cons_self
    rcases findNextNonemptyBucket_spec ht hashOffset with ⟨hno, hnil⟩ | ⟨i, hi, hne, hmem, hnodes⟩
    · refine ⟨.fail, breg', ?_, ⟨hbreg.tail, ?_⟩, ?_⟩
      · rw [trieStep, hno, if_pos rfl]
      · rw [pending, flatMap_cons, hnil]
        rfl
      · simp only [delay, length_cons]
        omega
    · refine ⟨.node (ht.chainAt i), .hash ht i :: breg', ?_, ⟨hbreg.tail.cons_hash hht _, hne, ?_,
        .inl ⟨hht.1 _ hmem, ?_⟩⟩, ?_⟩
      · rw [trieStep, hi, if_neg (by rw [noMoreInHash]; omega)]
      · exact fun p hp => hht.2 p (mem_flatten.mpr ⟨_, hmem, hp⟩)
      · rw [pending, pending, flatMap_cons, flatMap_cons, hnodes, append_assoc]
      · simp only [delay, length_cons]
        omega
  | fail =>
    obtain ⟨hbreg, rfl⟩ := hready
    cases breg with
    | nil => exact .inl (.exhausted rfl)
    | cons cp breg =>
      right
      cases cp with
      | node opfail =>
        obtain ⟨hne, hrest, hlive⟩ := hbreg _ mem_cons_self
        exact ⟨_, _, rfl, ⟨hbreg, hne, hlive, .inr ⟨hrest, rfl, _, rfl⟩⟩, Nat.succ_pos _⟩
      | hash ht hashOffset =>
        exact ⟨_, _, rfl, ⟨hbreg, rfl, _, _, _, rfl⟩, Nat.lt_succ_self _⟩

/-! ### All instructions -/

/-- The answers below the nodes that are left are those that are returned. -/
theorem Answers.yields (h : AnswerTrie t) (ha : Answers t l l')
    (hready : Ready t lpcreg breg l) : Yields t lpcreg breg l' := by
  have hfront : ∀ {l l' : List BTNptr}, (∀ {lpcreg breg}, Front t lpcreg breg l →
      Yields t lpcreg breg l') → ∀ n {lpcreg breg}, delay lpcreg breg ≤ n →
      Ready t lpcreg breg l → Yields t lpcreg breg l' := by
    intro l l' hf n
    induction n with
    | zero =>
      intro lpcreg breg hn hready
      rcases step_cases h hready with hfr | ⟨lpcreg', breg', -, -, hlt⟩
      · exact hf hfr
      · omega
    | succ n ih =>
      intro lpcreg breg hn hready
      rcases step_cases h hready with hfr | ⟨lpcreg', breg', hstep, hready', hlt⟩
      · exact hf hfr
      · exact .goto hstep (ih (by omega) hready')
  induction ha generalizing lpcreg breg with
  | nil =>
    apply hfront _ _ le_rfl hready
    intro lpcreg breg hf
    cases hf with
    | exhausted hstep => exact .exhausted hstep
  | fails hfails _ ih =>
    apply hfront _ _ le_rfl hready
    intro lpcreg breg hf
    cases hf with
    | fails _ _ hstep hready' => exact .goto hstep (ih hready')
    | leaf hno | inner hno => exact absurd hfails hno
  | leaf hno hleaf _ ih =>
    apply hfront _ _ le_rfl hready
    intro lpcreg breg hf
    cases hf with
    | fails hfails => exact absurd hfails hno
    | leaf _ _ _ hstep hready' => exact .answer hstep (ih hready')
    | inner _ _ hinner => rw [hleaf] at hinner; cases hinner
  | inner hno hinner _ ih =>
    apply hfront _ _ le_rfl hready
    intro lpcreg breg hf
    cases hf with
    | fails hfails => exact absurd hfails hno
    | leaf _ _ hleaf => rw [hinner] at hleaf; cases hleaf
    | inner _ _ _ hstep hready' => exact .goto hstep (ih hready')

/-- What is left at every state of a call. -/
theorem Backtracks.ready (h : AnswerTrie t) (hb : Backtracks t ps lpcreg breg) :
    ∃ l, Ready t lpcreg breg l := by
  induction hb with
  | start => exact ⟨_, h.start_ready⟩
  | goto _ hstep ih =>
    obtain ⟨l, hready⟩ := ih
    rcases step_cases h hready with hfr | ⟨lpcreg', breg', hstep', hready', -⟩
    · cases hfr with
      | exhausted hs => rw [hs] at hstep; cases hstep
      | fails _ _ hs hr => rw [hs] at hstep; cases hstep; exact ⟨_, hr⟩
      | leaf _ _ _ hs => rw [hs] at hstep; cases hstep
      | inner _ _ _ hs hr => rw [hs] at hstep; cases hstep; exact ⟨_, hr⟩
    · rw [hstep'] at hstep
      cases hstep
      exact ⟨l, hready'⟩
  | answer _ hstep ih =>
    obtain ⟨l, hready⟩ := ih
    rcases step_cases h hready with hfr | ⟨lpcreg', breg', hstep', -, -⟩
    · cases hfr with
      | exhausted hs | fails _ _ hs => rw [hs] at hstep; cases hstep
      | leaf _ _ _ hs hr => rw [hs] at hstep; cases hstep; exact ⟨_, hr⟩
      | inner _ _ _ hs => rw [hs] at hstep; cases hstep
    · rw [hstep'] at hstep
      cases hstep

/-- The answers returned so far come before those that are still returned. -/
theorem Backtracks.yields (hb : Backtracks t ps lpcreg breg)
    (hall : Yields t (t.node t.root).child.code [] l) :
    ∃ l', Yields t lpcreg breg l' ∧ l = ps ++ l' := by
  induction hb with
  | start => exact ⟨l, hall, rfl⟩
  | goto _ hstep ih =>
    obtain ⟨l', hy, rfl⟩ := ih
    refine ⟨l', ?_, rfl⟩
    cases hy with
    | exhausted hs => rw [hs] at hstep; cases hstep
    | goto hs hy => rw [hs] at hstep; cases hstep; exact hy
    | answer hs => rw [hs] at hstep; cases hstep
  | answer _ hstep ih =>
    obtain ⟨l', hy, rfl⟩ := ih
    cases hy with
    | exhausted hs | goto hs => rw [hs] at hstep; cases hstep
    | answer hs hy =>
      rw [hs] at hstep
      cases hstep
      exact ⟨_, hy, by rw [append_assoc]; rfl⟩

theorem Yields.unique (h : Yields t lpcreg breg l) (h' : Yields t lpcreg breg l') : l = l' := by
  induction h generalizing l' with
  | exhausted hs =>
    cases h' with
    | exhausted => rfl
    | goto hs' | answer hs' => rw [hs] at hs'; cases hs'
  | goto hs _ ih =>
    cases h' with
    | exhausted hs' => rw [hs] at hs'; cases hs'
    | goto hs' hy => rw [hs] at hs'; cases hs'; exact ih hy
    | answer hs' => rw [hs] at hs'; cases hs'
  | answer hs _ ih =>
    cases h' with
    | exhausted hs' | goto hs' => rw [hs] at hs'; cases hs'
    | answer hs' hy => rw [hs] at hs'; cases hs'; rw [ih hy]

end XSBEngine.Tries
